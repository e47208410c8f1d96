import DualEngine.Console.Balance
import DualEngine.Proofs.Lexemes

/-! # Brace depth of lines

The console counts braces line by line, with two flags and without ever failing; the scanner reads
the lines joined to one source. Where the scanner succeeds both pass over the same strings and
comments, so that the changes of depth add up to the braces among the tokens.
-/
namespace DualEngine.Console

variable {c : Char} {line : List Char}

/-! ## Counting through several lines -/

/-- The change of depth from a place on, through the rest of its line and all lines after it. -/
def balanceThrough (place : Place) (text : List Char) : Int :=
  match text.splitOn '\n' with
  | [] => 0
  | line :: lines => balanceFrom place line + (lines.map (balanceFrom .code)).sum

theorem balanceThrough_line (place : Place) (h : '\n' ∉ line) :
    balanceThrough place line = balanceFrom place line := by
  simp [balanceThrough, List.splitOn_eq_singleton h]

theorem balanceThrough_eq_sum (text : List Char) :
    balanceThrough .code text = ((text.splitOn '\n').map (balanceFrom .code)).sum := by
  unfold balanceThrough
  split
  · rename_i h
    exact absurd h (List.splitOn_ne_nil _ _)
  · rename_i h
    rw [h, List.map_cons, List.sum_cons]

/-- After a line feed the count goes on outside of strings and comments. -/
theorem balanceThrough_newline (place : Place) (h : '\n' ∉ line) (text : List Char) :
    balanceThrough place (line ++ '\n' :: text) =
      balanceFrom place line + balanceThrough .code text := by
  have hplain : ∀ c ∈ line, (c == '\n') = false := by
    intro c hc
    rw [beq_eq_false_iff_ne]
    rintro rfl
    exact h hc
  have hsplit : (line ++ '\n' :: text).splitOn '\n' = line :: text.splitOn '\n' :=
    List.splitOnP_append_cons_of_forall_mem hplain '\n' (beq_self_eq_true _) text
  rw [balanceThrough, hsplit, balanceThrough_eq_sum]

/-- What one character does to a line it does to the text that the line starts. -/
theorem balanceThrough_cons {place next : Place} {n : Int} (hc : c ≠ '\n')
    (h : ∀ line, balanceFrom place (c :: line) = n + balanceFrom next line) (text : List Char) :
    balanceThrough place (c :: text) = n + balanceThrough next text := by
  have hsplit : (c :: text).splitOn '\n' = (text.splitOn '\n').modifyHead (c :: ·) := by
    simp [List.splitOn, List.splitOnP_cons_eq_if_modifyHead, hc]
  unfold balanceThrough
  rw [hsplit]
  cases hlines : text.splitOn '\n' with
  | nil => exact absurd hlines (List.splitOn_ne_nil _ _)
  | cons line lines => simp only [List.modifyHead_cons, h, add_assoc]

/-- The same for a character that only leads from one place to another. -/
theorem balanceThrough_step {place next : Place} (hc : c ≠ '\n')
    (h : ∀ line, balanceFrom place (c :: line) = balanceFrom next line) (text : List Char) :
    balanceThrough place (c :: text) = balanceThrough next text := by
  rw [balanceThrough_cons hc (fun line => (h line).trans (zero_add _).symm), zero_add]

/-! ## Characters that do not count -/

/-- A character of code that is no brace and starts neither a string nor a comment. -/
def isNeutral (c : Char) : Bool := c != '#' && c != '"' && c != '\x7b' && c != '\x7d'

theorem balanceThrough_neutral (hc : isNeutral c = true) (text : List Char) :
    balanceThrough .code (c :: text) = balanceThrough .code text := by
  by_cases hline : c = '\n'
  · have hstart := balanceThrough_newline .code (List.not_mem_nil (a := '\n')) text
    rwa [balanceFrom, zero_add, List.nil_append, ← hline] at hstart
  · simp only [isNeutral, Bool.and_eq_true, bne_iff_ne, ne_eq] at hc
    exact balanceThrough_step hline (fun line => by simp [balanceFrom, hc]) text

theorem balanceThrough_neutrals {cs : List Char} (h : ∀ c ∈ cs, isNeutral c = true)
    (text : List Char) : balanceThrough .code (cs ++ text) = balanceThrough .code text := by
  induction cs with
  | nil => rfl
  | cons c cs ih =>
    rw [List.cons_append, balanceThrough_neutral (h c List.mem_cons_self),
      ih fun d hd => h d (List.mem_cons_of_mem _ hd)]

/-- A class of characters without the four that matter holds only neutral ones. -/
theorem isNeutral_of_class {f : Char → Bool} (hc : f c = true) (hhash : f '#' = false)
    (hquote : f '"' = false) (hopen : f '\x7b' = false) (hclose : f '\x7d' = false) :
    isNeutral c = true := by
  have apart {d : Char} (hd : f d = false) : c ≠ d := by
    rintro rfl
    rw [hc] at hd
    cases hd
  simp [isNeutral, apart hhash, apart hquote, apart hopen, apart hclose]

theorem isNeutral_of_isDigit (h : Text.isDigit c = true) : isNeutral c = true :=
  isNeutral_of_class h (by decide) (by decide) (by decide) (by decide)

theorem isNeutral_of_isNamePart (h : Text.isNamePart c = true) : isNeutral c = true :=
  isNeutral_of_class h (by decide) (by decide) (by decide) (by decide)

/-! ## Gaps and lexemes -/

theorem balanceThrough_comment {body text : List Char} (hbody : '\n' ∉ body)
    (htext : ∀ c ∈ text.head?, c = '\n') :
    balanceThrough .code ('#' :: (body ++ text)) = balanceThrough .code text := by
  have hline : '\n' ∉ '#' :: body := by simpa using hbody
  cases text with
  | nil =>
    rw [List.append_nil, balanceThrough_line .code hline,
      balanceThrough_line .code List.not_mem_nil]
    rfl
  | cons c text =>
    obtain rfl : c = '\n' := htext c rfl
    rw [← List.cons_append, balanceThrough_newline .code hline,
      balanceThrough_neutral (c := '\n') (by decide)]
    exact zero_add _

theorem balanceThrough_gap {rest gap : List Char} (h : Gap rest gap) :
    balanceThrough .code (gap ++ rest) = balanceThrough .code rest := by
  induction h with
  | nil => rfl
  | blank hc _ ih =>
    rw [List.cons_append, balanceThrough_neutral, ih]
    exact isNeutral_of_class hc (by decide) (by decide) (by decide) (by decide)
  | comment hbody hend _ ih =>
    rw [List.cons_append, List.append_assoc, balanceThrough_comment hbody hend, ih]

/-- A string is left at its closing quote. -/
theorem balanceThrough_string {body value : List Char} (h : Unescapes body value)
    (text : List Char) :
    balanceThrough .string (body ++ '"' :: text) = balanceThrough .code text := by
  induction h with
  | nil => exact balanceThrough_step (by decide) (fun line => by simp [balanceFrom]) text
  | plain hquote hslash hline _ ih =>
    rw [List.cons_append, ← ih]
    exact balanceThrough_step hline (fun line => by simp [balanceFrom, hquote, hslash]) _
  | @escaped e c body value he _ ih =>
    have hline : e ≠ '\n' := by
      rintro rfl
      cases he
    have hescape : balanceThrough .escape (e :: (body ++ '"' :: text)) =
        balanceThrough .string (body ++ '"' :: text) :=
      balanceThrough_step hline (fun line => by simp [balanceFrom]) _
    rw [List.cons_append, List.cons_append, ← ih, ← hescape]
    exact balanceThrough_step (by decide) (fun line => by simp [balanceFrom]) _

/-- The change of depth at a token. -/
def braceStep : TokenType → Int
  | .leftBrace => 1
  | .rightBrace => -1
  | _ => 0

theorem braceStep_wordType (word : String) : braceStep (wordType word) = 0 := by
  unfold wordType
  split_ifs <;> rfl

theorem balanceThrough_single {type : TokenType} (h : singleType? c = some type)
    (text : List Char) :
    balanceThrough .code (c :: text) = braceStep type + balanceThrough .code text := by
  have hneutral (hstep : braceStep type = 0) (hc : isNeutral c = true) :
      balanceThrough .code (c :: text) = braceStep type + balanceThrough .code text := by
    rw [hstep, zero_add, balanceThrough_neutral hc]
  unfold singleType? at h
  split at h <;> cases h
  case h_3 | h_4 =>
    refine balanceThrough_cons (by decide) (fun line => ?_) text
    simp [balanceFrom, braceStep, Int.add_comm, Int.sub_eq_add_neg]
  all_goals exact hneutral rfl (by decide)

theorem balanceThrough_lexeme {p : Piece} {lexeme : List Char} (h : p.WrittenAs lexeme)
    (text : List Char) :
    balanceThrough .code (lexeme ++ text) = braceStep p.type + balanceThrough .code text := by
  obtain ⟨valid, plain, quoted⟩ := h
  have hneutral {cs : List Char} (hlexeme : lexeme = cs) (hstep : braceStep p.type = 0)
      (hcs : ∀ c ∈ cs, isNeutral c = true) :
      balanceThrough .code (lexeme ++ text) = braceStep p.type + balanceThrough .code text := by
    rw [hlexeme, hstep, zero_add, balanceThrough_neutrals hcs]
  cases valid with
  | single h =>
    rw [plain (singleType?_ne_string h), String.toList_ofList]
    exact balanceThrough_single h text
  | pair h =>
    have hlexeme := plain (pairType?_ne_string h)
    rw [String.toList_ofList] at hlexeme
    unfold pairType? at h
    split at h <;> cases h <;> exact hneutral hlexeme rfl (by simp [isNeutral])
  | @word c cs hc hword =>
    have hlexeme := plain (wordType_ne_string _)
    rw [String.toList_ofList] at hlexeme
    have hall : ∀ d ∈ c :: cs, Text.isNamePart d = true :=
      List.forall_mem_cons.mpr ⟨isNamePart_of_isNameStart hc, hword⟩
    exact hneutral hlexeme (braceStep_wordType _) fun d hd => isNeutral_of_isNamePart (hall d hd)
  | number hdigits =>
    have hlexeme := plain (by simp)
    rw [String.toList_ofList] at hlexeme
    exact hneutral hlexeme rfl fun c hmem => isNeutral_of_isDigit (hdigits c hmem)
  | float hfloat =>
    obtain ⟨whole, fraction, htext, -, -, hdigits⟩ := hfloat
    refine hneutral ((plain (by simp)).trans htext) rfl fun c hmem => ?_
    rw [List.mem_append, List.mem_cons] at hmem
    rcases hmem with hmem | rfl | hmem
    · exact isNeutral_of_isDigit (hdigits c (List.mem_append_left _ hmem))
    · decide
    · exact isNeutral_of_isDigit (hdigits c (List.mem_append_right _ hmem))
  | string s =>
    obtain ⟨body, rfl, hbody⟩ := quoted rfl
    have hopen : balanceThrough .code ('"' :: (body ++ '"' :: text)) =
        balanceThrough .string (body ++ '"' :: text) :=
      balanceThrough_step (by decide) (fun line => by simp [balanceFrom]) _
    rw [balanceThrough_string hbody] at hopen
    simpa [braceStep] using hopen

/-! ## Whole sources -/

theorem sum_braceStep (tokens : List Token) : (tokens.map fun t => braceStep t.type).sum =
    (tokens.countP fun t => t.type = .leftBrace : Nat) -
      (tokens.countP fun t => t.type = .rightBrace : Nat) := by
  induction tokens with
  | nil => rfl
  | cons t tokens ih =>
    rw [List.map_cons, List.sum_cons, ih, List.countP_cons, List.countP_cons]
    cases t.type <;> simp [braceStep] <;> omega

theorem balanceThrough_of_cut {before source : List Char} {tokens : List Token}
    (h : Cut before source tokens) :
    balanceThrough .code source = (tokens.map fun t => braceStep t.type).sum := by
  induction h with
  | done hgap =>
    have hskip := balanceThrough_gap hgap
    rwa [List.append_nil, balanceThrough_line .code List.not_mem_nil] at hskip
  | token hgap hlexeme _ _ ih =>
    rw [balanceThrough_gap hgap, balanceThrough_lexeme hlexeme, ih, List.map_cons, List.sum_cons]

theorem sum_balance (lines : List String) (h : ∀ line ∈ lines, '\n' ∉ line.toList) :
    (lines.map balance).sum = balanceThrough .code ("\n".intercalate lines).toList := by
  by_cases hempty : lines = []
  · subst hempty
    rfl
  have hsplit : (("\n".intercalate lines).toList).splitOn '\n' = lines.map String.toList := by
    rw [String.toList_intercalate]
    exact List.splitOn_intercalate '\n' (by simpa using h) (by simpa using hempty)
  rw [balanceThrough_eq_sum, hsplit, List.map_map]
  rfl

/-- The changes of depth of some lines add up to the braces that the scanner finds in them. -/
theorem sum_balance_eq_braces (lines : List String) (hlines : ∀ line ∈ lines, '\n' ∉ line.toList)
    {tokens : List Token} (h : tokenize ("\n".intercalate lines) = .ok tokens) :
    (lines.map balance).sum = (tokens.countP fun t => t.type = .leftBrace : Nat) -
      (tokens.countP fun t => t.type = .rightBrace : Nat) := by
  have hcut : Cut [] ("\n".intercalate lines).toList tokens := cut_of_tokensFrom h
  rw [sum_balance lines hlines, balanceThrough_of_cut hcut, sum_braceStep]

/-- A brace in a comment, one in a string after an escaped quote, and a hash in a string. -/
def hiddenBraces : List String :=
  ["if (x) \x7b # \x7b \"", "print(\"a\\\"\x7d#\") \x7d \x7b", "\x7d"]

theorem hiddenBraces_agree :
    ∃ tokens, tokenize ("\n".intercalate hiddenBraces) = .ok tokens ∧
      (hiddenBraces.map balance).sum = (tokens.countP fun t => t.type = .leftBrace : Nat) -
        (tokens.countP fun t => t.type = .rightBrace : Nat) := by
  have hok : (tokenize ("\n".intercalate hiddenBraces)).isOk = true := by cbv
  cases h : tokenize ("\n".intercalate hiddenBraces) with
  | ok tokens => exact ⟨tokens, rfl, sum_balance_eq_braces _ (by decide) h⟩
  | error e =>
    rw [h] at hok
    cases hok

end DualEngine.Console
