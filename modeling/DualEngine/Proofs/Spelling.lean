import DualEngine.Proofs.Canonical

/-! # Writing tokens

A list of tokens is written with a blank only where two of them would run together, and the scanner
reads the same tokens back. Most of the work is to tell the classes of characters apart.
-/
namespace DualEngine

/-! ## Classes of characters -/

namespace Text

variable {c : Char}

/-- No range of one list meets a range of the other. -/
def Ranges.apart (first second : Ranges) : Bool :=
  first.all fun r => second.all fun s => r.2.blt s.1 || s.2.blt r.1

theorem Ranges.not_has_of_apart {first second : Ranges} (h : first.apart second = true)
    (hc : first.has c = true) : second.has c = false := by
  obtain ⟨r, hr, hrc⟩ := List.any_eq_true.mp hc
  rw [Ranges.has, List.any_eq_false]
  intro s hs hsc
  have hrs := List.all_eq_true.mp (List.all_eq_true.mp h r hr) s hs
  simp only [Bool.and_eq_true, decide_eq_true_eq, Bool.or_eq_true, Nat.blt_eq] at hrc hsc hrs
  omega

def letterRanges : Ranges := (65, 90) :: (97, 122) :: letters

def digitRanges : Ranges := zeros.map (fun start => (start, start + 9)) ++ ornamentalDigits

theorem has_letterRanges (h : isLetter c = true) : letterRanges.has c = true := by
  have hmem {r : Nat × Nat} (hr : r ∈ letterRanges) (hc : r.1 ≤ c.toNat ∧ c.toNat ≤ r.2) :
      letterRanges.has c = true := List.any_eq_true.mpr ⟨r, hr, by simpa using hc⟩
  unfold isLetter at h
  split at h
  · simp only [Char.isAlpha, Char.isUpper, Char.isLower, Bool.or_eq_true, Bool.and_eq_true,
      decide_eq_true_eq, UInt32.le_iff_toNat_le, ge_iff_le] at h
    rcases h with h | h
    · exact hmem List.mem_cons_self h
    · exact hmem (List.mem_cons_of_mem _ List.mem_cons_self) h
  · obtain ⟨r, hr, hc⟩ := List.any_eq_true.mp h
    exact hmem (List.mem_cons_of_mem _ (List.mem_cons_of_mem _ hr)) (by simpa using hc)

theorem has_digitRanges (h : isDigit c = true) : digitRanges.has c = true := by
  rw [digitRanges, Ranges.has, List.any_append, Bool.or_eq_true]
  rcases Bool.or_eq_true _ _ |>.mp h with h | h
  · refine .inl ?_
    rw [decimalValue?, Option.isSome_map, List.find?_isSome] at h
    obtain ⟨start, hstart, hc⟩ := h
    refine List.any_eq_true.mpr ⟨(start, start + 9), List.mem_map_of_mem hstart, ?_⟩
    simp only [Bool.and_eq_true, decide_eq_true_eq] at hc ⊢
    omega
  · exact .inr h

theorem isBlank_of_isDigit (h : isDigit c = true) : isBlank c = false :=
  Ranges.not_has_of_apart (by decide +kernel) (has_digitRanges h)

theorem isNameStart_cases (h : isNameStart c = true) : isBlank c = false ∧ isDigit c = false := by
  rcases Bool.or_eq_true _ _ |>.mp h with h | h
  · refine ⟨Ranges.not_has_of_apart (by decide +kernel) (has_letterRanges h), ?_⟩
    by_contra hdigit
    have hapart : letterRanges.apart digitRanges = true := by decide +kernel
    have hnot := Ranges.not_has_of_apart hapart (has_letterRanges h)
    rw [has_digitRanges (by simpa using hdigit)] at hnot
    cases hnot
  · rw [beq_iff_eq] at h
    subst h
    exact ⟨by decide, by decide⟩

end Text

theorem pairType?_eq_none {c : Char} (h : Text.isNameStart c = true ∨ Text.isDigit c = true)
    (d : Char) : pairType? c d = none := by
  unfold pairType?
  split <;> first | rfl | (rcases h with h | h <;> exact absurd h (by decide))

theorem singleType?_eq_none {c : Char} (h : Text.isNameStart c = true ∨ Text.isDigit c = true) :
    singleType? c = none := by
  unfold singleType?
  split <;> first | rfl | (rcases h with h | h <;> exact absurd h (by decide))

/-! ## Tokens without places -/

/-- A token, wherever it stands. -/
structure Piece where
  type : TokenType
  value : String
deriving DecidableEq, Repr

def Token.piece (t : Token) : Piece := ⟨t.type, t.value⟩

/-- A character between quotes. -/
def escape : Char → List Char
  | '\n' => ['\\', 'n']
  | '"' => ['\\', '"']
  | '\\' => ['\\', '\\']
  | c => [c]

namespace Piece

variable {c : Char} {cs : List Char} {pieces : List Piece} {p : Piece} {type : TokenType}

/-- The characters that are read as the piece. -/
def text (p : Piece) : List Char :=
  if p.type = .string then '"' :: (p.value.toList.flatMap escape ++ ['"']) else p.value.toList

/-- The pieces that the scanner can give. -/
inductive Valid : Piece → Prop
  | single {c : Char} {type : TokenType} (h : singleType? c = some type) :
    Valid ⟨type, String.ofList [c]⟩
  | pair {c d : Char} {type : TokenType} (h : pairType? c d = some type) :
    Valid ⟨type, String.ofList [c, d]⟩
  | word {c : Char} {cs : List Char} (hc : Text.isNameStart c = true)
    (hcs : ∀ d ∈ cs, Text.isNamePart d = true) :
    Valid ⟨wordType (String.ofList (c :: cs)), String.ofList (c :: cs)⟩
  | number {c : Char} {cs : List Char} (h : ∀ d ∈ c :: cs, Text.isDigit d = true) :
    Valid ⟨.number, String.ofList (c :: cs)⟩
  | float {text : String} (h : IsFloatText text) : Valid ⟨.float, text⟩
  | string (s : String) : Valid ⟨.string, s⟩

/-- A character right after the piece would be read as part of it. -/
def runsOn (p : Piece) (c : Char) : Bool :=
  match p.type with
  | .string => false
  | .number | .float => Text.isDigit c || c == '.'
  | .ifWord | .elseWord | .forWord | .defWord | .printWord | .randomWord | .trueWord | .falseWord
  | .identifier => Text.isNamePart c
  | _ =>
    match p.value.toList with
    | [d] => (pairType? d c).isSome
    | _ => false

/-- The text of some pieces, with a blank where two of them would run together. -/
def spaced : List Piece → List Char
  | [] => []
  | [p] => p.text
  | p :: q :: rest =>
    p.text ++ ((if q.text.head?.any p.runsOn then [' '] else []) ++ spaced (q :: rest))

/-- The scanner reads the piece off the front of the text. -/
def Reads (p : Piece) (rest : List Char) : Prop :=
  ∃ c cs, p.text = c :: cs ∧ Text.isBlank c = false ∧ c ≠ '#' ∧
    ∀ position, ∃ width, readLexeme position c (cs ++ rest) = .ok ⟨p.type, p.value, width, rest⟩

theorem text_of_ne (h : type ≠ .string) (cs : List Char) : text ⟨type, String.ofList cs⟩ = cs := by
  rw [text, if_neg h, String.toList_ofList]

variable {rest : List Char}

theorem takeWhile_dropWhile_append {p : Char → Bool} (rest : List Char)
    (hcs : ∀ c ∈ cs, p c = true) (hrest : ∀ c ∈ rest.head?, p c = false) :
    (cs ++ rest).takeWhile p = cs ∧ (cs ++ rest).dropWhile p = rest := by
  have hstop : rest.takeWhile p = [] ∧ rest.dropWhile p = rest := by
    cases rest with
    | nil => exact ⟨rfl, rfl⟩
    | cons c rest => simp [hrest c (by simp)]
  rw [List.takeWhile_append_of_pos hcs, List.dropWhile_append_of_pos hcs, hstop.1, hstop.2]
  simp

theorem reads_single (h : singleType? c = some type)
    (hrest : ∀ d ∈ rest.head?, pairType? c d = none) : Reads ⟨type, String.ofList [c]⟩ rest := by
  have htype : type ≠ .string ∧ Text.isBlank c = false ∧ c ≠ '#' := by
    unfold singleType? at h
    split at h <;> first | (cases h; exact ⟨by decide, by decide, by decide⟩) | cases h
  refine ⟨c, [], text_of_ne htype.1 _, htype.2.1, htype.2.2, fun position => ⟨1, ?_⟩⟩
  have hpair : rest.head?.bind (pairType? c) = none := by
    cases rest with
    | nil => rfl
    | cons d rest => exact hrest d (by simp)
  rw [List.nil_append, readLexeme, hpair, h]
  rfl

theorem reads_pair {d : Char} (h : pairType? c d = some type) :
    Reads ⟨type, String.ofList [c, d]⟩ rest := by
  have htype : type ≠ .string ∧ Text.isBlank c = false ∧ c ≠ '#' := by
    unfold pairType? at h
    split at h <;> first | (cases h; exact ⟨by decide, by decide, by decide⟩) | cases h
  refine ⟨c, [d], text_of_ne htype.1 _, htype.2.1, htype.2.2, fun position => ⟨2, ?_⟩⟩
  have hpair : (d :: rest).head?.bind (pairType? c) = some type := h
  rw [List.singleton_append, readLexeme, hpair]
  rfl

theorem ne_hash_of (h : Text.isNameStart c = true ∨ Text.isDigit c = true) : c ≠ '#' ∧ c ≠ '"' := by
  constructor
  all_goals
    rintro rfl
    rcases h with h | h <;> exact absurd h (by decide)

theorem reads_word (hc : Text.isNameStart c = true) (hcs : ∀ d ∈ cs, Text.isNamePart d = true)
    (hrest : ∀ d ∈ rest.head?, Text.isNamePart d = false) :
    Reads ⟨wordType (String.ofList (c :: cs)), String.ofList (c :: cs)⟩ rest := by
  obtain ⟨hblank, hdigit⟩ := Text.isNameStart_cases hc
  obtain ⟨hhash, hquote⟩ := ne_hash_of (.inl hc)
  have hstring : wordType (String.ofList (c :: cs)) ≠ .string := by
    unfold wordType
    split_ifs <;> simp
  refine ⟨c, cs, text_of_ne hstring _, hblank, hhash, fun position => ⟨(c :: cs).length, ?_⟩⟩
  have hall : ∀ d ∈ c :: cs, Text.isNamePart d = true :=
    List.forall_mem_cons.mpr ⟨isNamePart_of_isNameStart hc, hcs⟩
  obtain ⟨htake, hdrop⟩ := takeWhile_dropWhile_append rest hall hrest
  have hpair : (cs ++ rest).head?.bind (pairType? c) = none :=
    Option.bind_eq_none_iff.mpr fun d _ => pairType?_eq_none (.inl hc) d
  rw [readLexeme, hpair, singleType?_eq_none (.inl hc)]
  simp only [beq_iff_eq, hquote, if_false, hdigit, hc, if_true, Bool.false_eq_true]
  rw [readWord, ← List.cons_append, htake, hdrop]

/-- Where a digit starts a lexeme, it is a number. -/
theorem readLexeme_digit (hc : Text.isDigit c = true) (position : Position) (cs : List Char) :
    readLexeme position c cs = .ok (readNumber (c :: cs)) := by
  obtain ⟨-, hquote⟩ := ne_hash_of (.inr hc)
  have hpair : cs.head?.bind (pairType? c) = none :=
    Option.bind_eq_none_iff.mpr fun d _ => pairType?_eq_none (.inr hc) d
  rw [readLexeme, hpair, singleType?_eq_none (.inr hc)]
  simp [hquote, hc]

theorem reads_number (h : ∀ d ∈ c :: cs, Text.isDigit d = true)
    (hrest : ∀ d ∈ rest.head?, Text.isDigit d = false ∧ d ≠ '.') :
    Reads ⟨.number, String.ofList (c :: cs)⟩ rest := by
  have hc := h c List.mem_cons_self
  refine ⟨c, cs, text_of_ne (by simp) _, Text.isBlank_of_isDigit hc, (ne_hash_of (.inr hc)).1,
    fun position => ⟨(c :: cs).length, ?_⟩⟩
  obtain ⟨htake, hdrop⟩ := takeWhile_dropWhile_append rest h fun d hd => (hrest d hd).1
  rw [readLexeme_digit hc, readNumber, ← List.cons_append, htake, hdrop]
  cases rest with
  | nil => rfl
  | cons d rest =>
    have hd := (hrest d (by simp)).2
    dsimp only
    split
    · rename_i heq
      cases heq
      exact absurd rfl hd
    · rfl

theorem reads_float {value : String} (h : IsFloatText value)
    (hrest : ∀ d ∈ rest.head?, Text.isDigit d = false) : Reads ⟨.float, value⟩ rest := by
  obtain ⟨whole, fraction, hvalue, hwhole, hfraction, hdigits⟩ := h
  obtain ⟨c, cs, rfl⟩ := List.exists_cons_of_ne_nil hwhole
  obtain ⟨d, ds, rfl⟩ := List.exists_cons_of_ne_nil hfraction
  have hc := hdigits c (by simp)
  obtain ⟨htake, hdrop⟩ := takeWhile_dropWhile_append ('.' :: (d :: ds ++ rest))
    (fun x hx => hdigits x (List.mem_append_left _ hx)) (by simp; decide)
  obtain ⟨htake', hdrop'⟩ := takeWhile_dropWhile_append rest
    (fun x hx => hdigits x (List.mem_append_right _ hx)) hrest
  refine ⟨c, cs ++ '.' :: d :: ds, hvalue, Text.isBlank_of_isDigit hc, (ne_hash_of (.inr hc)).1,
    fun position => ⟨(c :: cs).length + 1 + (d :: ds).length, ?_⟩⟩
  have hcs : c :: (cs ++ '.' :: d :: ds ++ rest) = c :: cs ++ '.' :: (d :: ds ++ rest) := by simp
  rw [readLexeme_digit hc, readNumber, hcs, htake, hdrop]
  simp only [htake', hdrop', ← hvalue, String.ofList_toList]

theorem escape_cases (c : Char) : (∃ e, escape c = ['\\', e] ∧ unescape? e = some c) ∨
    escape c = [c] ∧ c ≠ '\n' ∧ c ≠ '"' ∧ c ≠ '\\' := by
  unfold escape
  split
  · exact .inl ⟨'n', rfl, rfl⟩
  · exact .inl ⟨'"', rfl, rfl⟩
  · exact .inl ⟨'\\', rfl, rfl⟩
  · rename_i hline hquote hslash
    exact .inr ⟨rfl, hline, hquote, hslash⟩

theorem readString_escaped (rest : List Char) (position : Position) (cs : List Char) :
    ∃ width, readString position (cs.flatMap escape ++ '"' :: rest) = .ok (cs, width, rest) := by
  induction cs generalizing position with
  | nil => exact ⟨1, rfl⟩
  | cons c cs ih =>
    rw [List.flatMap_cons, List.append_assoc]
    rcases escape_cases c with ⟨e, he, hc⟩ | ⟨he, hline, hquote, hslash⟩
    · obtain ⟨width, hread⟩ := ih (position.advance 2)
      refine ⟨width + 2, ?_⟩
      rw [he, List.cons_append, List.singleton_append, readString]
      simp [hc, hread, bind, Except.bind]
    · obtain ⟨width, hread⟩ := ih (position.advance 1)
      refine ⟨width + 1, ?_⟩
      rw [he, List.singleton_append, readString]
      · simp [hline, hquote, hread, bind, Except.bind]
      · exact fun h => absurd h hslash
      · exact fun _ _ h => absurd h hslash

theorem reads_string (s : String) : Reads ⟨.string, s⟩ rest := by
  refine ⟨'"', s.toList.flatMap escape ++ ['"'], by simp [text], by decide, by decide,
    fun position => ?_⟩
  obtain ⟨width, hread⟩ := readString_escaped rest (position.advance 1) s.toList
  refine ⟨width + 1, ?_⟩
  have hpair (cs : List Char) : cs.head?.bind (pairType? '"') = none :=
    Option.bind_eq_none_iff.mpr fun d _ => rfl
  have hsingle : singleType? '"' = none := rfl
  rw [readLexeme, hpair, hsingle, List.append_assoc, List.singleton_append]
  simp [hread, bind, Except.bind]

theorem runsOn_single (h : singleType? c = some type) (d : Char) :
    runsOn ⟨type, String.ofList [c]⟩ d = (pairType? c d).isSome := by
  unfold singleType? at h
  split at h <;> first | (cases h; simp only [runsOn, String.toList_ofList]) | cases h

theorem runsOn_word (word : String) (d : Char) :
    runsOn ⟨wordType word, word⟩ d = Text.isNamePart d := by
  unfold wordType
  split_ifs <;> rfl

/-- A piece is read where the next character is no part of it. -/
theorem Valid.reads (h : p.Valid) (hrest : ∀ c ∈ rest.head?, p.runsOn c = false) :
    p.Reads rest := by
  cases h with
  | single h =>
    refine reads_single h fun d hd => ?_
    have hnot := hrest d hd
    rw [runsOn_single h] at hnot
    simpa using hnot
  | pair h => exact reads_pair h
  | word hc hcs =>
    exact reads_word hc hcs fun d hd => by simpa [runsOn_word] using hrest d hd
  | number h => exact reads_number h fun d hd => by simpa [runsOn] using hrest d hd
  | float h =>
    exact reads_float h fun d hd => (by simpa [runsOn] using hrest d hd : _ ∧ d ≠ '.').1
  | string s => exact reads_string s

theorem runsOn_blank (p : Piece) : p.runsOn ' ' = false := by
  have hpair (c : Char) : pairType? c ' ' = none := by
    unfold pairType?
    split <;> simp_all
  obtain ⟨type, value⟩ := p
  cases type <;> first
    | rfl
    | simp only [runsOn]
      split <;> simp [hpair]

theorem Valid.text_ne_nil (h : p.Valid) : p.text ≠ [] := by
  obtain ⟨c, cs, htext, -⟩ : p.Reads [] := h.reads (by simp)
  simp [htext]

theorem tokensFrom_cons {rest : List Char} (h : p.Reads rest) (position : Position)
    (hrest : ∀ position, ∃ ts, tokensFrom position rest = .ok ts ∧ ts.map Token.piece = pieces) :
    ∃ ts, tokensFrom position (p.text ++ rest) = .ok ts ∧ ts.map Token.piece = p :: pieces := by
  obtain ⟨c, cs, htext, hblank, hhash, hread⟩ := h
  obtain ⟨width, hread⟩ := hread position
  obtain ⟨ts, hts, hpieces⟩ := hrest (position.advance width)
  refine ⟨⟨p.type, p.value, position⟩ :: ts, ?_, by rw [List.map_cons, hpieces]; rfl⟩
  rw [htext, List.cons_append, tokensFrom]
  simp only [hblank, Bool.false_eq_true, if_false, beq_iff_eq, hhash]
  split
  · rename_i e he
    cases hread.symm.trans he
  · rename_i l hl
    cases hread.symm.trans hl
    rw [hts]
    rfl

/-- The scanner reads the pieces back. -/
theorem tokensFrom_spaced (h : ∀ p ∈ pieces, p.Valid) (position : Position) :
    ∃ ts, tokensFrom position (spaced pieces) = .ok ts ∧ ts.map Token.piece = pieces := by
  induction pieces generalizing position with
  | nil => exact ⟨[], by simp [spaced, tokensFrom], rfl⟩
  | cons p rest ih =>
    have hp := h p List.mem_cons_self
    have ih := ih fun q hq => h q (List.mem_cons_of_mem _ hq)
    cases rest with
    | nil =>
      rw [spaced, ← List.append_nil p.text]
      exact tokensFrom_cons (hp.reads (by simp)) position fun _ => ⟨[], by simp [tokensFrom], rfl⟩
    | cons q rest =>
      have hq := h q (by simp)
      rw [spaced]
      split
      · refine tokensFrom_cons (hp.reads ?_) position fun position => ?_
        · intro c hc
          cases hc
          exact runsOn_blank p
        · obtain ⟨ts, hts, hpieces⟩ := ih (position.after ' ')
          refine ⟨ts, ?_, hpieces⟩
          rw [List.singleton_append, tokensFrom, if_pos (by decide), hts]
      · rename_i hapart
        refine tokensFrom_cons (hp.reads fun c hc => ?_) position ih
        obtain ⟨d, ds, htext⟩ := List.exists_cons_of_ne_nil hq.text_ne_nil
        have hhead : (spaced (q :: rest)).head? = some d := by
          cases rest <;> simp [spaced, htext]
        rw [List.nil_append, hhead] at hc
        cases hc
        simpa [htext] using hapart

end Piece
end DualEngine
