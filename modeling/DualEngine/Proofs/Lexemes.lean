import DualEngine.Proofs.Spelling

/-! # How a source is cut into lexemes

Between the lexemes of a source stand gaps of blanks and comments. The scanner succeeds exactly where
the source can be cut in this way with the longest lexeme at every place, and then gives one token for
each lexeme: its type and value follow from the lexeme alone, its position from the text before it.
-/
namespace DualEngine

variable {before body digits lexeme source value : List Char} {stretches : List Stretch}
  {tokens : List Token} {p : Piece} {type : TokenType}

/-! ## Gaps, lexemes and places -/

/-- Blanks and comments before `rest`. A comment goes up to a line feed or the end of the source. -/
inductive Gap (rest : List Char) : List Char → Prop
  | nil : Gap rest []
  | blank {c : Char} {gap : List Char} (hc : Text.isBlank c = true) (hgap : Gap rest gap) :
    Gap rest (c :: gap)
  | comment {body gap : List Char} (hbody : '\n' ∉ body)
    (hend : ∀ c ∈ (gap ++ rest).head?, c = '\n') (hgap : Gap rest gap) :
    Gap rest ('#' :: (body ++ gap))

/-- The characters between the quotes of a literal, and the text for which they stand. -/
inductive Unescapes : List Char → List Char → Prop
  | nil : Unescapes [] []
  | plain {c : Char} {body value : List Char} (hquote : c ≠ '"') (hslash : c ≠ '\\')
    (hline : c ≠ '\n') (hrest : Unescapes body value) : Unescapes (c :: body) (c :: value)
  | escaped {e c : Char} {body value : List Char} (he : unescape? e = some c)
    (hrest : Unescapes body value) : Unescapes ('\\' :: e :: body) (c :: value)

/-- The characters `lexeme` make up the piece: they are its value, and for a string literal they are
quotes around characters that stand for the value. -/
structure Piece.WrittenAs (p : Piece) (lexeme : List Char) : Prop where
  valid : p.Valid
  plain : p.type ≠ .string → lexeme = p.value.toList
  quoted : p.type = .string →
    ∃ body, lexeme = '"' :: (body ++ ['"']) ∧ Unescapes body p.value.toList

/-- No longer lexeme starts where `lexeme` starts, if `after` follows it. -/
def Longest (lexeme after : List Char) : Prop :=
  ∀ (p : Piece) (other : List Char), p.WrittenAs other → other <+: lexeme ++ after →
    other.length ≤ lexeme.length

/-- The place after some text at the start of a source: line feeds count the lines, characters since
the last of them the columns. -/
def Position.following (before : List Char) : Position :=
  ⟨1 + before.count '\n', 1 + (before.reverse.takeWhile (· != '\n')).length⟩

/-- The rest of a source after `before`, cut into gaps and lexemes, one lexeme for each token. -/
inductive Cut : List Char → List Char → List Token → Prop
  | done {before gap : List Char} (hgap : Gap [] gap) : Cut before gap []
  | token {before gap lexeme after : List Char} {p : Piece} {tokens : List Token}
    (hgap : Gap (lexeme ++ after) gap) (hlexeme : p.WrittenAs lexeme)
    (hlongest : Longest lexeme after) (hafter : Cut (before ++ gap ++ lexeme) after tokens) :
    Cut before (gap ++ (lexeme ++ after))
      (⟨p.type, p.value, .following (before ++ gap)⟩ :: tokens)

theorem Unescapes.no_newline (h : Unescapes body value) : '\n' ∉ body := by
  induction h with
  | nil => simp
  | plain _ _ hline _ ih => simpa [Ne.symm hline] using ih
  | @escaped e _ _ _ he _ ih =>
    have hline : e ≠ '\n' := by
      rintro rfl
      cases he
    simpa [Ne.symm hline] using ih

/-- Characters without a line feed move the place along its line. -/
theorem Position.following_append {text : List Char} (h : '\n' ∉ text) (before : List Char) :
    Position.following (before ++ text) = (Position.following before).advance text.length := by
  have hall : ∀ c ∈ text.reverse, (c != '\n') = true := by
    intro c hc
    have hmem : c ∈ text := List.mem_reverse.mp hc
    simp only [bne_iff_ne, ne_eq]
    rintro rfl
    exact h hmem
  simp only [Position.following, Position.advance, List.reverse_append, List.count_append,
    List.count_eq_zero_of_not_mem h, Nat.add_zero, List.takeWhile_append_of_pos hall,
    List.length_append, List.length_reverse, Position.mk.injEq, true_and]
  omega

theorem Position.following_after (before : List Char) (c : Char) :
    (Position.following before).after c = Position.following (before ++ [c]) := by
  by_cases hc : c = '\n'
  · subst hc
    simp only [Position.after, beq_self_eq_true, if_true, Position.following, List.count_append,
      List.reverse_append, List.reverse_singleton, List.singleton_append, List.takeWhile_cons]
    simp [Nat.add_assoc]
  · rw [Position.following_append (by simpa using Ne.symm hc), Position.after]
    simp [hc]

/-! ## Reading one lexeme -/

theorem readString_takes {p : Position} {cs rest : List Char} {width : Nat}
    (h : readString p cs = .ok (value, width, rest)) :
    ∃ body, cs = body ++ '"' :: rest ∧ body.length + 1 = width ∧ Unescapes body value := by
  fun_induction readString p cs generalizing value width rest with
  | case1 => cases h
  | case2 => cases h
  | case3 => cases h
  | case4 p e tail c hc ih =>
    obtain ⟨⟨value', width', rest'⟩, hread, hr⟩ := bind_inv h
    cases hr
    obtain ⟨body, rfl, rfl, hbody⟩ := ih hread
    exact ⟨'\\' :: e :: body, rfl, rfl, .escaped hc hbody⟩
  | case5 p c tail _ _ hquote =>
    rw [beq_iff_eq] at hquote
    subst hquote
    cases h
    exact ⟨[], rfl, rfl, .nil⟩
  | case6 => cases h
  | case7 p c tail hend hescape hquote hline ih =>
    obtain ⟨⟨value', width', rest'⟩, hread, hr⟩ := bind_inv h
    cases hr
    obtain ⟨body, rfl, rfl, hbody⟩ := ih hread
    rw [beq_iff_eq] at hquote hline
    have hslash : c ≠ '\\' := by
      -- the quote that follows stands in the way of either form of a lone backslash
      intro hc
      cases body with
      | nil => exact hescape '"' rest hc rfl
      | cons d body => exact hescape d (body ++ '"' :: rest) hc rfl
    exact ⟨c :: body, rfl, rfl, .plain hquote hslash hline hbody⟩

/-- Every literal is read to its closing quote. -/
theorem readString_of_unescapes (h : Unescapes body value) (p : Position) (rest : List Char) :
    readString p (body ++ '"' :: rest) = .ok (value, body.length + 1, rest) := by
  induction h generalizing p with
  | nil => rfl
  | plain hquote hslash hline _ ih =>
    rw [List.cons_append, readString]
    · simp [hquote, hline, ih, bind, Except.bind]
    · exact fun hc _ => hslash hc
    · exact fun _ _ hc _ => hslash hc
  | escaped he _ ih =>
    rw [List.cons_append, List.cons_append, readString]
    simp [he, ih, bind, Except.bind]

/-- A number is all the digits there are, and a fraction exactly where a point and a digit follow. -/
theorem readNumber_cases (cs : List Char) :
    (readNumber cs = ⟨.number, String.ofList (cs.takeWhile Text.isDigit),
        (cs.takeWhile Text.isDigit).length, cs.dropWhile Text.isDigit⟩ ∧
      ∀ rest, cs.dropWhile Text.isDigit = '.' :: rest → rest.takeWhile Text.isDigit = []) ∨
    ∃ rest, cs.dropWhile Text.isDigit = '.' :: rest ∧ rest.takeWhile Text.isDigit ≠ [] ∧
      readNumber cs = ⟨.float,
        String.ofList (cs.takeWhile Text.isDigit ++ '.' :: rest.takeWhile Text.isDigit),
        (cs.takeWhile Text.isDigit).length + 1 + (rest.takeWhile Text.isDigit).length,
        rest.dropWhile Text.isDigit⟩ := by
  unfold readNumber
  dsimp only
  split
  · rename_i rest hrest
    split
    · rename_i hnone
      refine .inl ⟨by rw [hrest], fun other hother => ?_⟩
      rw [hrest, List.cons.injEq] at hother
      rw [← hother.2, hnone]
    · rename_i hsome
      exact .inr ⟨rest, hrest, hsome, rfl⟩
  · rename_i hno
    exact .inl ⟨rfl, fun rest hrest => absurd hrest (hno rest)⟩

/-- The characters that the scanner takes make up the piece it gives. -/
def Lexeme.Takes (l : Lexeme) (source : List Char) : Prop :=
  ∃ lexeme, source = lexeme ++ l.rest ∧ lexeme.length = l.width ∧
    Piece.WrittenAs ⟨l.type, l.value⟩ lexeme

theorem readNumber_takes {c : Char} (hc : Text.isDigit c = true) (cs : List Char) :
    (readNumber (c :: cs)).Takes (c :: cs) := by
  have hwhole : (c :: cs).takeWhile Text.isDigit = c :: cs.takeWhile Text.isDigit :=
    List.takeWhile_cons_of_pos hc
  have hdigits {ds : List Char} : ∀ d ∈ ds.takeWhile Text.isDigit, Text.isDigit d = true :=
    fun d hd => List.mem_takeWhile_imp hd
  rcases readNumber_cases (c :: cs) with ⟨hnumber, -⟩ | ⟨rest, hrest, hfraction, hfloat⟩
  · rw [hnumber]
    refine ⟨(c :: cs).takeWhile Text.isDigit, List.takeWhile_append_dropWhile.symm, rfl, ?_⟩
    rw [hwhole]
    refine ⟨.number ?_, fun _ => String.toList_ofList.symm, fun h => by cases h⟩
    rw [← hwhole]
    exact hdigits
  · rw [hfloat]
    refine ⟨(c :: cs).takeWhile Text.isDigit ++ '.' :: rest.takeWhile Text.isDigit, ?_, ?_,
      .float ⟨_, _, String.toList_ofList, by simp [hwhole], hfraction, fun d hd => ?_⟩,
      fun _ => String.toList_ofList.symm, fun h => by cases h⟩
    · conv_lhs => rw [← List.takeWhile_append_dropWhile (p := Text.isDigit) (l := c :: cs), hrest,
        ← List.takeWhile_append_dropWhile (p := Text.isDigit) (l := rest)]
      simp
    · simp only [List.length_append, List.length_cons]
      omega
    · rcases List.mem_append.mp hd with hd | hd
      · exact hdigits d hd
      · exact hdigits d hd

theorem wordType_ne_string (word : String) : wordType word ≠ .string := by
  unfold wordType
  split_ifs <;> simp

theorem readWord_takes {c : Char} (hc : Text.isNameStart c = true) (cs : List Char) :
    (readWord (c :: cs)).Takes (c :: cs) := by
  have hword : (c :: cs).takeWhile Text.isNamePart = c :: cs.takeWhile Text.isNamePart :=
    List.takeWhile_cons_of_pos (isNamePart_of_isNameStart hc)
  refine ⟨(c :: cs).takeWhile Text.isNamePart, List.takeWhile_append_dropWhile.symm, rfl, ?_, ?_, ?_⟩
  · rw [readWord, hword]
    exact .word hc fun d hd => List.mem_takeWhile_imp hd
  · exact fun _ => String.toList_ofList.symm
  · exact fun h => absurd h (wordType_ne_string _)

theorem pairType?_ne_string {c d : Char} (h : pairType? c d = some type) : type ≠ .string := by
  unfold pairType? at h
  split at h <;> first | (cases h; decide) | cases h

theorem singleType?_ne_string {c : Char} (h : singleType? c = some type) : type ≠ .string := by
  unfold singleType? at h
  split at h <;> first | (cases h; decide) | cases h

theorem readLexeme_takes {position : Position} {c : Char} {cs : List Char} {l : Lexeme}
    (h : readLexeme position c cs = .ok l) : l.Takes (c :: cs) := by
  unfold readLexeme at h
  split at h
  · rename_i type htype
    cases h
    obtain ⟨d, hd, hpair⟩ := Option.bind_eq_some_iff.mp htype
    obtain ⟨ds, rfl⟩ := List.head?_eq_some_iff.mp hd
    exact ⟨[c, d], rfl, rfl, .pair hpair, fun _ => String.toList_ofList.symm,
      fun h => absurd h (pairType?_ne_string hpair)⟩
  · split at h
    · rename_i type hsingle
      cases h
      exact ⟨[c], rfl, rfl, .single hsingle, fun _ => String.toList_ofList.symm,
        fun h => absurd h (singleType?_ne_string hsingle)⟩
    · split at h
      · rename_i hquote
        obtain ⟨⟨value, width, rest⟩, hread, hl⟩ := bind_inv h
        cases hl
        obtain ⟨body, rfl, rfl, hbody⟩ := readString_takes hread
        rw [beq_iff_eq] at hquote
        subst hquote
        exact ⟨'"' :: (body ++ ['"']), by simp, by simp, .string _, fun h => absurd rfl h,
          fun _ => ⟨body, rfl, by rwa [String.toList_ofList]⟩⟩
      · split at h
        · rename_i hdigit
          cases h
          exact readNumber_takes hdigit cs
        · split at h
          · rename_i hname
            cases h
            exact readWord_takes hname cs
          · cases h

/-- Where a lexeme starts, the scanner takes at least its characters, and gives its piece if it takes
no more. -/
def Finds (position : Position) (p : Piece) (lexeme : List Char) (c : Char) (cs : List Char) : Prop :=
  ∃ l, readLexeme position c cs = .ok l ∧ lexeme.length ≤ l.width ∧
    (lexeme.length = l.width → p = ⟨l.type, l.value⟩)

variable {position : Position} {c : Char} {cs : List Char}

theorem finds_single (h : singleType? c = some type) :
    Finds position ⟨type, String.ofList [c]⟩ [c] c cs := by
  cases hpair : cs.head?.bind (pairType? c) with
  | some other =>
    refine ⟨_, by rw [readLexeme, hpair], by simp, fun hwidth => ?_⟩
    simp at hwidth
  | none => exact ⟨_, by rw [readLexeme, hpair, h], le_rfl, fun _ => rfl⟩

theorem finds_pair {d : Char} (h : pairType? c d = some type) :
    Finds position ⟨type, String.ofList [c, d]⟩ [c, d] c (d :: cs) := by
  have hpair : (d :: cs).head?.bind (pairType? c) = some type := h
  exact ⟨_, by rw [readLexeme, hpair], le_rfl, fun _ => rfl⟩

theorem finds_word {word : List Char} (hc : Text.isNameStart c = true)
    (hword : ∀ d ∈ word, Text.isNamePart d = true) (rest : List Char) :
    Finds position ⟨wordType (String.ofList (c :: word)), String.ofList (c :: word)⟩ (c :: word) c
      (word ++ rest) := by
  have hall : ∀ d ∈ c :: word, Text.isNamePart d = true :=
    List.forall_mem_cons.mpr ⟨isNamePart_of_isNameStart hc, hword⟩
  have htake : (c :: (word ++ rest)).takeWhile Text.isNamePart =
      c :: word ++ rest.takeWhile Text.isNamePart := List.takeWhile_append_of_pos hall
  have hpair : (word ++ rest).head?.bind (pairType? c) = none :=
    Option.bind_eq_none_iff.mpr fun d _ => pairType?_eq_none (.inl hc) d
  refine ⟨readWord (c :: (word ++ rest)), ?_, ?_, fun hwidth => ?_⟩
  · rw [readLexeme, hpair, singleType?_eq_none (.inl hc)]
    simp [(Piece.ne_hash_of (.inl hc)).2, (Text.isNameStart_cases hc).2, hc]
  · simp only [readWord, htake, List.length_append]
    omega
  · simp only [readWord, htake, List.length_append] at hwidth ⊢
    have hnone : rest.takeWhile Text.isNamePart = [] := List.eq_nil_of_length_eq_zero (by omega)
    rw [hnone, List.append_nil]

theorem finds_number (h : ∀ d ∈ c :: digits, Text.isDigit d = true) (rest : List Char) :
    Finds position ⟨.number, String.ofList (c :: digits)⟩ (c :: digits) c (digits ++ rest) := by
  have htake : (c :: (digits ++ rest)).takeWhile Text.isDigit =
      c :: digits ++ rest.takeWhile Text.isDigit := List.takeWhile_append_of_pos h
  refine ⟨_, Piece.readLexeme_digit (h c List.mem_cons_self) _ _, ?_⟩
  rcases readNumber_cases (c :: (digits ++ rest)) with ⟨hnumber, -⟩ | ⟨tail, -, -, hfloat⟩
  · rw [hnumber, htake]
    refine ⟨by simp, fun hwidth => ?_⟩
    simp only [List.length_append] at hwidth
    have hnone : rest.takeWhile Text.isDigit = [] := List.eq_nil_of_length_eq_zero (by omega)
    rw [hnone, List.append_nil]
  · rw [hfloat, htake]
    simp only [List.length_append]
    exact ⟨by omega, fun hwidth => by omega⟩

theorem finds_float {fraction : List Char}
    (h : ∀ d ∈ c :: digits ++ fraction, Text.isDigit d = true) (hfraction : fraction ≠ [])
    (rest : List Char) :
    Finds position ⟨.float, String.ofList (c :: digits ++ '.' :: fraction)⟩
      (c :: digits ++ '.' :: fraction) c (digits ++ '.' :: (fraction ++ rest)) := by
  obtain ⟨htake, hdrop⟩ := Piece.takeWhile_dropWhile_append ('.' :: (fraction ++ rest))
    (fun d hd => h d (List.mem_append_left _ hd)) (by simp; decide)
  have hmore : (fraction ++ rest).takeWhile Text.isDigit =
      fraction ++ rest.takeWhile Text.isDigit :=
    List.takeWhile_append_of_pos fun d hd => h d (List.mem_append_right _ hd)
  rw [List.cons_append] at htake hdrop
  refine ⟨_, Piece.readLexeme_digit (h c (by simp)) _ _, ?_⟩
  rcases readNumber_cases (c :: (digits ++ '.' :: (fraction ++ rest))) with
    ⟨-, hnone⟩ | ⟨tail, htail, -, hfloat⟩
  · have hempty := hnone _ hdrop
    rw [hmore, List.append_eq_nil_iff] at hempty
    exact absurd hempty.1 hfraction
  · rw [hdrop, List.cons.injEq] at htail
    rw [hfloat, htake, ← htail.2, hmore]
    simp only [List.length_append, List.length_cons]
    refine ⟨by omega, fun hwidth => ?_⟩
    have hnone : rest.takeWhile Text.isDigit = [] := List.eq_nil_of_length_eq_zero (by omega)
    rw [hnone, List.append_nil]

theorem finds_string (h : Unescapes body value) (rest : List Char) :
    Finds position ⟨.string, String.ofList value⟩ ('"' :: (body ++ ['"'])) '"'
      (body ++ '"' :: rest) := by
  have hpair (cs : List Char) : cs.head?.bind (pairType? '"') = none :=
    Option.bind_eq_none_iff.mpr fun d _ => rfl
  have hsingle : singleType? '"' = none := rfl
  refine ⟨⟨.string, String.ofList value, body.length + 1 + 1, rest⟩, ?_, by simp, fun _ => rfl⟩
  rw [readLexeme, hpair, hsingle]
  simp [readString_of_unescapes h, bind, Except.bind]

theorem Piece.WrittenAs.finds (h : p.WrittenAs lexeme) (hfront : lexeme <+: c :: cs) :
    Finds position p lexeme c cs := by
  obtain ⟨valid, plain, quoted⟩ := h
  obtain ⟨rest, hrest⟩ := hfront
  cases valid with
  | single h =>
    have hlexeme := plain (singleType?_ne_string h)
    rw [String.toList_ofList] at hlexeme
    subst hlexeme
    cases hrest
    exact finds_single h
  | pair h =>
    have hlexeme := plain (pairType?_ne_string h)
    rw [String.toList_ofList] at hlexeme
    subst hlexeme
    cases hrest
    exact finds_pair h
  | word hc hword =>
    have hlexeme := plain (wordType_ne_string _)
    rw [String.toList_ofList] at hlexeme
    subst hlexeme
    cases hrest
    exact finds_word hc hword rest
  | number h =>
    have hlexeme := plain (by simp)
    rw [String.toList_ofList] at hlexeme
    subst hlexeme
    cases hrest
    exact finds_number h rest
  | @float text h =>
    have hlexeme := plain (by simp)
    obtain ⟨whole, fraction, htext, hwhole, hfraction, hdigits⟩ := h
    obtain ⟨d, digits, rfl⟩ := List.exists_cons_of_ne_nil hwhole
    have hvalue : text = String.ofList (d :: digits ++ '.' :: fraction) := by
      rw [← htext, String.ofList_toList]
    subst hvalue
    rw [String.toList_ofList] at hlexeme
    subst hlexeme
    have hcs : c = d ∧ cs = digits ++ '.' :: (fraction ++ rest) := by
      simpa [eq_comm] using hrest
    obtain ⟨rfl, rfl⟩ := hcs
    exact finds_float hdigits hfraction rest
  | string s =>
    obtain ⟨body, rfl, hbody⟩ := quoted rfl
    have hcs : c = '"' ∧ cs = body ++ '"' :: rest := by simpa [eq_comm] using hrest
    obtain ⟨rfl, rfl⟩ := hcs
    rw [← String.ofList_toList (s := s)]
    exact finds_string hbody rest

/-- A lexeme starts with a character that no gap starts with. -/
theorem Piece.WrittenAs.head (h : p.WrittenAs lexeme) :
    ∃ c cs, lexeme = c :: cs ∧ Text.isBlank c = false ∧ c ≠ '#' := by
  obtain ⟨valid, plain, quoted⟩ := h
  by_cases htype : p.type = .string
  · obtain ⟨body, rfl, -⟩ := quoted htype
    exact ⟨'"', body ++ ['"'], rfl, by decide, by decide⟩
  · obtain ⟨c, cs, htext, hblank, hhash, -⟩ : p.Reads [] := valid.reads (by simp)
    rw [Piece.text, if_neg htype] at htext
    exact ⟨c, cs, by rw [plain htype, htext], hblank, hhash⟩

theorem newline_not_mem {f : Char → Bool} {cs : List Char} (h : ∀ c ∈ cs, f c = true)
    (hf : f '\n' = false) : '\n' ∉ cs := by
  intro hmem
  rw [h _ hmem] at hf
  cases hf

theorem Piece.WrittenAs.no_newline (h : p.WrittenAs lexeme) : '\n' ∉ lexeme := by
  obtain ⟨valid, plain, quoted⟩ := h
  by_cases htype : p.type = .string
  · obtain ⟨body, rfl, hbody⟩ := quoted htype
    simpa using hbody.no_newline
  rw [plain htype]
  cases valid with
  | @single c type h =>
    rw [String.toList_ofList]
    unfold singleType? at h
    split at h <;> first | decide | cases h
  | @pair c d type h =>
    rw [String.toList_ofList]
    unfold pairType? at h
    split at h <;> first | decide | cases h
  | word hc hword =>
    rw [String.toList_ofList]
    exact newline_not_mem
      (List.forall_mem_cons.mpr ⟨isNamePart_of_isNameStart hc, hword⟩) (by decide)
  | number h =>
    rw [String.toList_ofList]
    exact newline_not_mem h (by decide)
  | float h =>
    obtain ⟨whole, fraction, htext, -, -, hdigits⟩ := h
    have hline := newline_not_mem hdigits (by decide)
    rw [List.mem_append, not_or] at hline
    simp [htext, hline]
  | string => exact absurd rfl htype

/-! ## Reading a whole source -/

/-- The scanner passes over a gap. -/
theorem tokensFrom_gap {rest gap : List Char} (h : Gap rest gap) (before : List Char) :
    tokensFrom (.following before) (gap ++ rest) = tokensFrom (.following (before ++ gap)) rest := by
  induction h generalizing before with
  | nil => simp
  | @blank c gap hc hgap ih =>
    rw [List.cons_append, tokensFrom, if_pos hc, Position.following_after, ih]
    simp
  | @comment body gap hbody hend hgap ih =>
    have htext : '\n' ∉ '#' :: body := by simpa using hbody
    have hall : ∀ c ∈ body, (c != '\n') = true := by
      intro c hc
      rw [bne_iff_ne]
      rintro rfl
      exact hbody hc
    obtain ⟨htake, hdrop⟩ := Piece.takeWhile_dropWhile_append (gap ++ rest) hall
      fun c hc => by rw [hend c hc]; rfl
    rw [List.cons_append, List.append_assoc, tokensFrom, if_neg (by decide), if_pos (by rfl), htake,
      hdrop, Nat.add_comm 1, ← List.length_cons (a := '#'), ← Position.following_append htext, ih]
    simp

/-- The scanner gives the token of the longest lexeme and goes on after it. -/
theorem tokensFrom_lexeme {after : List Char} (h : p.WrittenAs lexeme)
    (hlongest : Longest lexeme after) (position : Position) :
    tokensFrom position (lexeme ++ after) =
      (tokensFrom (position.advance lexeme.length) after >>= fun more =>
        .ok (⟨p.type, p.value, position⟩ :: more)) := by
  obtain ⟨c, cs, rfl, hblank, hhash⟩ := h.head
  have hfinds : Finds position p (c :: cs) c (cs ++ after) := h.finds (List.prefix_append _ _)
  obtain ⟨l, hread, hwidth, hpiece⟩ := hfinds
  obtain ⟨taken, hsource, htaken, hwritten⟩ := readLexeme_takes hread
  -- the scanner takes neither less nor more than the longest lexeme
  have hle := hlongest _ taken hwritten ⟨l.rest, by rw [List.cons_append, hsource]⟩
  have hlength : (c :: cs).length = l.width := by omega
  have hrest : c :: cs = taken ∧ after = l.rest :=
    List.append_inj hsource (by rw [htaken, hlength])
  rw [List.cons_append, tokensFrom, if_neg (by simp [hblank]), if_neg (by simpa using hhash)]
  split
  · rename_i e he
    cases hread.symm.trans he
  · rename_i l' hl
    cases hread.symm.trans hl
    rw [hpiece hlength, hlength, hrest.2]

theorem tokensFrom_of_cut (h : Cut before source tokens) :
    tokensFrom (.following before) source = .ok tokens := by
  induction h with
  | @done before gap hgap =>
    have hskip := tokensFrom_gap hgap before
    rw [List.append_nil] at hskip
    rw [hskip, tokensFrom]
  | token hgap hlexeme hlongest _ ih =>
    rw [tokensFrom_gap hgap, tokensFrom_lexeme hlexeme hlongest,
      ← Position.following_append hlexeme.no_newline, ih]
    rfl

/-- A piece of a gap at the front of a source makes the first gap longer. -/
theorem Cut.widen (text : List Char)
    (hgap : ∀ gap rest, source = gap ++ rest → Gap rest gap → Gap rest (text ++ gap))
    (h : Cut (before ++ text) source tokens) : Cut before (text ++ source) tokens := by
  generalize hbefore : before ++ text = start at h
  cases h with
  | done h => exact .done (hgap source [] (by simp) h)
  | @token _ gap lexeme after p _ hgap' hlexeme hlongest hafter =>
    subst hbefore
    rw [← List.append_assoc, List.append_assoc before]
    refine .token (hgap gap _ rfl hgap') hlexeme hlongest ?_
    simpa using hafter

theorem cut_of_tokensFrom (h : tokensFrom (.following before) source = .ok tokens) :
    Cut before source tokens := by
  generalize hposition : Position.following before = position at h
  fun_induction tokensFrom position source generalizing before tokens with
  | case1 =>
    cases h
    exact .done .nil
  | case2 position c cs hblank ih =>
    have hmove : Position.following (before ++ [c]) = position.after c := by
      rw [← hposition, Position.following_after]
    exact (ih hmove h).widen [c] fun gap rest _ hgap => .blank hblank hgap
  | case3 position c cs hblank hhash ih =>
    rw [beq_iff_eq] at hhash
    subst hhash
    have hbody : '\n' ∉ cs.takeWhile (· != '\n') := by
      intro hmem
      have hne := List.mem_takeWhile_imp hmem
      simp at hne
    have hmove : Position.following (before ++ '#' :: cs.takeWhile (· != '\n')) =
        position.advance (1 + (cs.takeWhile (· != '\n')).length) := by
      rw [Position.following_append (by simpa using hbody), hposition, List.length_cons,
        Nat.add_comm]
    have hcut := (ih hmove h).widen ('#' :: cs.takeWhile (· != '\n')) fun gap rest hsource hgap =>
      .comment hbody (fun c hc => ?_) hgap
    · rwa [List.cons_append, List.takeWhile_append_dropWhile] at hcut
    · rw [← hsource, Option.mem_def] at hc
      have hstop := List.head?_dropWhile_not (· != '\n') cs
      rw [hc] at hstop
      simpa using hstop
  | case4 => cases h
  | case5 position c cs hblank hhash l hread ih =>
    obtain ⟨more, hmore, htokens⟩ := bind_inv h
    cases htokens
    obtain ⟨lexeme, hsource, hlength, hwritten⟩ := readLexeme_takes hread
    have hlongest : Longest lexeme l.rest := by
      intro p other hother hfront
      rw [← hsource] at hfront
      have hfinds : Finds position p other c cs := hother.finds hfront
      obtain ⟨l', hread', hwidth, -⟩ := hfinds
      cases hread.symm.trans hread'
      omega
    have hmove : Position.following (before ++ lexeme) = position.advance l.width := by
      rw [Position.following_append hwritten.no_newline, hposition, hlength]
    have hafter := ih hmove hmore
    rw [hsource, ← hposition]
    have hcut : Cut before ([] ++ (lexeme ++ l.rest)) _ :=
      .token .nil hwritten hlongest (by rwa [List.append_nil])
    rwa [List.append_nil] at hcut

/-! ## The parts of a source -/

/-- A gap and the lexeme after it. -/
structure Stretch where
  gap : List Char
  lexeme : List Char

def Stretch.text (s : Stretch) : List Char := s.gap ++ s.lexeme

/-- The token stands for the lexeme of a stretch between `before` and `after`. -/
structure Token.StandsFor (t : Token) (before : List Char) (s : Stretch) (after : List Char) :
    Prop where
  gap : Gap (s.lexeme ++ after) s.gap
  position : t.position = .following (before ++ s.gap)
  written : t.piece.WrittenAs s.lexeme
  oneLine : '\n' ∉ s.lexeme
  longest : Longest s.lexeme after

/-- The tokens stand in order for the lexemes of the stretches, which `before` precedes and a last
gap follows. -/
structure Divides (before : List Char) (stretches : List Stretch) (last : List Char)
    (tokens : List Token) : Prop where
  ending : Gap [] last
  length_eq : stretches.length = tokens.length
  stand : ∀ (i : Nat) (hs : i < stretches.length) (ht : i < tokens.length),
    tokens[i].StandsFor (before ++ (stretches.take i).flatMap Stretch.text) stretches[i]
      ((stretches.drop (i + 1)).flatMap Stretch.text ++ last)

theorem divides_cons_iff {last : List Char} {s : Stretch} {t : Token} :
    Divides before (s :: stretches) last (t :: tokens) ↔
      t.StandsFor before s (stretches.flatMap Stretch.text ++ last) ∧
        Divides (before ++ s.text) stretches last tokens := by
  have htake (i : Nat) : before ++ ((s :: stretches).take (i + 1)).flatMap Stretch.text =
      before ++ s.text ++ (stretches.take i).flatMap Stretch.text := by
    rw [List.take_succ_cons, List.flatMap_cons, List.append_assoc]
  constructor
  · intro h
    refine ⟨?_, h.ending, Nat.succ.inj h.length_eq, fun i hs ht => ?_⟩
    · have hfirst := h.stand 0 (Nat.succ_pos _) (Nat.succ_pos _)
      rwa [List.take_zero, List.flatMap_nil, List.append_nil] at hfirst
    · have hnext := h.stand (i + 1) (Nat.succ_lt_succ hs) (Nat.succ_lt_succ ht)
      rwa [htake] at hnext
  · rintro ⟨hfirst, hrest⟩
    refine ⟨hrest.ending, congrArg Nat.succ hrest.length_eq, fun i hs ht => ?_⟩
    cases i with
    | zero => rwa [List.take_zero, List.flatMap_nil, List.append_nil]
    | succ i =>
      rw [htake]
      exact hrest.stand i (Nat.lt_of_succ_lt_succ hs) (Nat.lt_of_succ_lt_succ ht)

theorem Cut.divides (h : Cut before source tokens) :
    ∃ stretches last, source = stretches.flatMap Stretch.text ++ last ∧
      Divides before stretches last tokens := by
  induction h with
  | @done before gap hgap => exact ⟨[], gap, rfl, hgap, rfl, fun i hs => absurd hs (by simp)⟩
  | @token before gap lexeme after p tokens hgap hlexeme hlongest _ ih =>
    obtain ⟨stretches, last, rfl, hdivides⟩ := ih
    refine ⟨⟨gap, lexeme⟩ :: stretches, last, by simp [Stretch.text], divides_cons_iff.mpr ⟨?_, ?_⟩⟩
    · exact ⟨hgap, rfl, hlexeme, hlexeme.no_newline, hlongest⟩
    · simpa [Stretch.text] using hdivides

theorem Divides.cut {last : List Char} (h : Divides before stretches last tokens) :
    Cut before (stretches.flatMap Stretch.text ++ last) tokens := by
  induction stretches generalizing before tokens with
  | nil =>
    have hnil : tokens = [] := List.eq_nil_of_length_eq_zero h.length_eq.symm
    subst hnil
    exact .done h.ending
  | cons s stretches ih =>
    cases tokens with
    | nil => cases h.length_eq
    | cons t tokens =>
      obtain ⟨hfirst, hrest⟩ := divides_cons_iff.mp h
      obtain ⟨type, value, position⟩ := t
      obtain ⟨hgap, rfl, hwritten, -, hlongest⟩ := hfirst
      rw [List.flatMap_cons, Stretch.text, List.append_assoc, List.append_assoc]
      refine .token hgap hwritten hlongest (ih ?_)
      simpa [Stretch.text] using hrest

/-- A source has these tokens exactly if it consists of gaps and, between them, the longest lexemes
for which the tokens stand. -/
theorem tokenize_eq_ok_iff_divides (source : String) (tokens : List Token) :
    tokenize source = .ok tokens ↔ ∃ stretches last,
      source.toList = stretches.flatMap Stretch.text ++ last ∧
        Divides [] stretches last tokens := by
  have hstart : ({} : Position) = .following [] := rfl
  rw [tokenize, hstart]
  constructor
  · exact fun h => (cut_of_tokensFrom h).divides
  · rintro ⟨stretches, last, hsource, hdivides⟩
    rw [hsource]
    exact tokensFrom_of_cut hdivides.cut

end DualEngine
