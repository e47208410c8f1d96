import DualEngine.SourceError
import DualEngine.Text.Blank
import DualEngine.Text.Digit
import DualEngine.Text.Numeral

/-! # From characters to tokens

`tokenize` skips blanks and comments and reads one lexeme after the other: the longest operator,
a string literal, a number or a word.
-/
namespace DualEngine

/-- One token's worth of source: its type, its value, how many characters it takes and the rest. -/
structure Lexeme where
  type : TokenType
  value : String
  width : Nat
  rest : List Char

def pairType? : Char → Char → Option TokenType
  | '=', '=' => some .equal
  | '!', '=' => some .notEqual
  | '<', '=' => some .lessEqual
  | '>', '=' => some .greaterEqual
  | '+', '+' => some .plusPlus
  | '-', '-' => some .minusMinus
  | _, _ => none

def singleType? : Char → Option TokenType
  | '(' => some .leftParen
  | ')' => some .rightParen
  | '\x7b' => some .leftBrace
  | '\x7d' => some .rightBrace
  | '[' => some .leftBracket
  | ']' => some .rightBracket
  | ',' => some .comma
  | ';' => some .semicolon
  | '*' => some .star
  | '/' => some .slash
  | '=' => some .assign
  | '<' => some .less
  | '>' => some .greater
  | '+' => some .plus
  | '-' => some .minus
  | _ => none

def wordType (word : String) : TokenType :=
  if word = "if" then .ifWord
  else if word = "else" then .elseWord
  else if word = "for" then .forWord
  else if word = "def" then .defWord
  else if word = "print" then .printWord
  else if word = "random" then .randomWord
  else if word = "true" then .trueWord
  else if word = "false" then .falseWord
  else .identifier

/-- The character that an escape stands for. -/
def unescape? : Char → Option Char
  | 'n' => some '\n'
  | 't' => some '\t'
  | 'r' => some '\r'
  | '"' => some '"'
  | '\\' => some '\\'
  | _ => none

/-- A string literal after its opening quote: its characters, its width up to and including the
closing quote, and the rest. `p` is the place of the first character. -/
def readString (p : Position) : List Char → Except SourceError (List Char × Nat × List Char)
  | [] => .error ⟨.unterminatedString, p⟩
  | '\\' :: [] => .error ⟨.unterminatedString, p⟩
  | '\\' :: e :: rest =>
    match unescape? e with
    | none => .error ⟨.unknownEscape e, p⟩
    | some c => do
      let (cs, width, rest) ← readString (p.advance 2) rest
      .ok (c :: cs, width + 2, rest)
  | c :: rest =>
    if c == '"' then .ok ([], 1, rest)
    else if c == '\n' then .error ⟨.unterminatedString, p⟩
    else do
      let (cs, width, rest) ← readString (p.advance 1) rest
      .ok (c :: cs, width + 1, rest)

/-- Digits, and a fraction if a point and a digit follow. -/
def readNumber (cs : List Char) : Lexeme :=
  let whole := cs.takeWhile Text.isDigit
  let integer := ⟨.number, String.ofList whole, whole.length, cs.dropWhile Text.isDigit⟩
  match cs.dropWhile Text.isDigit with
  | '.' :: rest =>
    match rest.takeWhile Text.isDigit with
    | [] => integer
    | fraction =>
      ⟨.float, String.ofList (whole ++ '.' :: fraction), whole.length + 1 + fraction.length,
        rest.dropWhile Text.isDigit⟩
  | _ => integer

def readWord (cs : List Char) : Lexeme :=
  let word := cs.takeWhile Text.isNamePart
  ⟨wordType (String.ofList word), String.ofList word, word.length, cs.dropWhile Text.isNamePart⟩

/-- The lexeme that starts with `c` at `p`, where `cs` follows. -/
def readLexeme (p : Position) (c : Char) (cs : List Char) : Except SourceError Lexeme :=
  match cs.head?.bind (pairType? c) with
  | some type => .ok ⟨type, String.ofList (c :: cs.take 1), 2, cs.drop 1⟩
  | none =>
    match singleType? c with
    | some type => .ok ⟨type, String.singleton c, 1, cs⟩
    | none =>
      if c == '"' then do
        let (value, width, rest) ← readString (p.advance 1) cs
        .ok ⟨.string, String.ofList value, width + 1, rest⟩
      else if Text.isDigit c then .ok (readNumber (c :: cs))
      else if Text.isNameStart c then .ok (readWord (c :: cs))
      else .error ⟨.unexpectedCharacter c, p⟩

theorem readString_rest_length {p : Position} {cs value rest : List Char} {width : Nat}
    (h : readString p cs = .ok (value, width, rest)) : rest.length ≤ cs.length := by
  fun_induction readString p cs generalizing value width rest with
  | case1 => simp at h
  | case2 => simp at h
  | case3 => simp at h
  | case4 p e tail c hc ih =>
    cases hr : readString (p.advance 2) tail with
    | error e => simp [hr, bind, Except.bind] at h
    | ok r =>
      simp only [hr, bind, Except.bind, Except.ok.injEq, Prod.mk.injEq] at h
      have := ih hr
      simp only [← h.2.2, List.length_cons]
      omega
  | case5 => simp at h; simp [← h.2.2]
  | case6 => simp at h
  | case7 p c tail _ _ _ _ ih =>
    cases hr : readString (p.advance 1) tail with
    | error e => simp [hr, bind, Except.bind] at h
    | ok r =>
      simp only [hr, bind, Except.bind, Except.ok.injEq, Prod.mk.injEq] at h
      have := ih hr
      simp only [← h.2.2, List.length_cons]
      omega

theorem length_dropWhile_le (f : Char → Bool) (cs : List Char) :
    (cs.dropWhile f).length ≤ cs.length :=
  (List.dropWhile_sublist f).length_le

theorem readNumber_rest_length {c : Char} {cs : List Char} (h : Text.isDigit c) :
    (readNumber (c :: cs)).rest.length ≤ cs.length := by
  have hd : (c :: cs).dropWhile Text.isDigit = cs.dropWhile Text.isDigit := by
    simp [h]
  have hl := length_dropWhile_le Text.isDigit cs
  simp only [readNumber, hd]
  split
  · rename_i rest hrest
    have hr := length_dropWhile_le Text.isDigit rest
    rw [hrest, List.length_cons] at hl
    split
    · simp only [hrest, List.length_cons]; omega
    · dsimp only; omega
  · exact hl

theorem readWord_rest_length {c : Char} {cs : List Char} (h : Text.isNamePart c) :
    (readWord (c :: cs)).rest.length ≤ cs.length := by
  have hd : (c :: cs).dropWhile Text.isNamePart = cs.dropWhile Text.isNamePart := by
    simp [h]
  simp only [readWord, hd]
  exact length_dropWhile_le Text.isNamePart cs

theorem isNamePart_of_isNameStart {c : Char} (h : Text.isNameStart c) : Text.isNamePart c := by
  simp only [Text.isNameStart, Text.isNamePart, Bool.or_eq_true] at h ⊢
  rcases h with h | h
  · exact Or.inl (Or.inl h)
  · exact Or.inr h

/-- A lexeme takes at least its first character. -/
theorem readLexeme_rest_length {p : Position} {c : Char} {cs : List Char} {l : Lexeme}
    (h : readLexeme p c cs = .ok l) : l.rest.length ≤ cs.length := by
  unfold readLexeme at h
  split at h
  · cases h; simp
  · split at h
    · cases h; exact Nat.le_refl _
    · split at h
      · cases hs : readString (p.advance 1) cs with
        | error e => simp [hs, bind, Except.bind] at h
        | ok r =>
          simp only [hs, bind, Except.bind, Except.ok.injEq] at h
          rw [← h]
          exact readString_rest_length hs
      · split at h
        · rename_i hd
          cases h; exact readNumber_rest_length hd
        · split at h
          · rename_i hn
            cases h; exact readWord_rest_length (isNamePart_of_isNameStart hn)
          · cases h

/-- The tokens of the characters that start at `p`. -/
def tokensFrom (p : Position) (cs : List Char) : Except SourceError (List Token) :=
  match cs with
  | [] => .ok []
  | c :: cs =>
    if Text.isBlank c then tokensFrom (p.after c) cs
    else if c == '#' then
      tokensFrom (p.advance (1 + (cs.takeWhile (· != '\n')).length)) (cs.dropWhile (· != '\n'))
    else
      match _h : readLexeme p c cs with
      | .error e => .error e
      | .ok l => do
        let more ← tokensFrom (p.advance l.width) l.rest
        .ok (⟨l.type, l.value, p⟩ :: more)
termination_by cs.length
decreasing_by
  · simp
  · have := length_dropWhile_le (· != '\n') cs
    simp only [List.length_cons]
    omega
  · have := readLexeme_rest_length _h
    simp only [List.length_cons]
    omega

def tokenize (source : String) : Except SourceError (List Token) :=
  tokensFrom {} source.toList

end DualEngine
