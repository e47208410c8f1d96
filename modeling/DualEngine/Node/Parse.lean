import DualEngine.Node.Basic
import DualEngine.Token.Scan

/-! # From tokens to trees

A recursive descent in small parsers, each of which takes the parsers of the parts as arguments.
`expression` and `statement` close the recursion by a depth; a nested part starts at least one
token further on, so a depth of the number of tokens suffices, and a depth of zero is only met
where no token is left.
-/
namespace DualEngine.Parse

/-- Takes tokens from the front and gives what it read with the tokens that are left. -/
abbrev Parser (α : Type) := List Token → Except SourceError (α × List Token)

def startsWith (type : TokenType) : List Token → Bool
  | [] => false
  | t :: _ => t.type == type

def expect (type : TokenType) : Parser Token
  | [] => .error ⟨.expected type none, none⟩
  | t :: ts =>
    if t.type = type then .ok (t, ts) else .error ⟨.expected type (some t), t.position⟩

def endOfInput {α : Type} : Except SourceError α := .error ⟨.unexpectedToken none, none⟩

def integerLiteral (text : String) : Except SourceError Int :=
  let digits := text.toList.takeWhile fun c => (Text.decimalValue? c).isSome
  if maxDigits < digits.length then .error ⟨.integerLength digits.length, none⟩
  else
    match Text.decimal? text.toList with
    | some n => .ok n
    | none => .error ⟨.integerDigits text, none⟩

def floatLiteral (text : String) : Except SourceError Float :=
  let whole := text.toList.takeWhile (· != '.')
  let fraction := (text.toList.dropWhile (· != '.')).drop 1
  match Text.decimal? (whole ++ fraction) with
  | some n => .ok (Float.ofScientific n true fraction.length)
  | none => .error ⟨.floatDigits text, none⟩

/-- Items with commas between them, at most `more` after the first. -/
def commaSeparated {α : Type} (item : Parser α) : Nat → Parser (List α)
  | 0, ts => do
    let (first, ts) ← item ts
    .ok ([first], ts)
  | more + 1, ts => do
    let (first, ts) ← item ts
    if startsWith .comma ts then
      let (rest, ts) ← commaSeparated item more ts.tail
      .ok (first :: rest, ts)
    else .ok ([first], ts)

/-- Expressions with commas between them, up to the closing token. -/
def arguments (expression : Parser Node) (closing : TokenType) : Parser (List Node) := fun ts =>
  if startsWith closing ts then .ok ([], ts.tail)
  else do
    let (args, ts) ← commaSeparated expression ts.length ts
    let (_, ts) ← expect closing ts
    .ok (args, ts)

/-- An expression between parentheses. -/
def enclosed (expression : Parser Node) : Parser Node := fun ts => do
  let (_, ts) ← expect .leftParen ts
  let (e, ts) ← expression ts
  let (_, ts) ← expect .rightParen ts
  .ok (e, ts)

/-- What follows the word `random`: nothing between the parentheses, or two bounds. -/
def randomBounds (expression : Parser Node) : Parser Node := fun ts => do
  let (_, ts) ← expect .leftParen ts
  if startsWith .rightParen ts then .ok (.random .missing .missing, ts.tail)
  else
    let (low, ts) ← expression ts
    let (_, ts) ← expect .comma ts
    let (high, ts) ← expression ts
    let (_, ts) ← expect .rightParen ts
    .ok (.random low high, ts)

def primary (expression : Parser Node) : Parser Node
  | [] => endOfInput
  | t :: ts =>
    match t.type with
    | .number => do .ok (.number (← integerLiteral t.value), ts)
    | .float => do .ok (.float (← floatLiteral t.value), ts)
    | .string => .ok (.string t.value, ts)
    | .trueWord => .ok (.boolean true, ts)
    | .falseWord => .ok (.boolean false, ts)
    | .printWord => do
      let (e, ts) ← enclosed expression ts
      .ok (.print e, ts)
    | .randomWord => randomBounds expression ts
    | .identifier =>
      if startsWith .leftParen ts then do
        let (args, ts) ← arguments expression .rightParen ts.tail
        .ok (.call t.value args, ts)
      else .ok (.identifier t.value, ts)
    | .leftBracket => do
      let (elements, ts) ← arguments expression .rightBracket ts
      .ok (.array elements, ts)
    | .leftParen => enclosed expression (t :: ts)
    | _ => .error ⟨.unexpectedToken (some t), t.position⟩

/-- A name followed by `++` or `--`, or anything primary. -/
def stepped (expression : Parser Node) : Parser Node
  | t :: u :: ts =>
    if t.type = .identifier ∧ u.type = .plusPlus then .ok (.increment t.value, ts)
    else if t.type = .identifier ∧ u.type = .minusMinus then .ok (.decrement t.value, ts)
    else primary expression (t :: u :: ts)
  | ts => primary expression ts

/-- The negative of a tree: a literal is negated at once, anything else subtracted from zero. -/
def negate : Node → Node
  | .number n => .number (-n)
  | .float x => .float (-x)
  | node => .binary (.number 0) .sub node

def unary (expression : Parser Node) : Parser Node
  | [] => stepped expression []
  | t :: ts =>
    if t.type = .minus then do
      let (operand, ts) ← unary expression ts
      .ok (negate operand, ts)
    else stepped expression (t :: ts)

def additiveOp? : TokenType → Option ArithOp
  | .plus => some .add
  | .minus => some .sub
  | _ => none

def multiplicativeOp? : TokenType → Option ArithOp
  | .star => some .mul
  | .slash => some .div
  | _ => none

def comparisonOp? : TokenType → Option CompareOp
  | .less => some .lt
  | .greater => some .gt
  | .lessEqual => some .le
  | .greaterEqual => some .ge
  | .equal => some .eq
  | .notEqual => some .ne
  | _ => none

/-- Further operands joined to `left` from the left, at most `limit`. -/
def chain (operand : Parser Node) (op? : TokenType → Option ArithOp) :
    Nat → Node → Parser Node
  | 0, left, ts => .ok (left, ts)
  | _ + 1, left, [] => .ok (left, [])
  | limit + 1, left, t :: ts =>
    match op? t.type with
    | none => .ok (left, t :: ts)
    | some op => do
      let (right, ts) ← operand ts
      chain operand op? limit (.binary left op right) ts

def term (expression : Parser Node) : Parser Node := fun ts => do
  let (left, ts) ← unary expression ts
  chain (unary expression) multiplicativeOp? ts.length left ts

def additive (expression : Parser Node) : Parser Node := fun ts => do
  let (left, ts) ← term expression ts
  chain (term expression) additiveOp? ts.length left ts

/-- At most one comparison; comparisons do not chain. -/
def compared (expression : Parser Node) : Parser Node := fun ts => do
  let (left, ts) ← additive expression ts
  match ts with
  | [] => .ok (left, [])
  | t :: rest =>
    match comparisonOp? t.type with
    | none => .ok (left, t :: rest)
    | some op =>
      let (right, rest) ← additive expression rest
      .ok (.comparison left op right, rest)

def expression : Nat → Parser Node
  | 0 => fun _ => endOfInput
  | depth + 1 => compared (expression depth)

/-- An assignment or an expression. -/
def simple (expression : Parser Node) : Parser Node
  | t :: u :: ts =>
    if t.type = .identifier ∧ u.type = .assign then do
      let (e, ts) ← expression ts
      .ok (.assign t.value e, ts)
    else expression (t :: u :: ts)
  | ts => expression ts

/-- Statements up to the token `stop` or the end, with semicolons between them at will; at most
`limit`. -/
def statements (statement : Parser Node) (stop : Option TokenType) : Nat → Parser (List Node)
  | 0, ts => .ok ([], ts)
  | limit + 1, ts =>
    match ts.dropWhile (·.type == .semicolon) with
    | [] => .ok ([], [])
    | t :: ts =>
      if some t.type = stop then .ok ([], t :: ts)
      else do
        let (first, ts) ← statement (t :: ts)
        let (rest, ts) ← statements statement stop limit ts
        .ok (first :: rest, ts)

/-- Statements in braces, or one statement. -/
def block (statement : Parser Node) : Parser Node := fun ts =>
  if startsWith .leftBrace ts then do
    let (body, ts) ← statements statement (some .rightBrace) ts.tail.length ts.tail
    let (_, ts) ← expect .rightBrace ts
    .ok (.sequence body, ts)
  else statement ts

/-- What follows the word `if`. -/
def branch (expression statement : Parser Node) : Parser Node := fun ts => do
  let (condition, ts) ← enclosed expression ts
  let (thenPart, ts) ← block statement ts
  if startsWith .elseWord ts then
    let (elsePart, ts) ← block statement ts.tail
    .ok (.branch condition thenPart elsePart, ts)
  else .ok (.branch condition thenPart .missing, ts)

/-- A part that is left out where the token `stop` stands at once. -/
def optional (stop : TokenType) (part : Parser Node) : Parser Node := fun ts =>
  if startsWith stop ts then .ok (.missing, ts) else part ts

/-- What follows the word `for`. -/
def loop (expression statement : Parser Node) : Parser Node := fun ts => do
  let (_, ts) ← expect .leftParen ts
  let (start, ts) ← optional .semicolon (simple expression) ts
  let (_, ts) ← expect .semicolon ts
  let (condition, ts) ← optional .semicolon expression ts
  let (_, ts) ← expect .semicolon ts
  let (step, ts) ← optional .rightParen (simple expression) ts
  let (_, ts) ← expect .rightParen ts
  let (body, ts) ← block statement ts
  .ok (.loop start condition step body, ts)

/-- Parameter names with commas between them, none of them twice, at most `more` after the
first. -/
def parameters (function : String) : Nat → List String → Parser (List String)
  | more, seen, ts => do
    let (t, ts) ← expect .identifier ts
    if seen.contains t.value then
      .error ⟨.duplicateParameter t.value function, t.position⟩
    else
      match more with
      | 0 => .ok (seen ++ [t.value], ts)
      | more + 1 =>
        if startsWith .comma ts then parameters function more (seen ++ [t.value]) ts.tail
        else .ok (seen ++ [t.value], ts)

/-- What follows the word `def`. -/
def definition (statement : Parser Node) : Parser Node := fun ts => do
  let (name, ts) ← expect .identifier ts
  let (_, ts) ← expect .leftParen ts
  let (params, ts) ←
    if startsWith .rightParen ts then .ok ([], ts)
    else parameters name.value ts.length [] ts
  let (_, ts) ← expect .rightParen ts
  let (body, ts) ← block statement ts
  .ok (.define name.value params body, ts)

def statement : Nat → Parser Node
  | 0, _ => endOfInput
  | _ + 1, [] => endOfInput
  | depth + 1, t :: ts =>
    match t.type with
    | .ifWord => branch (expression depth) (statement depth) ts
    | .forWord => loop (expression depth) (statement depth) ts
    | .defWord => definition (statement depth) ts
    | _ => simple (expression (depth + 1)) (t :: ts)

/-- The tree of a token list. -/
def program (ts : List Token) : Except SourceError Node := do
  let (body, _) ← statements (statement ts.length) none ts.length ts
  .ok (.sequence body)

end DualEngine.Parse

namespace DualEngine

/-- The tree of one submission. -/
def parse (source : String) : Except SourceError Node := do
  Parse.program (← tokenize source)

end DualEngine
