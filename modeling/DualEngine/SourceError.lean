import DualEngine.Report
import DualEngine.Text.Quoted
import DualEngine.Token.Basic

/-! # Errors in source text -/
namespace DualEngine

/-- What makes a source unreadable. A missing token stands for the end of the source. -/
inductive SourceFault where
  | unexpectedCharacter (c : Char)
  | unterminatedString
  | unknownEscape (c : Char)
  | expected (wanted : TokenType) (found : Option Token)
  | unexpectedToken (found : Option Token)
  | duplicateParameter (parameter function : String)
  | integerDigits (literal : String)
  | integerLength (count : Nat)
  | floatDigits (literal : String)
deriving DecidableEq, Repr

/-- An integer literal has at most so many digits. -/
def maxDigits : Nat := 4300

namespace SourceFault

/-- A message about an unreadable integer shows at most so many characters of it. -/
def shownLength : Nat := 200

def message : SourceFault → String
  | .unexpectedCharacter c => "Unexpected character: " ++ Text.quoted (String.singleton c)
  | .unterminatedString => "Unterminated string literal"
  | .unknownEscape c => "Unknown string escape: \\" ++ String.singleton c
  | .expected wanted none => "Expected token type " ++ wanted.label ++ ", found EOF"
  | .expected wanted (some t) =>
    "Expected token type " ++ wanted.label ++ ", found " ++ t.type.label ++ " "
      ++ Text.quoted t.value
  | .unexpectedToken none => "Unexpected token in expression: end of input"
  | .unexpectedToken (some t) => "Unexpected token in expression: " ++ Text.quoted t.value
  | .duplicateParameter parameter function =>
    "Duplicate parameter '" ++ parameter ++ "' in " ++ function ++ "()"
  | .integerDigits literal =>
    "invalid literal for int() with base 10: "
      ++ String.ofList ((Text.quoted literal).toList.take shownLength)
  | .integerLength count =>
    "Exceeds the limit (" ++ toString maxDigits
      ++ " digits) for integer string conversion: value has " ++ toString count
      ++ " digits; use sys.set_int_max_str_digits() to increase the limit"
  | .floatDigits literal => "could not convert string to float: " ++ Text.quoted literal

/-- Numerals that cannot be read are a category of their own. -/
def category : SourceFault → Category
  | .integerDigits _ | .integerLength _ | .floatDigits _ => .invalidValue
  | _ => .parse

end SourceFault

structure SourceError where
  fault : SourceFault
  position : Option Position
deriving DecidableEq, Repr

def SourceError.report (e : SourceError) : Report :=
  { category := e.fault.category
    message := e.fault.message
    line := e.position.map fun p => p.line
    column := e.position.map fun p => p.column }

end DualEngine
