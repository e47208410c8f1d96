import DualEngine.Decimal.Significant
import DualEngine.Value.Kind

/-! # Values

Integers are kept unbounded here and wrapped to 32 bits by the operations of the two engines.
`Value.text` is the one text form used by output, concatenation and equality, and `Value.coerce`
the conversion at the end of a function call.
-/
namespace DualEngine

inductive Value where
  | int (n : Int)
  | float (x : Float)
  | string (s : String)
  | bool (b : Bool)
  | none
  | intArray (elements : List Int)
deriving Inhabited

def intMin : Int := -0x80000000
def intMax : Int := 0x7fffffff

/-- The integer of 32 bits that agrees with `n` modulo `2 ^ 32`. -/
def wrapInt (n : Int) : Int := n.bmod 0x100000000

/-- The quotient rounded toward zero, wrapped to 32 bits. -/
def divideInt (left right : Int) : Int := wrapInt (left.tdiv right)

/-- Truncates toward zero; what has no 32-bit result becomes the least integer. -/
def truncateFloat (x : Float) : Int :=
  if x.isNaN then intMin
  else
    let n := x.toInt64.toInt
    if intMin ≤ n ∧ n ≤ intMax then n else intMin

def boolText (b : Bool) : String := if b then "true" else "false"

namespace Value

def kind : Value → Kind
  | .int _ => .int
  | .float _ => .float
  | .string _ => .string
  | .bool _ => .bool
  | .none => .none
  | .intArray _ => .intArray

def text : Value → String
  | .int n => toString n
  | .float x => Decimal.significant x
  | .string s => s
  | .bool b => boolText b
  | .none => "none"
  | .intArray elements => "[" ++ ", ".intercalate (elements.map toString) ++ "]"

/-- The value that storage of a kind starts with. -/
def zero : Kind → Value
  | .int => .int 0
  | .float => .float 0.0
  | .bool => .bool false
  | .string => .string ""
  | .intArray => .intArray []
  | .none => .none

/-- The value as a declared kind; the zero of that kind where no conversion makes sense. -/
def coerce (value : Value) (target : Kind) : Value :=
  if value.kind = target then value
  else match target, value with
    | .none, _ => .none
    | .string, .none => zero .string
    | .string, .intArray _ => zero .string
    | .string, v => .string v.text
    | .float, .int n => .float (Float.ofInt n)
    | .float, .bool b => .float (if b then 1.0 else 0.0)
    | .int, .float x => .int (truncateFloat x)
    | .int, .bool b => .int (if b then 1 else 0)
    | .bool, .int n => .bool (n != 0)
    | .bool, .float x => .bool (x != 0.0)
    | kind, _ => zero kind

end Value
end DualEngine
