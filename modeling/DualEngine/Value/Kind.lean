/-! # Kinds of values and the operators between them

A kind is known before a value is: prediction and lowering work on kinds alone. `Kind.arithmetic?`
and `Kind.comparable` say which operands an operator takes.
-/
namespace DualEngine

inductive Kind where
  | int
  | float
  | string
  | bool
  | none
  | intArray
deriving DecidableEq, Repr, Inhabited

def Kind.text : Kind → String
  | .int => "int"
  | .float => "float"
  | .string => "string"
  | .bool => "bool"
  | .none => "none"
  | .intArray => "int[]"

/-- An arithmetic operator; a tree may also hold a symbol that is none. -/
inductive ArithOp where
  | add
  | sub
  | mul
  | div
  | other (symbol : String)
deriving DecidableEq, Repr, Inhabited

def ArithOp.symbol : ArithOp → String
  | .add => "+"
  | .sub => "-"
  | .mul => "*"
  | .div => "/"
  | .other symbol => symbol

def ArithOp.ofSymbol (symbol : String) : ArithOp :=
  if symbol = "+" then .add
  else if symbol = "-" then .sub
  else if symbol = "*" then .mul
  else if symbol = "/" then .div
  else .other symbol

/-- A comparison operator; a tree may also hold a symbol that is none. -/
inductive CompareOp where
  | lt
  | gt
  | le
  | ge
  | eq
  | ne
  | other (symbol : String)
deriving DecidableEq, Repr, Inhabited

def CompareOp.symbol : CompareOp → String
  | .lt => "<"
  | .gt => ">"
  | .le => "<="
  | .ge => ">="
  | .eq => "=="
  | .ne => "!="
  | .other symbol => symbol

def CompareOp.ofSymbol (symbol : String) : CompareOp :=
  if symbol = "<" then .lt
  else if symbol = ">" then .gt
  else if symbol = "<=" then .le
  else if symbol = ">=" then .ge
  else if symbol = "==" then .eq
  else if symbol = "!=" then .ne
  else .other symbol

def CompareOp.isEquality : CompareOp → Bool
  | .eq | .ne => true
  | _ => false

namespace Kind

def isNumeric : Kind → Bool
  | .int | .float => true
  | _ => false

/-- Strings and bools, which are compared by their text. -/
def isTextual : Kind → Bool
  | .string | .bool => true
  | _ => false

/-- Kinds with a text of their own inside a concatenation or a comparison. -/
def isScalar : Kind → Bool
  | .none | .intArray => false
  | _ => true

/-- The kind of arithmetic between two numbers. -/
def promote (left right : Kind) : Kind :=
  if left = .float ∨ right = .float then .float else .int

/-- The kind of `left op right`; `none` if the operator does not take these operands. -/
def arithmetic? (left : Kind) (op : ArithOp) (right : Kind) : Option Kind :=
  if left.isNumeric && right.isNumeric then some (promote left right)
  else if op = .add ∧ (left = .string ∨ right = .string) then
    if left.isScalar && right.isScalar then some .string else Option.none
  else Option.none

/-- Whether `left op right` has an answer: numbers in every order, scalars with a string or a
bool among them for equality only. -/
def comparable (left : Kind) (op : CompareOp) (right : Kind) : Bool :=
  if left.isNumeric && right.isNumeric then true
  else if op.isEquality && (left.isTextual || right.isTextual) then
    left.isScalar && right.isScalar
  else false

end Kind
end DualEngine
