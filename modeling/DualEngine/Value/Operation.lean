import DualEngine.Fault
import DualEngine.Value.Basic

/-! # Operators on values

Integer arithmetic wraps to 32 bits, a float operand makes it float arithmetic, and `+` with a
string joins texts. Numbers are compared as numbers, other scalars by their text.
-/
namespace DualEngine

def intArithmetic : ArithOp → Int → Int → Except Fault Value
  | .add, l, r => .ok (.int (wrapInt (l + r)))
  | .sub, l, r => .ok (.int (wrapInt (l - r)))
  | .mul, l, r => .ok (.int (wrapInt (l * r)))
  | .div, l, r => if r = 0 then .error .divideByZero else .ok (.int (divideInt l r))
  | .other symbol, _, _ => .error (.invalidOperator symbol)

def floatArithmetic : ArithOp → Float → Float → Except Fault Value
  | .add, l, r => .ok (.float (l + r))
  | .sub, l, r => .ok (.float (l - r))
  | .mul, l, r => .ok (.float (l * r))
  | .div, l, r => if r == 0.0 then .error .divideByZero else .ok (.float (l / r))
  | .other symbol, _, _ => .error (.invalidOperator symbol)

/-- The texts of two scalars joined; one of them is a string. -/
def joinTexts (left : Value) (op : ArithOp) (right : Value) : Except Fault Value :=
  if op ≠ .add then .error (.mismatch (.stringOperator op.symbol))
  else if !left.kind.isScalar then .error (.mismatch (.concatenation left.kind))
  else if !right.kind.isScalar then .error (.mismatch (.concatenation right.kind))
  else .ok (.string (left.text ++ right.text))

def Value.arithmetic (left : Value) (op : ArithOp) (right : Value) : Except Fault Value :=
  match left, right with
  | .int l, .int r => intArithmetic op l r
  | .int l, .float r => floatArithmetic op (Float.ofInt l) r
  | .float l, .int r => floatArithmetic op l (Float.ofInt r)
  | .float l, .float r => floatArithmetic op l r
  | _, _ =>
    if left.kind = .string ∨ right.kind = .string then joinTexts left op right
    else .error (.mismatch (.operands op.symbol left.kind right.kind))

def compareInts : CompareOp → Int → Int → Bool
  | .lt, l, r => l < r
  | .gt, l, r => r < l
  | .le, l, r => l ≤ r
  | .ge, l, r => r ≤ l
  | .eq, l, r => l == r
  | .ne, l, r => l != r
  | .other _, _, _ => false

/-- A comparison with a NaN is false, except that it differs from everything. -/
def compareFloats : CompareOp → Float → Float → Bool
  | .lt, l, r => l < r
  | .gt, l, r => r < l
  | .le, l, r => l ≤ r
  | .ge, l, r => r ≤ l
  | .eq, l, r => l == r
  | .ne, l, r => l != r
  | .other _, _, _ => false

def compareTexts (left : Value) (op : CompareOp) (right : Value) : Except Fault Bool :=
  if !left.kind.isScalar then .error (.mismatch (.comparedKind left.kind))
  else if !right.kind.isScalar then .error (.mismatch (.comparedKind right.kind))
  else
    match op with
    | .eq => .ok (left.text == right.text)
    | .ne => .ok (left.text != right.text)
    | _ => .error (.mismatch (.ordering op.symbol left.kind right.kind))

def Value.compare (left : Value) (op : CompareOp) (right : Value) : Except Fault Bool :=
  match left, right with
  | .int l, .int r => .ok (compareInts op l r)
  | .int l, .float r => .ok (compareFloats op (Float.ofInt l) r)
  | .float l, .int r => .ok (compareFloats op l (Float.ofInt r))
  | .float l, .float r => .ok (compareFloats op l r)
  | _, _ => compareTexts left op right

end DualEngine
