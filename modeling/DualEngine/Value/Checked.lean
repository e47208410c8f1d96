import DualEngine.Value.Basic

/-! # Checked operations

The engines only meet integers of 32 bits and check the kinds of their operands first. The
operations here take values of any kind and integers of any size, and refuse what has no answer.
A bool counts as the integer 0 or 1.
-/
namespace DualEngine

/-- Why an operation has no answer. -/
inductive Refusal where
  | kind
  | range
  | division
deriving DecidableEq, Repr

/-- Integers from here on lie beyond the floats: halfway between the greatest one and the power of
two after it. -/
def floatLimit : Nat := Nat.pow 2 1024 - Nat.pow 2 970

/-- The float nearest to an integer. -/
def nearestFloat (n : Int) : Except Refusal Float :=
  if n.natAbs < floatLimit then .ok (Float.ofInt n) else .error .range

namespace Value

def integer? : Value → Option Int
  | .int n => some n
  | .bool b => some (if b then 1 else 0)
  | _ => .none

def isNumber : Value → Bool
  | .int _ | .bool _ | .float _ => true
  | _ => false

/-- A number as a float. -/
def toFloat (v : Value) : Except Refusal Float :=
  match v, v.integer? with
  | .float x, _ => .ok x
  | _, some n => nearestFloat n
  | _, .none => .error .kind

def wrapChecked (v : Value) : Except Refusal Int :=
  match v.integer? with
  | some n => .ok (wrapInt n)
  | .none => .error .kind

/-- The quotient of two integers. Floats are refused, but only after the division is. -/
def divideChecked (left right : Value) : Except Refusal Int :=
  match left.integer?, right.integer? with
  | some l, some r => if r = 0 then .error .division else .ok (divideInt l r)
  | _, _ =>
    if left.isNumber && right.isNumber then do
      let _ ← left.toFloat
      let r ← right.toFloat
      if r == 0.0 then .error .division else .error .kind
    else .error .kind

/-- The text of a number taken as a float. -/
def floatText (v : Value) : Except Refusal String := v.toFloat.map Decimal.significant

def truncateChecked (v : Value) : Except Refusal Int :=
  match v, v.integer? with
  | .float x, _ => .ok (truncateFloat x)
  | _, some n => do
    let _ ← nearestFloat n
    .ok (if intMin ≤ n ∧ n ≤ intMax then n else intMin)
  | _, .none => .error .kind

/-- `coerce`, unless an integer lies beyond the floats. -/
def coerceChecked (v : Value) (target : Kind) : Except Refusal Value :=
  match v, target with
  | .int n, .float => (nearestFloat n).map .float
  | v, target => .ok (v.coerce target)

theorem coerceChecked_eq_ok {v : Value} {target : Kind}
    (h : ∀ n, v = .int n → n.natAbs < floatLimit) :
    v.coerceChecked target = .ok (v.coerce target) := by
  unfold coerceChecked
  split
  · rename_i n
    have hn := h n rfl
    simp only [nearestFloat, hn, if_true]
    rfl
  · rfl

end Value
end DualEngine
