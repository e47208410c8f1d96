/-! # Doubles as exact binary fractions

A finite double is `mantissa * 2 ^ exponent` with a sign. `Fraction` writes its magnitude as a
quotient of natural numbers, on which digits are computed without rounding.
-/
namespace DualEngine.Decimal

inductive Binary where
  | nan
  | infinite (negative : Bool)
  | finite (negative : Bool) (mantissa : Nat) (exponent : Int)
deriving DecidableEq

def Binary.ofFloat (x : Float) : Binary :=
  let bits : Nat := x.toBits.toNat
  let negative : Bool := Nat.pow 2 63 ≤ bits
  let field : Nat := bits / Nat.pow 2 52 % Nat.pow 2 11
  let fraction : Nat := bits % Nat.pow 2 52
  if field = 2047 then
    if fraction = 0 then .infinite negative else .nan
  else if field = 0 then .finite negative fraction (-1074)
  else .finite negative (Nat.pow 2 52 + fraction) (field - 1075)

/-- The magnitude `num / den`, with `den` positive. -/
structure Fraction where
  num : Nat
  den : Nat

/-- `mantissa * 2 ^ exponent` as a fraction. -/
def Fraction.ofBinary (mantissa : Nat) (exponent : Int) : Fraction :=
  if 0 ≤ exponent then ⟨mantissa * Nat.pow 2 exponent.toNat, 1⟩
  else ⟨mantissa, Nat.pow 2 (-exponent).toNat⟩

/-- The fraction divided by `10 ^ power`. -/
def Fraction.shift (f : Fraction) (power : Int) : Fraction :=
  if 0 ≤ power then ⟨f.num, f.den * Nat.pow 10 power.toNat⟩
  else ⟨f.num * Nat.pow 10 (-power).toNat, f.den⟩

/-- How many factors of ten, at most `limit`, lift `num` to at least `den`. -/
def stepsBelow (den : Nat) : Nat → Nat → Nat
  | 0, _ => 0
  | limit + 1, num => if den ≤ num then 0 else stepsBelow den limit (10 * num) + 1

/-- The exponent of the first decimal digit of a positive fraction. -/
def Fraction.magnitude (f : Fraction) : Int :=
  if f.den ≤ f.num then ((Nat.toDigits 10 (f.num / f.den)).length : Int) - 1
  else -(stepsBelow f.den 400 f.num : Int)

end DualEngine.Decimal
