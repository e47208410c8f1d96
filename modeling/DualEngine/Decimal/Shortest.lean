import DualEngine.Decimal.Binary
import DualEngine.Decimal.Layout

/-! # The shortest decimal that reads back

The reals that round to a double form an interval. On the grid of the decimals with one, two, …
seventeen digits the two neighbours of the double are tested; the first grid that has one of them
inside the interval gives the text, the nearer one if both are inside.
-/
namespace DualEngine.Decimal

/-- The reals that round to `mantissa * 2 ^ exponent`, in units of `2 ^ (exponent - 2)`. -/
structure Interval where
  low : Nat
  high : Nat
  closed : Bool

def Interval.around (mantissa : Nat) (exponent : Int) : Interval :=
  let below := if mantissa = Nat.pow 2 52 ∧ -1074 < exponent then 1 else 2
  ⟨4 * mantissa - below, 4 * mantissa + 2, mantissa % 2 == 0⟩

/-- Whether `n * 10 ^ unit` lies in the interval. -/
def Interval.has (i : Interval) (exponent : Int) (n : Nat) (unit : Int) : Bool :=
  let point := (Fraction.mk n 1).shift (-unit)
  let side (bound : Nat) : Fraction := Fraction.ofBinary bound (exponent - 2)
  let low := (side i.low).num * point.den
  let high := (side i.high).num * point.den
  let middle := point.num * (side i.low).den
  if i.closed then low ≤ middle && middle ≤ high else low < middle && middle < high

/-- The multiple of `10 ^ unit` that stands for the number, if a neighbour reads back. -/
def onGrid? (mantissa : Nat) (exponent : Int) (unit : Int) : Option Nat :=
  let value := (Fraction.ofBinary mantissa exponent).shift unit
  let floor := value.num / value.den
  let remainder := value.num % value.den
  let inside := (Interval.around mantissa exponent).has exponent
  match inside floor unit, inside (floor + 1) unit with
  | true, false => some floor
  | false, true => some (floor + 1)
  | false, false => none
  | true, true =>
    if 2 * remainder < value.den then some floor
    else if value.den < 2 * remainder then some (floor + 1)
    else some (floor + floor % 2)

/-- The first grid with a hit, from `unit` down to finer ones. -/
def firstGrid (mantissa : Nat) (exponent : Int) : Nat → Int → Digits
  | 0, unit => Digits.ofNat 0 unit
  | grids + 1, unit =>
    match onGrid? mantissa exponent unit with
    | some n => Digits.ofNat n unit
    | none => firstGrid mantissa exponent grids (unit - 1)

def shortestDigits (mantissa : Nat) (exponent : Int) : Digits :=
  if mantissa = 0 then ⟨['0'], 0⟩
  else firstGrid mantissa exponent 18 (Fraction.ofBinary mantissa exponent).magnitude

/-- Exponents from -4 to 15 are positional, and an integer keeps its point. -/
def exactLayout : Layout := ⟨-4, 16, true⟩

/-- The fewest digits that read back as the same double. -/
def shortest (x : Float) : String :=
  match Binary.ofFloat x with
  | .nan => "nan"
  | .infinite negative => if negative then "-inf" else "inf"
  | .finite negative mantissa exponent =>
    let body := exactLayout.write (shortestDigits mantissa exponent)
    String.ofList (if negative then '-' :: body else body)

end DualEngine.Decimal
