import DualEngine.Decimal.Binary
import DualEngine.Decimal.Layout

/-! # Six significant digits

The text of a float in messages, concatenations and output: six significant digits of the exact
binary value, a half rounded to the even neighbour, zeros at the end dropped.
-/
namespace DualEngine.Decimal

/-- The integer nearest to the fraction; a half goes to the even neighbour. -/
def Fraction.round (f : Fraction) : Nat :=
  let floor := f.num / f.den
  let remainder := f.num % f.den
  if 2 * remainder < f.den then floor
  else if f.den < 2 * remainder then floor + 1
  else floor + floor % 2

def significantDigits (count : Nat) (mantissa : Nat) (exponent : Int) : Digits :=
  if mantissa = 0 then ⟨['0'], 0⟩
  else
    let value := Fraction.ofBinary mantissa exponent
    let unit := value.magnitude + 1 - count
    Digits.ofNat (value.shift unit).round unit

/-- Exponents from -4 to 5 are positional, and an integer has no point. -/
def briefLayout : Layout := ⟨-4, 6, false⟩

def significant (x : Float) : String :=
  match Binary.ofFloat x with
  | .nan => "nan"
  | .infinite negative => if negative then "-inf" else "inf"
  | .finite negative mantissa exponent =>
    let body := briefLayout.write (significantDigits 6 mantissa exponent)
    String.ofList (if negative then '-' :: body else body)

end DualEngine.Decimal
