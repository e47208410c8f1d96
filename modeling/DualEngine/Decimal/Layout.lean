/-! # Laying out decimal digits

Digits with the exponent of the first of them are written positionally or with a power of ten. A
`Layout` says which exponents are positional and whether an integer keeps a point.
-/
namespace DualEngine.Decimal

structure Layout where
  /-- The least exponent that is written positionally. -/
  lowest : Int
  /-- The least exponent above it that is written as a power of ten. -/
  limit : Int
  /-- Whether a positional number without fraction ends in `.0`. -/
  keepsPoint : Bool

/-- Digits of a number, without zeros at the end, and the exponent of the first digit. -/
structure Digits where
  digits : List Char
  exponent : Int

/-- The number `n * 10 ^ lastExponent`. -/
def Digits.ofNat (n : Nat) (lastExponent : Int) : Digits :=
  let all := Nat.toDigits 10 n
  match (all.reverse.dropWhile (· == '0')).reverse with
  | [] => ⟨['0'], 0⟩
  | digits => ⟨digits, lastExponent + all.length - 1⟩

def Layout.positional (layout : Layout) (d : Digits) : List Char :=
  if d.exponent < 0 then
    '0' :: '.' :: List.replicate (-d.exponent - 1).toNat '0' ++ d.digits
  else
    let whole := d.exponent.toNat + 1
    let front := d.digits.take whole ++ List.replicate (whole - d.digits.length) '0'
    match d.digits.drop whole with
    | [] => if layout.keepsPoint then front ++ ['.', '0'] else front
    | fraction => front ++ '.' :: fraction

/-- An exponent has a sign and at least two digits. -/
def exponentText (e : Int) : List Char :=
  let digits := Nat.toDigits 10 e.natAbs
  (if e < 0 then '-' else '+') :: List.replicate (2 - digits.length) '0' ++ digits

def scientific (d : Digits) : List Char :=
  match d.digits with
  | [] => []
  | [first] => first :: 'e' :: exponentText d.exponent
  | first :: more => first :: '.' :: more ++ 'e' :: exponentText d.exponent

def Layout.write (layout : Layout) (d : Digits) : List Char :=
  if layout.lowest ≤ d.exponent ∧ d.exponent < layout.limit then layout.positional d
  else scientific d

end DualEngine.Decimal
