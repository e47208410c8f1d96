/-! # Sets of characters given by ranges of code points -/
namespace DualEngine.Text

/-- A set of code points as a list of closed ranges. -/
abbrev Ranges := List (Nat × Nat)

def Ranges.has (ranges : Ranges) (c : Char) : Bool :=
  ranges.any fun range => range.1 ≤ c.toNat && c.toNat ≤ range.2

end DualEngine.Text
