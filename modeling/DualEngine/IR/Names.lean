import DualEngine.Context.Table

/-! # Name scopes

Within a scope every name is given once. A name that is taken gets a number after a dot, counted
for each wanted name on its own; the empty name counts as taken.
-/
namespace DualEngine.IR

structure Names where
  used : List String := [""]
  counters : Table Nat := {}

namespace Names

def numbered (wanted : String) (n : Nat) : String := wanted ++ "." ++ toString n

/-- The first number from `n` on that makes a name not yet used, after at most `limit` that are. -/
def firstFree (used : List String) (wanted : String) : Nat → Nat → Nat
  | 0, n => n
  | limit + 1, n =>
    if used.contains (numbered wanted n) then firstFree used wanted limit (n + 1) else n

/-- The name given for `wanted`, and the scope in which it is taken. -/
def register (names : Names) (wanted : String) : String × Names :=
  if names.used.contains wanted then
    let n := firstFree names.used wanted names.used.length
      ((names.counters.get? wanted).getD 0 + 1)
    let name := numbered wanted n
    (name, ⟨name :: names.used, names.counters.insert wanted n⟩)
  else (wanted, { names with used := wanted :: names.used })

/-- Names for several wanted ones, in order. -/
def registerAll (names : Names) : List String → List String × Names
  | [] => ([], names)
  | wanted :: rest =>
    let (name, names) := names.register wanted
    let (more, names) := names.registerAll rest
    (name :: more, names)

end Names
end DualEngine.IR
