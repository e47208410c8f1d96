import DualEngine.Proofs.Evaluation
import DualEngine.Proofs.Tables

/-! # Integers stay within 32 bits

Integers are unbounded as values, and every operation that makes one brings it back to 32 bits.
Evaluation therefore never computes, binds or returns a wider one, whatever the literals are and
wherever it stops.
-/
namespace DualEngine

/-- The integer has 32 bits. -/
def Fits32 (n : Int) : Prop := intMin ≤ n ∧ n ≤ intMax

instance (n : Int) : Decidable (Fits32 n) := inferInstanceAs (Decidable (_ ∧ _))

theorem fits32_wrapInt (n : Int) : Fits32 (wrapInt n) := by
  have hle : -(0x100000000 : Nat) / 2 ≤ wrapInt n := Int.le_bmod (by decide)
  have hlt : wrapInt n < ((0x100000000 : Nat) + 1) / 2 := Int.bmod_lt (by decide)
  unfold Fits32 intMin intMax
  omega

theorem fits32_truncateFloat (x : Float) : Fits32 (truncateFloat x) := by
  unfold truncateFloat
  split
  · decide
  · dsimp only
    split
    · assumption
    · decide

namespace Value

variable {op : ArithOp} {v : Value}

/-- All integers of the value have 32 bits. -/
def Bounded : Value → Prop
  | .int n => Fits32 n
  | .intArray elements => ∀ n ∈ elements, Fits32 n
  | _ => True

instance (v : Value) : Decidable v.Bounded :=
  match v with
  | .int n => inferInstanceAs (Decidable (Fits32 n))
  | .intArray elements => inferInstanceAs (Decidable (∀ n ∈ elements, Fits32 n))
  | .float _ | .string _ | .bool _ | .none => .isTrue trivial

theorem bounded_zero (k : Kind) : (zero k).Bounded := by
  cases k with
  | int => exact (by decide : Fits32 0)
  | intArray => simp [zero, Bounded]
  | _ => trivial

theorem Bounded.coerce (h : v.Bounded) (target : Kind) : (v.coerce target).Bounded := by
  unfold Value.coerce
  split
  · exact h
  split
  case h_7 x _ => exact fits32_truncateFloat x
  case h_8 flag _ =>
    cases flag with
    | true => exact (by decide : Fits32 1)
    | false => exact (by decide : Fits32 0)
  case h_11 => exact bounded_zero _
  all_goals trivial

theorem bounded_intArithmetic {l r : Int} (h : intArithmetic op l r = .ok v) : v.Bounded := by
  cases op with
  | div =>
    simp only [intArithmetic] at h
    split at h
    · cases h
    · cases h
      exact fits32_wrapInt _
  | other symbol => cases h
  | _ =>
    cases h
    exact fits32_wrapInt _

theorem bounded_floatArithmetic {l r : Float} (h : floatArithmetic op l r = .ok v) : v.Bounded := by
  cases op with
  | div =>
    simp only [floatArithmetic] at h
    split at h
    · cases h
    · cases h
      trivial
  | other symbol => cases h
  | _ =>
    cases h
    trivial

theorem bounded_joinTexts {l r : Value} (h : joinTexts l op r = .ok v) : v.Bounded := by
  unfold joinTexts at h
  split at h
  · cases h
  split at h
  · cases h
  split at h <;> cases h
  trivial

theorem bounded_arithmetic {l r : Value} (h : l.arithmetic op r = .ok v) : v.Bounded := by
  unfold arithmetic at h
  split at h
  · exact bounded_intArithmetic h
  · exact bounded_floatArithmetic h
  · exact bounded_floatArithmetic h
  · exact bounded_floatArithmetic h
  · split at h
    · exact bounded_joinTexts h
    · cases h

end Value

/-! ## Draws -/

namespace Random

theorem drawBelow_lt {n : Nat} (hn : 0 < n) (bits tries : Nat) (g : Generator) :
    (g.drawBelow n bits tries).1 < n := by
  induction tries generalizing g with
  | zero => exact hn
  | succ tries ih =>
    simp only [Generator.drawBelow]
    split
    · assumption
    · exact ih _

theorem fits32_int (g : Generator) : Fits32 g.int.1 := by
  have h : (g.below (Nat.pow 2 31)).1 < Nat.pow 2 31 := drawBelow_lt (by decide) _ _ g
  have hdrawn : g.int.1 = ((g.below (Nat.pow 2 31)).1 : Int) := rfl
  have hsize : Nat.pow 2 31 = 0x80000000 := rfl
  rw [hdrawn]
  unfold Fits32 intMin intMax
  omega

theorem fits32_between {low high : Int} (hl : Fits32 low) (hh : Fits32 high) (h : low < high)
    (g : Generator) : Fits32 (g.between low high).1 := by
  have hlt : (g.below (high - low).toNat).1 < (high - low).toNat := drawBelow_lt (by omega) _ _ g
  have hdrawn : (g.between low high).1 = low + ((g.below (high - low).toNat).1 : Int) := rfl
  rw [hdrawn]
  unfold Fits32 at *
  omega

end Random

/-! ## Sessions -/

/-- Every variable is recorded with the kind of its value, which is not `none`, and its integers
have 32 bits. -/
def Context.Bounded (c : Context Value) : Prop :=
  ∀ entry ∈ c.symbols.entries,
    entry.2.kind = entry.2.storage.kind ∧ entry.2.kind ≠ .none ∧ entry.2.storage.Bounded

instance (c : Context Value) : Decidable c.Bounded :=
  inferInstanceAs (Decidable (∀ entry ∈ c.symbols.entries, _ ∧ _ ∧ _))

theorem Context.Bounded.add {c : Context Value} (h : c.Bounded) (x : String) {v : Value}
    (hv : v.Bounded) (hk : v.kind ≠ .none) : (c.add x v v.kind).Bounded := by
  intro entry hm
  rcases Table.mem_put hm with rfl | hm
  · exact ⟨rfl, hk, hv⟩
  · exact h entry hm

theorem Context.Bounded.value {c : Context Value} (h : c.Bounded) {x : String}
    {sym : Symbol Value} (hx : c.get? x = some sym) : sym.storage.Bounded :=
  (h (x, sym) (Table.mem_of_get? hx)).2.2

end DualEngine
