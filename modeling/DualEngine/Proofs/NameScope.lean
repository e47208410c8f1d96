import DualEngine.IR.Names
import Mathlib

/-! # Names are given once

A name scope never gives a name that it has given before, and never forgets one. The search for a
free number is bounded by the length of the scope; it ends at a free one because the numbered names
are all different.
-/
namespace DualEngine.IR.Names

theorem numbered_injective (wanted : String) : Function.Injective (numbered wanted) := by
  intro n m h
  have hrepr : toString n = toString m := (String.append_right_inj _).mp h
  rw [Nat.toString_eq_repr, Nat.toString_eq_repr] at hrepr
  exact Nat.repr_injective hrepr

/-- Either a free number is found, or all numbers that were tried are taken. -/
theorem firstFree_spec (used : List String) (wanted : String) (limit n : Nat) :
    numbered wanted (firstFree used wanted limit n) ∉ used ∨
      firstFree used wanted limit n = n + limit ∧
        ∀ k, k < limit → numbered wanted (n + k) ∈ used := by
  induction limit generalizing n with
  | zero => exact .inr ⟨rfl, by simp⟩
  | succ limit ih =>
    by_cases hn : numbered wanted n ∈ used
    · have hstep : firstFree used wanted (limit + 1) n = firstFree used wanted limit (n + 1) := by
        simp [firstFree, hn]
      rw [hstep]
      rcases ih (n + 1) with h | ⟨he, h⟩
      · exact .inl h
      · refine .inr ⟨by omega, ?_⟩
        intro k hk
        cases k with
        | zero => simpa using hn
        | succ k =>
          have hk' := h k (by omega)
          rwa [show n + 1 + k = n + (k + 1) by omega] at hk'
    · left
      simp [firstFree, hn]

/-- With as many tries as there are names, a free number is found. -/
theorem firstFree_length_free (used : List String) (wanted : String) (n : Nat) :
    numbered wanted (firstFree used wanted used.length n) ∉ used := by
  rcases firstFree_spec used wanted used.length n with h | ⟨he, h⟩
  · exact h
  · intro hlast
    rw [he] at hlast
    -- one more name than the scope holds, all different
    have hall : ∀ k, k < used.length + 1 → numbered wanted (n + k) ∈ used := by
      intro k hk
      rcases Nat.lt_succ_iff_lt_or_eq.mp hk with hk | rfl
      · exact h k hk
      · exact hlast
    have hnodup : ((List.range (used.length + 1)).map fun k => numbered wanted (n + k)).Nodup :=
      List.nodup_range.map fun a b hab => by
        have := numbered_injective wanted hab
        omega
    have hsub : ((List.range (used.length + 1)).map fun k => numbered wanted (n + k)) ⊆ used := by
      intro name hname
      obtain ⟨k, hk, rfl⟩ := List.mem_map.mp hname
      exact hall k (List.mem_range.mp hk)
    have hlen := (List.subperm_of_subset hnodup hsub).length_le
    simp at hlen

theorem register_fresh (names : Names) (wanted : String) : (names.register wanted).1 ∉ names.used := by
  unfold register
  by_cases h : wanted ∈ names.used
  · simpa [h] using firstFree_length_free names.used wanted _
  · simp [h]

theorem used_register (names : Names) (wanted : String) :
    (names.register wanted).2.used = (names.register wanted).1 :: names.used := by
  unfold register
  split <;> rfl

/-- The name that is given is the wanted one, or the wanted one with a number. -/
theorem register_form (names : Names) (wanted : String) :
    (names.register wanted).1 = wanted ∨ ∃ n, (names.register wanted).1 = numbered wanted n := by
  unfold register
  split
  · exact .inr ⟨_, rfl⟩
  · exact .inl rfl

/-- Several names at once: one for each wanted, all of them new and different. -/
theorem registerAll_spec (names : Names) (wanted : List String) :
    (names.registerAll wanted).1.length = wanted.length ∧
      (names.registerAll wanted).1.Nodup ∧
      (∀ x ∈ (names.registerAll wanted).1, x ∉ names.used) ∧
      (names.registerAll wanted).1 ⊆ (names.registerAll wanted).2.used ∧
      names.used ⊆ (names.registerAll wanted).2.used := by
  induction wanted generalizing names with
  | nil => exact ⟨rfl, List.nodup_nil, by simp [registerAll], by simp [registerAll], fun _ h => h⟩
  | cons first rest ih =>
    obtain ⟨hlen, hnodup, hfresh, hgiven, hkept⟩ := ih (names.register first).2
    rw [used_register] at hfresh hkept
    simp only [registerAll, List.length_cons, hlen, List.nodup_cons, List.mem_cons, List.cons_subset]
    refine ⟨trivial, ⟨fun hm => ?_, hnodup⟩, ?_, ⟨hkept List.mem_cons_self, hgiven⟩,
      fun x hx => hkept (List.mem_cons_of_mem _ hx)⟩
    · exact hfresh _ hm List.mem_cons_self
    · rintro x (rfl | hx)
      · exact names.register_fresh first
      · exact fun hu => hfresh x hx (List.mem_cons_of_mem _ hu)

end DualEngine.IR.Names
