import DualEngine.Proofs.Coercions

/-! # Coercion in code and on values

A value that a function returns, or that seeds a slot of another kind, is coerced by generated code
or directly. The two agree on every value of a running program and every target kind. The only
exception is the text of a float that is no number, which the machine writes with a sign.
-/
namespace DualEngine.Lowering
open IR Machine

variable {image : Image} {a : Snap} {s : State}

/-! ## The values of a running program -/

/-- Integers are of 32 bits, texts end at their zero, and arrays are counted by an integer. -/
def Runtime : Value → Prop
  | .int n => intMin ≤ n ∧ n ≤ intMax
  | .string t => '\x00' ∉ t.toList
  | .intArray xs => (xs.length : Int) ≤ intMax ∧ ∀ x ∈ xs, intMin ≤ x ∧ x ≤ intMax
  | _ => True

theorem toInt_ofInt_of_range {n : Int} (h : intMin ≤ n ∧ n ≤ intMax) : (Int32.ofInt n).toInt = n := by
  simp only [intMin, intMax] at h
  exact Int32.toInt_ofInt_of_le (by omega) (by omega)

theorem intsFrom?_of_elements {m : Memory} {k size : Nat} (front : List (Option Int32)) {xs : List Int}
    (hk : m.heap[k]? = some ⟨size, .ints (front ++ xs.map (some ∘ Int32.ofInt))⟩)
    (hx : ∀ x ∈ xs, intMin ≤ x ∧ x ≤ intMax) :
    m.intsFrom? k front.length xs.length = some xs := by
  induction xs generalizing front with
  | nil => rfl
  | cons x xs ih =>
    have hhead : m.int? k front.length = some (Int32.ofInt x) := by
      simp [Memory.int?, hk]
    have htail : m.intsFrom? k (front.length + 1) xs.length = some xs := by
      have h := ih (front ++ [some (Int32.ofInt x)]) (by simpa using hk)
        fun y hy => hx y (List.mem_cons_of_mem x hy)
      simpa using h
    rw [List.length_cons, Memory.intsFrom?, hhead, Option.bind_eq_bind, Option.bind_some, htail,
      toInt_ofInt_of_range (hx x List.mem_cons_self)]
    rfl

theorem array?_of_elements {m : Memory} {k size : Nat} {xs : List Int}
    (hk : m.heap[k]? = some ⟨size, .ints (some (Int32.ofInt xs.length) :: xs.map (some ∘ Int32.ofInt))⟩)
    (hv : Runtime (.intArray xs)) : m.array? (.heap k 0) = some xs := by
  have hlength : (Int32.ofInt xs.length).toInt = xs.length :=
    toInt_ofInt_of_range ⟨Int.le_trans (by decide) (Int.natCast_nonneg xs.length), hv.1⟩
  have hhead : m.int? k 0 = some (Int32.ofInt xs.length) := by
    simp [Memory.int?, hk]
  rw [Memory.array?, hhead, Option.bind_eq_bind, Option.bind_some, hlength, Int.toNat_natCast]
  exact intsFrom?_of_elements [some (Int32.ofInt xs.length)] hk hv.2

/-- Every value of a running program is in some register of some memory that has all the buffers of
the given one. -/
theorem exists_carries {gs : List Global} {v : Value} (hs : Serves image a.memory gs) (hv : Runtime v)
    (hk : v.kind ≠ .none) (x : String) :
    ∃ b : Snap, a.memory.Extends b.memory ∧
      Carries image b ⟨.register x (irType v.kind), v.kind⟩ v := by
  have hword (w : Word) (hw : Stands image a.memory v w) :
      ∃ b : Snap, a.memory.Extends b.memory ∧
        Carries image b ⟨.register x (irType v.kind), v.kind⟩ v :=
    ⟨a.set x w, Memory.Extends.refl _, rfl, w, gives_set _ _ _ _, hw⟩
  have hbuffer (size : Nat) (contents : Contents)
      (hw : Holds (a.addBuffer size contents).memory v (.address (.heap a.memory.heap.size 0))) :
      ∃ b : Snap, a.memory.Extends b.memory ∧
        Carries image b ⟨.register x (irType v.kind), v.kind⟩ v :=
    ⟨(a.addBuffer size contents).set x (.address (.heap a.memory.heap.size 0)),
      extends_addBuffer a size contents, rfl, _, gives_set _ _ _ _, hw, fun _ => hs.lasting_new le_rfl 0⟩
  cases v with
  | int n =>
    exact hword (.int (Int32.ofInt n))
      ⟨holds_int.mpr ⟨_, rfl, toInt_ofInt_of_range hv⟩, by simp [Value.kind]⟩
  | float y => exact hword (.double y) ⟨holds_float.mpr rfl, by simp [Value.kind]⟩
  | bool bit => exact hword (.bit bit) ⟨holds_bool.mpr rfl, by simp [Value.kind]⟩
  | string t =>
    refine hbuffer (t.utf8ByteSize + 1) (.text t) (holds_string.mpr ⟨_, rfl, ?_⟩)
    rw [Memory.text?_heap (buffer_addBuffer a _ _), cut_of_not_mem hv]
  | intArray xs =>
    exact hbuffer (4 * (xs.length + 1)) _ (holds_intArray.mpr ⟨_, rfl,
      array?_of_elements (buffer_addBuffer a _ _) hv⟩)
  | none => exact absurd rfl hk

/-! ## Agreement -/

theorem kind_recast (v : Value) (target : Kind) : (recast v target).kind = target := by
  unfold recast
  split
  · rename_i h
    exact h.2.symm
  · exact kind_coerce v target

/-- The two coercions differ where the machine writes another text, and only there. -/
theorem recast_eq_coerce_iff (v : Value) (target : Kind) :
    recast v target = v.coerce target ↔
      ¬ (target = .string ∧ ∃ x, v = .float x ∧ x.isNaN = true) := by
  by_cases h : v.kind = .float ∧ target = .string
  · obtain ⟨hk, rfl⟩ := h
    cases v with
    | float x =>
      have hcoerce : (Value.float x).coerce .string = .string (Decimal.significant x) := by
        simp [Value.coerce, Value.kind, Value.text]
      rw [recast, if_pos ⟨hk, rfl⟩, hcoerce, Value.string.injEq, written, Machine.doubleText]
      cases hnan : x.isNaN with
      | true =>
        refine iff_of_false (Decimal.significant_ne_negative_nan x).symm fun h => h ⟨rfl, x, rfl, hnan⟩
      | false =>
        refine iff_of_true rfl ?_
        rintro ⟨-, y, hy, hynan⟩
        cases hy
        exact absurd (hnan.symm.trans hynan) (by decide)
    | _ => simp [Value.kind] at hk
  · have heq : recast v target = v.coerce target := if_neg h
    refine iff_of_true heq ?_
    rintro ⟨rfl, x, rfl, -⟩
    exact h ⟨rfl, rfl⟩

/-- No value is asked for, and none is made. -/
theorem coerce_to_none {r : Option Typed} (s : State) (hr : ResultFits s.used r) :
    ∃ result, coerce r .none s = .ok result s ∧
      ResultFits s.used (result.map (⟨·, .none⟩)) ∧
      ∀ image a v, CarriesResult image a r v →
        CarriesResult image a (result.map (⟨·, .none⟩)) .none := by
  cases r with
  | none => exact ⟨none, rfl, trivial, fun _ _ _ _ => rfl⟩
  | some t =>
    by_cases hk : t.kind = .none
    · obtain ⟨operand, kind⟩ := t
      obtain rfl : kind = .none := hk
      refine ⟨some operand, rfl, hr, ?_⟩
      rintro image a v ⟨hkind, w, -, hw⟩
      -- no operand stands for a value of this kind
      cases v <;> simp_all [Value.kind, Stands]
    · exact ⟨none, by simp [coerce, hk, pure_run], trivial, fun _ _ _ _ => rfl⟩

/-- Coercion in generated code gives what coercion of the value gives, of the target kind, but for
the text of a float that is no number. -/
theorem coerce_agrees {r : Option Typed} (hr : ResultFits s.used r) (target : Kind) :
    ∃ result s' code, coerce r target s = .ok result s' ∧ Appends code s s' ∧
      ResultFits s'.used (result.map (⟨·, target⟩)) ∧
      ∀ image a v, Serves image a.memory s'.globals → Grounded image a.memory →
        CarriesResult image a r v →
        ∃ b u, Computes image s.used code a b ∧
          CarriesResult image b (result.map (⟨·, target⟩)) u ∧ u.kind = target ∧
          (u = v.coerce target ↔ ¬ (target = .string ∧ ∃ x, v = .float x ∧ x.isNaN = true)) := by
  by_cases hnone : target = .none
  · subst hnone
    obtain ⟨result, hrun, hfits, hcarries⟩ := coerce_to_none s hr
    refine ⟨result, s, [], hrun, Appends.refl s, hfits, fun image a v _ _ hc => ?_⟩
    have hcoerce : v.coerce .none = .none := by
      cases v <;> simp [Value.coerce, Value.kind]
    exact ⟨a, .none, Computes.nil _ a, hcarries image a v hc, rfl, by simp [hcoerce]⟩
  cases r with
  | none =>
    obtain ⟨o, s', code, hrun, A, F, run⟩ := zero_spec s hnone
    refine ⟨some o, s', code, hrun, A, F, ?_⟩
    rintro image a v hs hg rfl
    obtain ⟨b, C, g⟩ := run image a hs
    have hcoerce : Value.coerce .none target = Value.zero target := by
      cases target <;> simp [Value.coerce, Value.kind, Value.zero]
    refine ⟨b, Value.zero target, C, ⟨?_, _, g, (hg.extend C.quiet.heap).stands_zero hnone⟩, ?_, ?_⟩
    · rw [← hcoerce, kind_coerce]
    · rw [← hcoerce, kind_coerce]
    · simp [hcoerce]
  | some t =>
    obtain ⟨o, s', code, hrun, A, F, run⟩ := coerce_spec hr hnone
    refine ⟨some o, s', code, hrun, A, F, fun image a v hs hg hc => ?_⟩
    obtain ⟨b, w, C, g, hw, -⟩ := run image a v hs hg hc
    exact ⟨b, recast v target, C, ⟨(kind_recast v target).symm, w, g, hw⟩, kind_recast v target,
      recast_eq_coerce_iff v target⟩

/-- A float that is no number is in some register, and code makes another text of it. -/
theorem nan_text_differs :
    ∃ (s : State) (result : Option Operand) (s' : State) (code : List Instruction),
      coerce (some ⟨.register "x" .double, .float⟩) .string s = .ok result s' ∧
      ∀ (image : Image) (a : Snap), Serves image a.memory s'.globals → Grounded image a.memory →
        ∃ b c u, Carries image b ⟨.register "x" .double, .float⟩ (.float .nan) ∧
          Computes image s.used code b c ∧
          CarriesResult image c (result.map (⟨·, .string⟩)) u ∧ u.kind = .string ∧
          u ≠ (Value.float .nan).coerce .string := by
  let s : State := { context := {}, nextSlot := 0, draft := { names := { used := ["x"] } } }
  obtain ⟨result, s', code, hrun, -, -, run⟩ := coerce_agrees
    (s := s) (r := some ⟨.register "x" .double, .float⟩) ⟨rfl, List.mem_singleton.mpr rfl⟩ .string
  refine ⟨s, result, s', code, hrun, fun image a hs hg => ?_⟩
  obtain ⟨b, hb, hc⟩ := exists_carries (v := .float .nan) hs trivial (by simp [Value.kind]) "x"
  obtain ⟨c, u, C, hu, hkind, hiff⟩ := run image b _ (hs.extend hb) (hg.extend hb) hc
  exact ⟨b, c, u, hc, C, hu, hkind, fun h => hiff.mp h ⟨rfl, .nan, rfl, by simp⟩⟩

end DualEngine.Lowering
