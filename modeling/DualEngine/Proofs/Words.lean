import DualEngine.Machine.Session
import Mathlib

/-! # Values as words

A word stands for a value with respect to the buffers of memory. What a word stands for does not
change as long as no buffer does, and the code of a submission only fills buffers of its own.
-/
namespace DualEngine

/-- A value that generated code can work with: no NaN, no zero character in a text, and sizes that
a 32-bit integer can count. -/
def Value.Portable : Value → Prop
  | .float x => x.isNaN = false
  | .string s => '\x00' ∉ s.toList ∧ s.utf8ByteSize < 2 ^ 31
  | .intArray elements => elements.length < 2 ^ 31
  | _ => True

instance (v : Value) : Decidable v.Portable :=
  match v with
  | .int _ => .isTrue trivial
  | .float x => inferInstanceAs (Decidable (x.isNaN = false))
  | .string s => inferInstanceAs (Decidable ('\x00' ∉ s.toList ∧ s.utf8ByteSize < 2 ^ 31))
  | .bool _ => .isTrue trivial
  | .none => .isTrue trivial
  | .intArray elements => inferInstanceAs (Decidable (elements.length < 2 ^ 31))

/-- The quotient that overflows. -/
def Value.overflows : Value → Value → Bool
  | .int l, .int r => l == intMin && r == -1
  | _, _ => false

namespace Machine

theorem cut_of_not_mem {s : String} (h : '\x00' ∉ s.toList) : cut s = s := by
  have hall : s.toList.takeWhile (· != '\x00') = s.toList := by
    rw [List.takeWhile_eq_self_iff]
    intro c hc
    simp only [bne_iff_ne, ne_eq]
    rintro rfl
    exact h hc
  rw [cut, hall, String.ofList_toList]

theorem cut_no_zero (s : String) : '\x00' ∉ (cut s).toList := by
  intro h
  simp only [cut, String.toList_ofList] at h
  simpa using List.mem_takeWhile_imp h

theorem cut_cut (s : String) : cut (cut s) = cut s := cut_of_not_mem (cut_no_zero s)

namespace Memory

variable {a : Address} {xs : List Int} {k : Nat}

/-- Every buffer of `m` is in `m'` as it was. -/
def Extends (m m' : Memory) : Prop := ∀ (k : Nat) b, m.heap[k]? = some b → m'.heap[k]? = some b

variable {m m' m'' : Memory}

theorem Extends.refl (m : Memory) : m.Extends m := fun _ _ h => h

theorem Extends.trans (h : m.Extends m') (h' : m'.Extends m'') : m.Extends m'' :=
  fun k b hk => h' k b (h k b hk)

theorem extends_of_heap_eq (h : m'.heap = m.heap) : m.Extends m' := by
  intro k b hk
  rw [h]
  exact hk

theorem extends_push {b : Buffer} (h : m'.heap = m.heap.push b) : m.Extends m' := by
  intro k c hk
  have hlt : k < m.heap.size := by
    by_contra hge
    simp [Array.getElem?_eq_none (by omega : m.heap.size ≤ k)] at hk
  rw [h, Array.getElem?_push, if_neg (by omega)]
  exact hk

theorem text?_heap {size : Nat} {s : String} (h : m.heap[k]? = some ⟨size, .text s⟩) :
    m.text? (.heap k 0) = some (cut s) := by
  simp only [text?, h]

theorem text?_eq_some {t : String} (h : m.text? a = some t) :
    ∃ k size s, a = .heap k 0 ∧ m.heap[k]? = some ⟨size, .text s⟩ ∧ t = cut s := by
  unfold text? at h
  split at h
  · rename_i k
    split at h
    · rename_i size s hk
      exact ⟨k, size, s, rfl, hk, (Option.some.inj h).symm⟩
    · simp at h
  · simp at h

theorem text?_no_zero {t : String} (h : m.text? a = some t) : '\x00' ∉ t.toList := by
  obtain ⟨k, size, s, rfl, hk, rfl⟩ := text?_eq_some h
  exact cut_no_zero s

theorem Extends.text? (h : m.Extends m') {a : Address} {t : String} (ht : m.text? a = some t) :
    m'.text? a = some t := by
  obtain ⟨k, size, s, rfl, hk, rfl⟩ := text?_eq_some ht
  exact text?_heap (h k _ hk)

theorem Extends.int? (h : m.Extends m') {i : Nat} {n : Int32} (hn : m.int? k i = some n) :
    m'.int? k i = some n := by
  unfold Memory.int? at hn ⊢
  split at hn
  · rename_i size elements hk
    simpa only [h k _ hk] using hn
  · simp at hn

theorem Extends.intsFrom? (h : m.Extends m') {i count : Nat}
    (hx : m.intsFrom? k i count = some xs) : m'.intsFrom? k i count = some xs := by
  induction count generalizing i xs with
  | zero => simpa [Memory.intsFrom?] using hx
  | succ count ih =>
    simp only [Memory.intsFrom?, Option.bind_eq_bind, Option.bind_eq_some_iff] at hx ⊢
    obtain ⟨n, hn, ys, hy, hxs⟩ := hx
    exact ⟨n, h.int? hn, ys, ih hy, hxs⟩

theorem intsFrom?_congr {i count : Nat}
    (h : ∀ l, i ≤ l → l < i + count → m'.int? k l = m.int? k l) :
    m'.intsFrom? k i count = m.intsFrom? k i count := by
  induction count generalizing i with
  | zero => rfl
  | succ count ih =>
    rw [intsFrom?, intsFrom?, h i le_rfl (by omega),
      ih fun l hl hlt => h l (by omega) (by omega)]

/-- An array is read from its buffer alone. -/
theorem array?_congr (h : ∀ i, m'.int? k i = m.int? k i) (index : Nat) :
    m'.array? (.heap k index) = m.array? (.heap k index) := by
  cases index with
  | zero => simp only [array?, h, intsFrom?_congr fun l _ _ => h l]
  | succ index => rfl

theorem Extends.array? (h : m.Extends m') (hx : m.array? a = some xs) : m'.array? a = some xs := by
  unfold Memory.array? at hx ⊢
  split at hx
  · simp only [Option.bind_eq_bind, Option.bind_eq_some_iff] at hx ⊢
    obtain ⟨n, hn, hx⟩ := hx
    exact ⟨n, h.int? hn, h.intsFrom? hx⟩
  · simp at hx

end Memory

/-- The word stands for the value. -/
def Holds (m : Memory) : Value → Word → Prop
  | .int n, .int i => i.toInt = n
  | .float x, .double y => y = x
  | .bool b, .bit c => c = b
  | .string t, .address a => m.text? a = some t
  | .intArray xs, .address a => m.array? a = some xs
  | _, _ => False

variable {m m' : Memory} {w : Word}

section
attribute [local simp] Holds

@[simp] theorem holds_int {n : Int} : Holds m (.int n) w ↔ ∃ i, w = .int i ∧ i.toInt = n := by
  cases w <;> simp

@[simp] theorem holds_float {x : Float} : Holds m (.float x) w ↔ w = .double x := by
  cases w <;> simp

@[simp] theorem holds_bool {b : Bool} : Holds m (.bool b) w ↔ w = .bit b := by
  cases w <;> simp

@[simp] theorem holds_string {t : String} :
    Holds m (.string t) w ↔ ∃ a, w = .address a ∧ m.text? a = some t := by
  cases w <;> simp

@[simp] theorem holds_intArray {xs : List Int} :
    Holds m (.intArray xs) w ↔ ∃ a, w = .address a ∧ m.array? a = some xs := by
  cases w <;> simp

@[simp] theorem holds_none : ¬ Holds m .none w := by
  cases w <;> simp

end

theorem Holds.extend {v : Value} (h : Holds m v w) (hm : m.Extends m') : Holds m' v w := by
  cases v with
  | int n => simpa using h
  | float x => simpa using h
  | bool b => simpa using h
  | none => simp at h
  | string t =>
    obtain ⟨a, rfl, ha⟩ := holds_string.mp h
    exact holds_string.mpr ⟨a, rfl, hm.text? ha⟩
  | intArray xs =>
    obtain ⟨a, rfl, ha⟩ := holds_intArray.mp h
    exact holds_intArray.mpr ⟨a, rfl, hm.array? ha⟩

/-- What a word stands for is read back from it. -/
theorem Holds.decode {v : Value} (h : Holds m v w) : decode? m v.kind w = some v := by
  cases v with
  | int n =>
    obtain ⟨i, rfl, rfl⟩ := holds_int.mp h
    rfl
  | float x =>
    obtain rfl := holds_float.mp h
    rfl
  | bool b =>
    obtain rfl := holds_bool.mp h
    rfl
  | none => simp at h
  | string t =>
    obtain ⟨a, rfl, ha⟩ := holds_string.mp h
    simp [decode?, Value.kind, ha]
  | intArray xs =>
    obtain ⟨a, rfl, ha⟩ := holds_intArray.mp h
    simp [decode?, Value.kind, ha]

end Machine
end DualEngine
