import DualEngine.Proofs.ModuleNames
import DualEngine.Proofs.Tables

/-! # Loading a module and freeing its constants

The constants of a module are put into buffers of their own before it runs, and are freed
afterwards. All other buffers stay.
-/
namespace DualEngine

namespace Machine
open IR Lowering

variable {a : Artifact} {f : Function}

/-! ## Constants -/

/-- What loading globals into memory gives. -/
structure Loads (m : Memory) (constants : Table Address) (globals : List Global) (m' : Memory)
    (constants' : Table Address) : Prop where
  heap : m.Extends m'
  cells : m'.cells = m.cells
  nodup : constants.names.Nodup → constants'.names.Nodup
  /-- A constant is one from before, or one of the globals in a new buffer. -/
  origin : ∀ name address, constants'.get? name = some address →
    constants.get? name = some address ∨ (∃ contents, Global.text name contents ∈ globals) ∧
      ∃ k, address = .heap k 0 ∧ m.heap.size ≤ k ∧ k < m'.heap.size
  kept : ∀ name, name ∉ globals.map Global.name → constants'.get? name = constants.get? name
  texts : (globals.map Global.name).Nodup → ∀ name contents, Global.text name contents ∈ globals →
    ∃ k size, constants'.get? name = some (.heap k 0) ∧ m'.heap[k]? = some ⟨size, .text contents⟩
  /-- Every buffer that was added belongs to a constant. -/
  added : ∀ k, m.heap.size ≤ k → k < m'.heap.size → (globals.map Global.name).Nodup →
    ∃ name, constants'.get? name = some (.heap k 0)

theorem loads_nil (m : Memory) (constants : Table Address) : Loads m constants [] m constants :=
  ⟨.refl m, rfl, id, fun _ _ h => .inl h, fun _ _ => rfl, by simp, fun k h h' => by omega⟩

theorem Loads.skip {m m' : Memory} {constants constants' : Table Address} {globals : List Global}
    {x : Global} (h : Loads m constants globals m' constants')
    (hx : ∀ name contents, x ≠ .text name contents) :
    Loads m constants (x :: globals) m' constants' := by
  refine ⟨h.heap, h.cells, h.nodup, ?_, ?_, ?_, ?_⟩
  · intro name address ha
    rcases h.origin name address ha with ha | ⟨⟨contents, hc⟩, hk⟩
    · exact .inl ha
    · exact .inr ⟨⟨contents, List.mem_cons_of_mem _ hc⟩, hk⟩
  · intro name hn
    exact h.kept name fun hm => hn (List.mem_cons_of_mem _ hm)
  · intro hd name contents hm
    rcases List.mem_cons.mp hm with heq | hm
    · exact absurd heq.symm (hx name contents)
    · exact h.texts (List.nodup_cons.mp hd).2 name contents hm
  · intro k hk hk' hd
    exact h.added k hk hk' (List.nodup_cons.mp hd).2

theorem Loads.text {m m' : Memory} {constants constants' : Table Address} {globals : List Global}
    {name contents : String} {size : Nat}
    (h : Loads (m.allocate size (.text contents)).2
      (constants.insert name (.heap m.heap.size 0)) globals m' constants') :
    Loads m constants (.text name contents :: globals) m' constants' := by
  have hpush : (m.allocate size (.text contents)).2.heap = m.heap.push ⟨size, .text contents⟩ := rfl
  have hlast : (m.allocate size (.text contents)).2.heap[m.heap.size]? =
      some ⟨size, .text contents⟩ := by
    rw [hpush]
    exact Array.getElem?_push_size
  have hsize : (m.allocate size (.text contents)).2.heap.size = m.heap.size + 1 := by
    rw [hpush]
    exact Array.size_push _
  have hle := h.heap.size_le
  rw [hsize] at hle
  have hnew (hd : name ∉ globals.map Global.name) :
      constants'.get? name = some (.heap m.heap.size 0) := by
    rw [h.kept _ hd, Table.get?_insert, if_pos rfl]
  refine ⟨(Memory.extends_push hpush).trans h.heap, h.cells, ?_, ?_, ?_, ?_, ?_⟩
  · exact fun hn => h.nodup (Table.nodup_insert hn _ _)
  · intro other address ha
    rcases h.origin other address ha with ha | ⟨⟨c, hc⟩, k, rfl, hk, hk'⟩
    · rw [Table.get?_insert] at ha
      split at ha
      · rename_i heq
        cases ha
        exact .inr ⟨⟨contents, heq ▸ List.mem_cons_self⟩, _, rfl, le_rfl, hle⟩
      · exact .inl ha
    · exact .inr ⟨⟨c, List.mem_cons_of_mem _ hc⟩, k, rfl, by omega, hk'⟩
  · intro other hn
    rw [List.map_cons, List.mem_cons, not_or] at hn
    have hne : name ≠ other := Ne.symm hn.1
    rw [h.kept other hn.2, Table.get?_insert, if_neg hne]
  · intro hd other c hm
    rw [List.map_cons, List.nodup_cons] at hd
    rcases List.mem_cons.mp hm with heq | hm
    · cases heq
      exact ⟨m.heap.size, size, hnew hd.1, h.heap _ _ hlast⟩
    · exact h.texts hd.2 other c hm
  · intro k hk hk' hd
    rw [List.map_cons, List.nodup_cons] at hd
    rcases Nat.eq_or_lt_of_le hk with rfl | hk
    · exact ⟨name, hnew hd.1⟩
    · exact h.added k (by omega) hk' hd.2

theorem loadConstants_spec (globals : List Global) (m : Memory) (constants : Table Address) :
    Loads m constants globals (loadConstants m constants globals).1
      (loadConstants m constants globals).2 := by
  induction globals generalizing m constants with
  | nil => exact loads_nil m constants
  | cons x rest ih =>
    cases x with
    | text name contents => exact (ih _ _).text
    | function f | external name type => exact (ih m constants).skip (by simp)

/-! ## Freeing them -/

theorem freeConstants_cells (m : Memory) (constants : Table Address) :
    (freeConstants m constants).cells = m.cells := by
  unfold freeConstants
  induction constants.entries generalizing m with
  | nil => rfl
  | cons entry rest ih =>
    rw [List.foldl_cons, ih]
    split <;> rfl

theorem heap_setContents (m : Memory) (buffer k : Nat) (contents : Contents) :
    (m.setContents buffer contents).heap[k]? =
      if buffer = k then m.heap[k]?.map fun b => { b with contents } else m.heap[k]? := by
  simp only [Memory.setContents, Array.getElem?_modify]

/-- An address in the buffer `k`. -/
def Address.isIn (k : Nat) : Address → Bool
  | .heap buffer _ => buffer == k
  | _ => false

theorem heap_freeConstants (m : Memory) (constants : Table Address) (k : Nat) :
    (freeConstants m constants).heap[k]? =
      if constants.entries.any (·.2.isIn k) then
        m.heap[k]?.map fun b => { b with contents := .freed }
      else m.heap[k]? := by
  unfold freeConstants
  induction constants.entries generalizing m with
  | nil => rfl
  | cons entry rest ih =>
    rw [List.foldl_cons, ih]
    obtain ⟨name, address⟩ := entry
    cases address with
    | heap buffer i =>
      have hin : (Address.heap buffer i).isIn k = (buffer == k) := rfl
      rw [List.any_cons, hin]
      by_cases hk : buffer = k
      · cases hb : m.heap[k]? <;> simp [heap_setContents, hk, hb]
      · simp only [heap_setContents, hk, if_false, beq_eq_false_iff_ne.mpr hk, Bool.false_or]
    | _ => rfl

/-- A buffer that no constant is in stays. -/
theorem freeConstants_kept (m : Memory) {constants : Table Address} {k : Nat}
    (hn : constants.names.Nodup) (hk : ∀ name i, constants.get? name ≠ some (.heap k i)) :
    (freeConstants m constants).heap[k]? = m.heap[k]? := by
  rw [heap_freeConstants, if_neg]
  rw [List.any_eq_true]
  rintro ⟨⟨name, address⟩, hm, hin⟩
  cases address with
  | heap buffer i =>
    have hbuffer : buffer = k := by simpa [Address.isIn] using hin
    exact hk name i (hbuffer ▸ Table.get?_of_mem hn hm)
  | _ => simp [Address.isIn] at hin

/-- The buffer of a constant is freed. -/
theorem freeConstants_freed (m : Memory) {constants : Table Address} {k i : Nat} {name : String}
    (h : constants.get? name = some (.heap k i)) :
    (freeConstants m constants).heap[k]? =
      m.heap[k]?.map fun b => { b with contents := .freed } := by
  rw [heap_freeConstants, if_pos]
  exact List.any_eq_true.mpr ⟨_, Table.mem_of_get? h, by simp [Address.isIn]⟩

/-! ## The image of a module -/

/-- The functions of a module. -/
def functionsOf (globals : List Global) : List Function :=
  globals.filterMap fun
    | .function f => some f
    | _ => none

theorem mem_functionsOf {globals : List Global} :
    f ∈ functionsOf globals ↔ Global.function f ∈ globals := by
  unfold functionsOf
  rw [List.mem_filterMap]
  constructor
  · rintro ⟨x, hx, hf⟩
    cases x with
    | function f' =>
      cases hf
      exact hx
    | _ => cases hf
  · exact fun h => ⟨_, h, rfl⟩

/-- Globals of one name are the same. -/
theorem eq_of_name_eq {globals : List Global} (hd : (globals.map Global.name).Nodup) {x y : Global}
    (hx : x ∈ globals) (hy : y ∈ globals) (h : x.name = y.name) : x = y :=
  List.inj_on_of_nodup_map hd hx hy h

variable {globals : List Global} {constants : Table Address}

/-- A function that is defined is found under its name. -/
theorem function?_of_mem (hd : (globals.map Global.name).Nodup) (hf : Global.function f ∈ globals)
    (hb : f.blocks ≠ []) :
    (⟨functionsOf globals, constants⟩ : Image).function? f.signature.name = some f := by
  unfold Image.function?
  cases hfind : (functionsOf globals).find? fun f' =>
      f'.signature.name == f.signature.name && !f'.blocks.isEmpty with
  | none =>
    have hnone := List.find?_eq_none.mp hfind f (mem_functionsOf.mpr hf)
    exact absurd hb (by simpa using hnone)
  | some f' =>
    have hsome := List.find?_some hfind
    have hmem := mem_functionsOf.mp (List.mem_of_find?_eq_some hfind)
    simp only [Bool.and_eq_true, beq_iff_eq] at hsome
    have heq := eq_of_name_eq hd hmem hf hsome.1
    cases heq
    rfl

/-- A function that is only declared is not found. -/
theorem function?_of_declared (hd : (globals.map Global.name).Nodup) {signature : Signature}
    {params : List String} (hf : Global.function { signature, params } ∈ globals) :
    (⟨functionsOf globals, constants⟩ : Image).function? signature.name = none := by
  unfold Image.function?
  rw [List.find?_eq_none]
  intro f' hf' hsome
  simp only [Bool.and_eq_true, beq_iff_eq] at hsome
  have heq := eq_of_name_eq hd (mem_functionsOf.mp hf') hf hsome.1
  cases heq
  simp at hsome

/-- Memory before a module runs: a cell for every slot made for it, and the flag set. -/
def prepared (a : Artifact) (m : Memory) : Memory :=
  (a.created.foldl Memory.addSlot m).setCell resultPresent (.byte 1)

/-- The module loaded into memory. -/
def loaded (a : Artifact) (m : Memory) : Memory × Table Address :=
  loadConstants (prepared a m) {} a.module.globals

def imageOf (a : Artifact) (m : Memory) : Image :=
  ⟨functionsOf a.module.globals, (loaded a m).2⟩

/-- The image serves a module whose globals have names of their own. -/
theorem serves_loaded {s : Lowering.State} (hn : Named s) (ha : a.module.globals = s.globals)
    (m : Memory) : Serves (imageOf a m) (loaded a m).1 s.globals := by
  have L := loadConstants_spec a.module.globals (prepared a m) {}
  rw [ha] at L
  refine ⟨?_, ?_, ?_⟩
  · intro name contents hg
    have := L.texts hn.distinct name contents hg
    simpa only [imageOf, loaded, ha] using this
  · intro name address hc
    simp only [imageOf, loaded, ha] at hc
    rcases L.origin name address hc with hold | ⟨⟨contents, hg⟩, k, rfl, -, hk⟩
    · cases hold
    · exact ⟨hn.texts name contents hg, k, rfl, by simpa only [loaded, ha] using hk⟩
  · intro callee hc
    obtain ⟨params, hp⟩ := hn.library callee hc
    rw [imageOf, ha]
    exact function?_of_declared hn.distinct hp

/-! ## The run of a module -/

/-- The state in which a module starts. -/
def started (a : Artifact) (s : State) : State := { s with memory := (loaded a s.memory).1 }

/-- The label of the first block. -/
def firstLabel (f : Function) : String := (f.blocks.head?.map Block.label).getD ""

/-- The value is taken from the word returned, and the constants are freed. -/
def closing (a : Artifact) (m : Memory) (word : Option Word) : Run Value := do
  let value ← result a.kind word
  modify fun s => { s with memory := freeConstants s.memory (loaded a m).2 }
  pure value

theorem runArtifact_run (fuel : Nat) {s : State}
    (hf : (imageOf a s.memory).function? a.entry = some f) :
    runArtifact fuel a s =
      (execute (imageOf a s.memory) fuel f (firstLabel f) "" {} >>= closing a s.memory)
        (started a s) := by
  unfold runArtifact
  rw [bind_ok (get_run s)]
  dsimp only
  rw [bind_ok (set_run _ _)]
  generalize hfound : Image.function? _ a.entry = found
  obtain rfl : found = some f := hfound.symm.trans hf
  rfl

theorem runArtifact_error (fuel : Nat) {s : State}
    (hf : (imageOf a s.memory).function? a.entry = none) :
    runArtifact fuel a s = .error (.trap .malformed) (started a s) := by
  unfold runArtifact
  rw [bind_ok (get_run s)]
  dsimp only
  rw [bind_ok (set_run _ _)]
  generalize hfound : Image.function? _ a.entry = found
  obtain rfl : found = none := hfound.symm.trans hf
  rfl

end Machine
end DualEngine
