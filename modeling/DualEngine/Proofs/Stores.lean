import DualEngine.Proofs.FunctionBodies
import DualEngine.Proofs.Writes

/-! # Where generated code stores

A store of generated code goes to the cell of a slot, or to an address that the function itself has
made: a stack cell, a new buffer or a place in one. The registers that hold such addresses are the
function's own; `Upholds` follows them through lowering. Nothing is assumed of the kinds of values,
so that all of this holds of any tree.
-/
namespace DualEngine

namespace IR

variable {o : Operand} {op : Operation}

/-- The operand is a register of these. -/
def Operand.Owned (own : Set String) : Operand → Prop
  | .register x _ => x ∈ own
  | _ => False

/-- The operand is the address of one of the cells, or an address that the function has made. -/
def Operand.Aims (cells own : Set String) : Operand → Prop
  | .register x _ => x ∈ own
  | .global name _ => name ∈ cells
  | _ => False

/-- The operation makes an address, or goes on from one that was made. -/
def Operation.Yields (own : Set String) : Operation → Prop
  | .alloca _ => True
  | .call callee _ => callee = Lowering.malloc
  | .convert how value _ => how = .bitcast ∧ value.Owned own
  | .element base _ => base.Owned own
  | _ => False

/-- The operation stores to nothing but the cells and what the function has made. -/
def Operation.Confined (cells own : Set String) : Operation → Prop
  | .store _ address => address.Aims cells own
  | .call callee args => callee.name = Lowering.sprintf.name →
      ∃ buffer rest, args = buffer :: rest ∧ buffer.Owned own
  | _ => True

/-- All code in the blocks is confined, and only addresses that were made are in own registers. -/
def Confines (cells own : Set String) (blocks : List Block) : Prop :=
  ∀ b ∈ blocks, ∀ i ∈ b.body,
    i.operation.Confined cells own ∧ (i.name ∈ own → i.operation.Yields own)

def Function.Confined (cells : Set String) (f : Function) : Prop :=
  ∃ own : Set String, (∀ x ∈ f.params, x ∉ own) ∧ Confines cells own f.blocks

variable {cells own own' : Set String}

theorem Operand.Owned.mono (h : o.Owned own) (hs : own ⊆ own') : o.Owned own' := by
  cases o with
  | register x type => exact hs h
  | _ => exact h

theorem Operand.Owned.aims (h : o.Owned own) : o.Aims cells own := by
  cases o with
  | register x type => exact h
  | _ => exact h.elim

theorem Operand.Aims.mono (h : o.Aims cells own) (hs : own ⊆ own') : o.Aims cells own' := by
  cases o with
  | register x type => exact hs h
  | _ => exact h

theorem Operation.Yields.mono (h : op.Yields own) (hs : own ⊆ own') : op.Yields own' := by
  cases op with
  | convert how value type => exact ⟨h.1, h.2.mono hs⟩
  | element base index => exact Operand.Owned.mono h hs
  | _ => exact h

theorem Operation.Confined.mono (h : op.Confined cells own) (hs : own ⊆ own') :
    op.Confined cells own' := by
  cases op with
  | store value address => exact Operand.Aims.mono h hs
  | call callee args =>
    intro hname
    obtain ⟨buffer, rest, hargs, hb⟩ := h hname
    exact ⟨buffer, rest, hargs, hb.mono hs⟩
  | _ => trivial

end IR

namespace Lowering
open IR

variable {c : Context Slot} {op : Operation} {slot : Slot} {name : String}

/-- The cells of slots for the targets, and the one that says whether there is a value. -/
def targetCells (targets : Set String) : Set String :=
  {name | name = resultPresent ∨ ∃ slot : Slot, slot.name ∈ targets ∧ name = slot.symbol}

theorem symbol_mem_targetCells {targets : Set String} (h : slot.name ∈ targets) :
    slot.symbol ∈ targetCells targets :=
  .inr ⟨slot, h, rfl⟩

/-- The function under construction: its code is confined, and its names are known. -/
structure Draft.Secure (cells : Set String) (params : List String) (own : Set String) (d : Draft) :
    Prop where
  confines : Confines cells own d.blocks
  names : ∀ b ∈ d.blocks, ∀ i ∈ b.body, i.name ∈ d.names.used
  known : ∀ x ∈ own, x ∈ d.names.used
  foreign : ∀ x ∈ params, x ∈ d.names.used ∧ x ∉ own

/-- The module and the context: the functions are confined, none of them is called like the one that
formats into a buffer, and slots belong to their names. -/
structure Guarded (targets : Set String) (s : State) : Prop where
  functions : ∀ f, Global.function f ∈ s.globals → f.Confined (targetCells targets)
  callees : ∀ name callee, s.functions.get? name = some callee → callee.name ≠ sprintf.name
  slots : ∀ x symbol, s.context.get? x = some symbol → symbol.storage.name = x
  aims : s.context.Aims targets

structure Secure (targets : Set String) (params : List String) (own : Set String) (s : State) :
    Prop where
  draft : s.draft.Secure (targetCells targets) params own
  guarded : Guarded targets s

/-- Where at least the registers `known` are the function's own, the computation keeps all code
confined; `Q` tells of its result, with the registers that are the function's own afterwards. -/
def Upholds (targets known : Set String) {α : Type} (m : Lower α) (Q : α → Set String → Prop) :
    Prop :=
  ∀ params own s a s', Secure targets params own s → known ⊆ own → m s = .ok a s' →
    ∃ own', own ⊆ own' ∧ Secure targets params own' s' ∧ Q a own'

variable {targets known own : Set String} {params : List String} {α β : Type} {s s' : State}
  {Q : α → Set String → Prop}

theorem Upholds.bind {m : Lower α} {f : α → Lower β} {R : β → Set String → Prop}
    (hm : Upholds targets known m Q)
    (hf : ∀ a known', known ⊆ known' → Q a known' → Upholds targets known' (f a) R) :
    Upholds targets known (m >>= f) R := by
  intro params own s b s'' hs hle h
  obtain ⟨a, s1, h1, h2⟩ := bind_eq_ok.mp h
  obtain ⟨own1, hle1, hs1, ha⟩ := hm params own s a s1 hs hle h1
  obtain ⟨own2, hle2, hs2, hb⟩ := hf a own1 (hle.trans hle1) ha params own1 s1 b s'' hs1 le_rfl h2
  exact ⟨own2, hle1.trans hle2, hs2, hb⟩

theorem Upholds.imp {m : Lower α} {R : α → Set String → Prop} (h : Upholds targets known m Q)
    (hq : ∀ a own, Q a own → R a own) : Upholds targets known m R := by
  intro params own s a s' hs hle hrun
  obtain ⟨own', hle', hs', ha⟩ := h params own s a s' hs hle hrun
  exact ⟨own', hle', hs', hq a own' ha⟩

theorem upholds_pure {a : α} (h : ∀ own, known ⊆ own → Q a own) :
    Upholds targets known (pure a) Q := by
  rintro params own s _ _ hs hle ⟨⟩
  exact ⟨own, subset_rfl, hs, h own hle⟩

/-! ## Primitive steps -/

/-- Nothing that matters has changed. -/
theorem Secure.of_blocks (h : Secure targets params own s)
    (hblocks : ∀ b' ∈ s'.draft.blocks, ∀ i ∈ b'.body, ∃ b ∈ s.draft.blocks, i ∈ b.body)
    (hused : s.used ⊆ s'.used) (hguarded : Guarded targets s') : Secure targets params own s' := by
  refine ⟨⟨?_, ?_, fun x hx => hused (h.draft.known x hx), ?_⟩, hguarded⟩
  · intro b' hb' i hi
    obtain ⟨b, hb, hi⟩ := hblocks b' hb' i hi
    exact h.draft.confines b hb i hi
  · intro b' hb' i hi
    obtain ⟨b, hb, hi⟩ := hblocks b' hb' i hi
    exact hused (h.draft.names b hb i hi)
  · exact fun x hx => ⟨hused (h.draft.foreign x hx).1, (h.draft.foreign x hx).2⟩

/-- The module and the context have changed, but not the function under construction. -/
theorem Secure.of_draft_eq (h : Secure targets params own s) (hd : s'.draft = s.draft)
    (hguarded : Guarded targets s') : Secure targets params own s' := by
  refine ⟨?_, hguarded⟩
  rw [hd]
  exact h.draft

theorem Guarded.withDraft (h : Guarded targets s) (d : Draft) :
    Guarded targets { s with draft := d } := ⟨h.functions, h.callees, h.slots, h.aims⟩

theorem Secure.emitted (h : Secure targets params own s)
    (hop : op.Confined (targetCells targets) own) (wanted : String) :
    ∃ own', own ⊆ own' ∧ Secure targets params own' (s.emitted op wanted) ∧
      (op.Yields own → (s.draft.names.register wanted).1 ∈ own') := by
  set x := (s.draft.names.register wanted).1 with hx
  have hfresh : x ∉ s.used := Names.register_fresh _ _
  have hused : (s.emitted op wanted).draft.names.used = x :: s.used := used_emitted s op wanted
  -- an instruction afterwards is an old one or the new one
  have hcases : ∀ b' ∈ (s.emitted op wanted).draft.blocks, ∀ i ∈ b'.body,
      (∃ b ∈ s.draft.blocks, i ∈ b.body) ∨ i = ⟨x, op⟩ := by
    intro b' hb' i hi
    obtain ⟨b, hb, rfl⟩ := List.mem_map.mp hb'
    split at hi
    · rcases List.mem_append.mp hi with hi | hi
      · exact .inl ⟨b, hb, hi⟩
      · exact .inr (List.mem_singleton.mp hi)
    · exact .inl ⟨b, hb, hi⟩
  have hnames : ∀ b' ∈ (s.emitted op wanted).draft.blocks, ∀ i ∈ b'.body,
      i.name ∈ (s.emitted op wanted).draft.names.used := by
    intro b' hb' i hi
    rw [hused]
    rcases hcases b' hb' i hi with ⟨b, hb, hi⟩ | rfl
    · exact List.mem_cons_of_mem _ (h.draft.names b hb i hi)
    · exact List.mem_cons_self
  have hguarded : Guarded targets (s.emitted op wanted) := h.guarded.withDraft _
  by_cases hy : op.Yields own
  · have hle : own ⊆ insert x own := Set.subset_insert x own
    refine ⟨insert x own, hle, ⟨⟨?_, hnames, ?_, ?_⟩, hguarded⟩, fun _ => Set.mem_insert x own⟩
    · intro b' hb' i hi
      rcases hcases b' hb' i hi with ⟨b, hb, hi⟩ | rfl
      · obtain ⟨hc, hyields⟩ := h.draft.confines b hb i hi
        refine ⟨hc.mono hle, fun hm => ?_⟩
        rcases hm with hm | hm
        · exact absurd (hm ▸ h.draft.names b hb i hi) hfresh
        · exact (hyields hm).mono hle
      · exact ⟨hop.mono hle, fun _ => hy.mono hle⟩
    · rintro y (rfl | hm)
      · exact hused ▸ List.mem_cons_self
      · exact hused ▸ List.mem_cons_of_mem _ (h.draft.known y hm)
    · intro y hy'
      obtain ⟨hm, hn⟩ := h.draft.foreign y hy'
      refine ⟨hused ▸ List.mem_cons_of_mem _ hm, ?_⟩
      rintro (rfl | hm')
      · exact hfresh hm
      · exact hn hm'
  · refine ⟨own, subset_rfl, ⟨⟨?_, hnames, ?_, ?_⟩, hguarded⟩, fun h => absurd h hy⟩
    · intro b' hb' i hi
      rcases hcases b' hb' i hi with ⟨b, hb, hi⟩ | rfl
      · exact h.draft.confines b hb i hi
      · exact ⟨hop, fun hm => absurd (h.draft.known x hm) hfresh⟩
    · exact fun y hm => hused ▸ List.mem_cons_of_mem _ (h.draft.known y hm)
    · exact fun y hy' => ⟨hused ▸ List.mem_cons_of_mem _ (h.draft.foreign y hy').1,
        (h.draft.foreign y hy').2⟩

theorem emit_eq_ok {wanted : String} {o : Operand} (h : emit op wanted s = .ok o s') :
    o = .register (s.draft.names.register wanted).1 op.type ∧ s' = s.emitted op wanted := by
  have hop := emit_inv h
  unfold emit at h
  rw [hop] at h
  cases h
  exact ⟨rfl, rfl⟩

theorem upholds_emit (hop : op.Confined (targetCells targets) known) (wanted : String) :
    Upholds targets known (emit op wanted) fun o own => op.Yields known → o.Owned own := by
  intro params own s o s' hs hle h
  obtain ⟨rfl, rfl⟩ := emit_eq_ok h
  obtain ⟨own', hle', hs', hy⟩ := hs.emitted (hop.mono hle) wanted
  exact ⟨own', hle', hs', fun hyields => hy (hyields.mono hle)⟩

theorem upholds_terminate (t : Terminator) :
    Upholds targets known (terminate t) fun _ _ => True := by
  intro params own s u s' hs _ h
  cases (terminate_run t s).symm.trans h
  refine ⟨own, subset_rfl, hs.of_blocks ?_ ?_ (hs.guarded.withDraft _), trivial⟩
  · intro b' hb' i hi
    obtain ⟨b, hb, rfl⟩ := List.mem_map.mp hb'
    refine ⟨b, hb, ?_⟩
    split at hi <;> exact hi
  · rw [used_ended]
    exact fun _ => List.mem_cons_of_mem _

theorem upholds_enter (label : String) :
    Upholds targets known (enter label) fun _ _ => True := by
  rintro params own s _ _ hs - ⟨⟩
  exact ⟨own, subset_rfl, ⟨⟨hs.draft.confines, hs.draft.names, hs.draft.known, hs.draft.foreign⟩,
    hs.guarded.withDraft _⟩, trivial⟩

theorem upholds_addBlock (wanted : String) :
    Upholds targets known (addBlock wanted) fun _ _ => True := by
  intro params own s label s' hs _ h
  cases (addBlock_run wanted s).symm.trans h
  refine ⟨own, subset_rfl, hs.of_blocks ?_ ?_ (hs.guarded.withDraft _), trivial⟩
  · intro b' hb' i hi
    rcases List.mem_append.mp hb' with hb' | hb'
    · exact ⟨b', hb', hi⟩
    · rw [List.mem_singleton.mp hb'] at hi
      cases hi
  · rw [used_opened]
    exact fun _ => List.mem_cons_of_mem _

theorem Guarded.addGlobals (h : Guarded targets s) {globals : List Global} {names : Names}
    (hg : ∀ f, Global.function f ∈ globals → Global.function f ∈ s.globals) :
    Guarded targets { s with globals, globalNames := names } :=
  ⟨fun f hf => h.functions f (hg f hf), h.callees, h.slots, h.aims⟩

theorem upholds_external (symbol : String) (type : Ty) :
    Upholds targets known (external symbol type) fun o _ => o = .global symbol (.pointer type) := by
  intro params own s o s' hs _ h
  unfold external at h
  rw [bind_ok (get_run s)] at h
  dsimp only at h
  split at h
  · cases h
    refine ⟨own, subset_rfl, hs.of_draft_eq rfl (hs.guarded.addGlobals fun f hf => ?_), rfl⟩
    simpa using hf
  · cases h
    exact ⟨own, subset_rfl, hs, rfl⟩

theorem upholds_textName (contents wanted : String) :
    Upholds targets known (textName contents wanted) fun _ _ => True := by
  intro params own s name s' hs _ h
  rcases textName_run s contents wanted with ⟨name', hrun, -⟩ | hrun
  · rw [hrun] at h
    cases h
    exact ⟨own, subset_rfl, hs, trivial⟩
  · rw [hrun] at h
    cases h
    refine ⟨own, subset_rfl, hs.of_draft_eq rfl (hs.guarded.addGlobals fun f hf => ?_), trivial⟩
    simpa using hf

theorem confined_of_heeds {cells own : Set String} (h : op.Heeds (Operand.Owned own)) :
    op.Confined cells own := by
  cases op with
  | store value address => exact Operand.Owned.aims h
  | call callee args => exact h
  | _ => trivial

theorem yields_of_gains {own : Set String} (h : op.Gains (Operand.Owned own)) : op.Yields own := by
  cases op <;> exact h

/-- A store to what the function has made, or to a cell of a target. -/
theorem upholds_store (value : Operand) {address : Operand}
    (h : address.Aims (targetCells targets) known) (wanted : String) :
    Upholds targets known (emit (.store value address) wanted) fun _ _ => True := by
  have hop : (Operation.store value address).Confined (targetCells targets) known := h
  exact (upholds_emit hop wanted).imp fun _ _ _ => trivial

/-- The discipline of confined code: the worlds are the registers that are the function's own. -/
def confining (targets : Set String) : Discipline .refl 0 (Set String) where
  Keeps known _ m _ Q := Upholds targets known m Q
  Own own o := o.Owned own
  Holds := Guarded targets
  own_mono h hle := h.mono hle
  imp := Upholds.imp
  pure _ := upholds_pure
  bind := Upholds.bind
  fail _ := by rintro params own s a s' hs hle ⟨⟩
  get hf := fun params own s a s' hs hle h => hf s hs.guarded params own s a s' hs hle h
  emit h wanted :=
    (upholds_emit (confined_of_heeds h) wanted).imp fun _ _ hy hg => hy (yields_of_gains hg)
  terminate := upholds_terminate
  enter := upholds_enter
  addBlock := upholds_addBlock
  external _ type := (upholds_external _ type).imp fun _ _ _ => trivial
  textName _ contents := upholds_textName contents _

open Discipline

variable {f : α → β} {m : Lower α} {copy : Lower β}

theorem Discipline.Admits.upholds (h : (confining targets).Admits f m copy) (known : Set String) :
    Upholds targets known m fun _ _ => True := h known

/-! ## Variables -/

theorem confining_writes {symbol : String} (h : symbol ∈ targetCells targets) (type : Ty) :
    (confining targets).Writes symbol type := by
  refine fun _ => (upholds_external _ _).imp fun o _ ho own _ value wanted => ?_
  have haims : o.Aims (targetCells targets) own := by
    rw [ho]
    exact h
  exact upholds_store value haims wanted

/-- Code may store to the slots of a target. -/
theorem confining_writesSlot (h : slot.name ∈ targets) : (confining targets).WritesSlot slot :=
  confining_writes (symbol_mem_targetCells h) _

/-- The slot that a target is assigned to is the target's. -/
theorem upholds_slotFor (scope : Scope) (hn : name ∈ targets) (kind : Kind) :
    Upholds targets known (slotFor scope name kind) fun slot _ => slot.name = name := by
  intro params own s slot s' hs hle h
  rcases slotFor_cases h with ⟨hx, rfl⟩ | ⟨-, rfl, s1, h1, rfl⟩
  · exact ⟨own, subset_rfl, hs, hs.guarded.slots name _ hx⟩
  · have hs0 : Secure targets params own (s.withSlot ⟨name, s.nextSlot, kind⟩) :=
      hs.of_draft_eq rfl ⟨hs.guarded.functions, hs.guarded.callees, hs.guarded.slots,
        hs.guarded.aims⟩
    have hwrites : (confining targets).WritesSlot ⟨name, s.nextSlot, kind⟩ := confining_writesSlot hn
    obtain ⟨own', hle', hs1, -⟩ := (admits_seedSlot scope hwrites _).upholds own params own _ ⟨⟩ s1
      hs0 subset_rfl h1
    refine ⟨own', hle', hs1.of_draft_eq rfl ⟨hs1.guarded.functions, hs1.guarded.callees, ?_,
      hs1.guarded.aims⟩, rfl⟩
    intro x symbol hx
    rw [get?_binding] at hx
    split at hx
    · rename_i heq
      cases hx
      exact heq
    · exact hs1.guarded.slots x symbol hx

theorem upholds_assign (scope : Scope) (hn : name ∈ targets) (value : Option Typed)
    (known : Set String) : Upholds targets known (assign scope name value) fun _ _ => True := by
  cases value with
  | none => rintro params own s a s' hs hle ⟨⟩
  | some t =>
    dsimp only [assign]
    split
    · rintro params own s a s' hs hle ⟨⟩
    · refine (upholds_slotFor scope hn _).bind fun slot own _ hslot => ?_
      have hmem : slot.name ∈ targets := hslot ▸ hn
      exact ((admits_storeSlot (confining_writesSlot hmem) _).upholds own).bind fun _ _ _ _ =>
        upholds_pure fun _ _ => trivial

/-! ## Functions -/

theorem functionName_ne_sprintf (s : State) (name : String) :
    s.functionName name ≠ sprintf.name := by
  intro heq
  have hhead := functionName_head s name
  rw [heq] at hhead
  exact absurd hhead (by decide)

theorem Guarded.declared (h : Guarded targets s) (name : String) (d : Definition) :
    Guarded targets (s.declared name d) := by
  refine ⟨?_, ?_, h.slots, h.aims⟩
  · intro f hf
    rcases List.mem_append.mp hf with hf | hf
    · exact h.functions f hf
    · cases List.mem_singleton.mp hf
      refine ⟨∅, fun _ _ => Set.notMem_empty _, fun b hb => ?_⟩
      cases hb
  · intro other callee hcallee
    rw [State.declared, Table.get?_insert] at hcallee
    split at hcallee
    · cases hcallee
      exact functionName_ne_sprintf s name
    · exact h.callees other callee hcallee

theorem Guarded.closed (h : Guarded targets s) (name : String) {params : List String}
    {blocks : List Block} {own : Set String} (hp : ∀ x ∈ params, x ∉ own)
    (hb : Confines (targetCells targets) own blocks) :
    Guarded targets (s.closed name params blocks) := by
  refine ⟨?_, h.callees, h.slots, h.aims⟩
  intro f hf
  obtain ⟨g, hg, hgf⟩ := List.mem_map.mp hf
  cases g with
  | function f' =>
    simp only [Global.function.injEq] at hgf
    subst hgf
    split
    · exact ⟨own, hp, hb⟩
    · exact h.functions f' hg
  | external name type => cases hgf
  | text name contents => cases hgf

/-- At the start of a function nothing is its own but what it will make. -/
theorem secure_draft (cells : Set String) (d : Definition) :
    (Definition.draft d).Secure cells (Definition.paramNames d) ∅ := by
  have hempty : ∀ b ∈ (Definition.draft d).blocks, b.body = [] := by
    intro b hb
    rw [List.mem_singleton.mp hb]
  refine ⟨?_, ?_, fun _ h => absurd h (Set.notMem_empty _), fun x hx => ?_⟩
  · intro b hb i hi
    rw [hempty b hb] at hi
    cases hi
  · intro b hb i hi
    rw [hempty b hb] at hi
    cases hi
  · exact ⟨(paramNames_spec d).2.2 hx, Set.notMem_empty _⟩

/-- A function is added while another one is under construction, and that one stays as it is. -/
theorem upholds_emitFunction (name : String) (d : Definition) {lowerBody : Scope → Lower Lowered}
    (hb : ∀ inner known, Upholds targets known (lowerBody inner) fun _ _ => True) :
    Upholds targets known (emitFunction name d lowerBody)
      fun callee _ => callee.name ≠ sprintf.name := by
  intro params own s callee s' hs _ h
  obtain ⟨b, s1, s2, h1, h2, rfl, rfl⟩ := emitFunction_inv h
  have hs0 : Secure targets (Definition.paramNames d) ∅
      { s.declared name d with draft := Definition.draft d } :=
    ⟨secure_draft _ d, (hs.guarded.declared name d).withDraft _⟩
  obtain ⟨own1, -, hs1, -⟩ := hb _ ∅ _ ∅ _ b s1 hs0 subset_rfl h1
  obtain ⟨own2, -, hs2, -⟩ := (admits_returnValue _ _).upholds own1 _ own1 s1 ⟨⟩ s2 hs1 subset_rfl h2
  have hclosed := hs2.guarded.closed (s.functionName name)
    (fun x hx => (hs2.draft.foreign x hx).2) hs2.draft.confines
  exact ⟨own, subset_rfl, ⟨hs.draft, hclosed.withDraft _⟩, functionName_ne_sprintf s name⟩

/-! ## Trees -/

variable {earlier : Earlier}

/-- The functions of earlier submissions are confined as well. -/
def Earlier.Harmless (targets : Set String) (earlier : Earlier) : Prop :=
  ∀ name d, (∀ x ∈ d.body.targets, x ∈ targets) →
    ∀ known, Upholds targets known (earlier name d) fun callee _ => callee.name ≠ sprintf.name

theorem upholds_lower (he : earlier.Harmless targets) (node : Node)
    (hn : ∀ x ∈ node.targets, x ∈ targets) (scope : Scope) (known : Set String) :
    Upholds targets known (lower earlier scope node) fun _ _ => True := by
  have htrees : (confining targets).Trees earlier (fun node => ∀ x ∈ node.targets, x ∈ targets)
      fun callee => callee.name ≠ sprintf.name := by
    refine ⟨fun hn hc x hx => hn x (Node.targets_subset hc hx),
      fun {_ name d} hs hd => hs.aims name d hd, fun {_ name callee} hs hf => hs.callees name callee hf,
      fun {name d} hd => he name d hd, fun hc _ wanted => admits_emit (plain_call hc) wanted, ?_, ?_,
      ?_⟩
    · exact fun hn scope value =>
        upholds_assign scope (hn _ (List.mem_append_left _ (Node.mem_assigned_self _ _))) value
    · intro name node s symbol hn hnode hs hx _
      refine confining_writesSlot ?_
      rw [hs.slots name symbol hx]
      refine hn name ?_
      rcases hnode with rfl | rfl <;> simp [Node.targets, Node.stepped, Node.subtrees]
    · intro name params body hn part scope known outer own s r s' hs hle h
      have hbody : ∀ x ∈ body.targets, x ∈ targets := fun x hx =>
        hn x (Node.targets_subset (by simp [Node.children]) hx)
      obtain ⟨callee, hcallee, -⟩ := lower_define h
      have hs1 : Secure targets outer own
          { s with context := s.context.addFunction name (s.definition name params body) } := by
        refine hs.of_draft_eq rfl ⟨hs.guarded.functions, hs.guarded.callees, hs.guarded.slots, ?_⟩
        intro f d hd
        simp only [Context.getFunction?, Context.addFunction, Table.get?_insert] at hd
        split at hd
        · cases hd
          exact hbody
        · exact hs.guarded.aims f d hd
      obtain ⟨own', hle', hs', -⟩ :=
        upholds_emitFunction name _ part outer own _ callee s' hs1 hle hcallee
      exact ⟨own', hle', hs', trivial⟩
  exact htrees.lower node hn scope known

theorem confining_emitEarlier (targets : Set String) (depth : Nat) :
    (emitEarlier depth).Harmless targets := by
  induction depth with
  | zero =>
    rintro name d hd known params own s callee s' hs hle ⟨⟩
  | succ depth ih =>
    exact fun name d hd known => upholds_emitFunction name d fun inner =>
      upholds_lower ih d.body hd inner

/-! ## Submissions -/

theorem mem_foldl_declaring (signatures : List Signature) (s : State) {f : Function}
    (hf : Global.function f ∈ (signatures.foldl State.declaring s).globals) :
    Global.function f ∈ s.globals ∨ f.blocks = [] := by
  induction signatures generalizing s with
  | nil => exact .inl hf
  | cons signature rest ih =>
    rcases ih (s.declaring signature) hf with hf | hf
    · rcases List.mem_append.mp hf with hf | hf
      · exact .inl hf
      · cases List.mem_singleton.mp hf
        exact .inr rfl
    · exact .inr hf

theorem secure_begun (haims : c.Aims targets)
    (hslots : ∀ x symbol, c.get? x = some symbol → symbol.storage.name = x) (nextSlot : Nat)
    (entry : String) (kind : Kind) :
    Secure targets [] ∅ (State.begun { context := c, nextSlot } entry kind) := by
  refine ⟨⟨?_, ?_, fun _ h => absurd h (Set.notMem_empty _), fun _ h => absurd h List.not_mem_nil⟩,
    ⟨?_, ?_, ?_, ?_⟩⟩
  · intro b hb i hi
    rw [List.mem_singleton.mp hb] at hi
    cases hi
  · intro b hb i hi
    rw [List.mem_singleton.mp hb] at hi
    cases hi
  · intro f hf
    rcases mem_foldl_declaring _ _ hf with hf | hf
    · cases hf
    · refine ⟨∅, fun _ _ => Set.notMem_empty _, fun b hb => ?_⟩
      rw [hf] at hb
      cases hb
  · intro name callee hcallee
    rw [State.functions_begun] at hcallee
    cases hcallee
  · rwa [State.context_begun]
  · rwa [State.context_begun]

/-- The functions of a lowered submission store only to cells of what it may assign or step, and to
what they have made themselves. -/
theorem lowerSubmission_confined {number nextSlot next : Nat} {node : Node} {a : Artifact}
    (haims : c.Aims targets) (hn : ∀ x ∈ node.targets, x ∈ targets)
    (hslots : ∀ x symbol, c.get? x = some symbol → symbol.storage.name = x)
    (h : lowerSubmission c number nextSlot node = (.ok a, next)) :
    ∀ f, Global.function f ∈ a.module.globals → f.Confined (targetCells targets) := by
  obtain ⟨r, s1, s2, h1, h2, rfl, -⟩ := lowerSubmission_inv h
  obtain ⟨o, s3, s4, s5, hcoerce, hpresence, hreturn, rfl⟩ := closeEntry_inv h2
  obtain ⟨own1, -, hs1, -⟩ := upholds_lower (confining_emitEarlier targets _) node hn {} ∅ [] ∅ _ r
    s1 (secure_begun haims hslots nextSlot _ _) subset_rfl h1
  obtain ⟨own3, -, hs3, -⟩ := (admits_coerce _ _).upholds own1 [] own1 s1 o s3 hs1 subset_rfl hcoerce
  obtain ⟨own4, -, hs4, -⟩ := (admits_storePresence (confining_writes (.inl rfl) _) _).upholds own3 []
    own3 s3 ⟨⟩ s4 hs3 subset_rfl hpresence
  obtain ⟨own5, -, hs5, -⟩ := (admits_returnResult _ _).upholds own4 [] own4 s4 ⟨⟩ s5 hs4 subset_rfl
    hreturn
  have hnone : ∀ x ∈ ([] : List String), x ∉ own5 := fun _ h => absurd h List.not_mem_nil
  exact (hs5.guarded.closed (entryName number) hnone hs5.draft.confines).functions

end Lowering
end DualEngine
