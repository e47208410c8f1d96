import DualEngine.Proofs.Inversion
import DualEngine.Proofs.Predictions
import DualEngine.Proofs.Variables

/-! # Renaming

Slots and entry functions are numbered through a session, and these numbers are all that a module
shows of the submissions before it. A renaming changes the numbers wherever they occur: in modules,
in contexts and in the state of lowering. Types, kinds and predictions do not depend on them.
-/
namespace DualEngine

/-- What a computation ends in, with another value and another state. -/
def mapResult {ε σ τ α β : Type} (f : α → β) (r : σ → τ) :
    EStateM.Result ε σ α → EStateM.Result ε τ β
  | .ok a s => .ok (f a) (r s)
  | .error e s => .error e (r s)

/-! ## Tables -/

namespace Table
variable {α β : Type} {f : String → String} (g : α → β)

/-- The table with other names and values. -/
def rename (f : String → String) (g : α → β) (t : Table α) : Table β :=
  ⟨t.entries.map fun entry => (f entry.1, g entry.2)⟩

theorem get?_rename (hf : Function.Injective f) (t : Table α) (name : String) :
    (t.rename f g).get? (f name) = (t.get? name).map g := by
  obtain ⟨entries⟩ := t
  simp only [rename, get?]
  induction entries with
  | nil => rfl
  | cons entry rest ih =>
    rw [List.map_cons, find?, find?, ih]
    simp only [hf.eq_iff]
    split <;> rfl

theorem contains_rename (hf : Function.Injective f) (t : Table α) (name : String) :
    (t.rename f g).contains (f name) = t.contains name := by
  rw [contains, contains, get?_rename g hf, Option.isSome_map]

theorem insert_rename (hf : Function.Injective f) (t : Table α) (name : String) (value : α) :
    (t.rename f g).insert (f name) (g value) = (t.insert name value).rename f g := by
  obtain ⟨entries⟩ := t
  simp only [rename, insert, mk.injEq]
  induction entries with
  | nil => rfl
  | cons entry rest ih =>
    rw [List.map_cons, put, put, ih]
    simp only [hf.eq_iff]
    split <;> rfl

theorem ofList_rename (hf : Function.Injective f) (bindings : List (String × α)) :
    (ofList bindings).rename f g = ofList (bindings.map fun entry => (f entry.1, g entry.2)) := by
  have hfold (t : Table α) :
      (bindings.foldl (fun t binding => t.insert binding.1 binding.2) t).rename f g =
        (bindings.map fun entry => (f entry.1, g entry.2)).foldl
          (fun t binding => t.insert binding.1 binding.2) (t.rename f g) := by
    induction bindings generalizing t with
    | nil => rfl
    | cons binding rest ih =>
      rw [List.foldl_cons, ih, List.map_cons, List.foldl_cons, insert_rename g hf]
  exact hfold {}

end Table

/-! ## Names -/

/-- The name of an entry function. -/
def Lowering.entryName (number : Nat) : String := "repl_entry_" ++ toString number

theorem Lowering.entryName_head (number : Nat) : (entryName number).toList.head? = some 'r' := by
  simp [entryName, String.toList_append]

/-- The name is the symbol of a slot or the name of an entry function. -/
def Numbered (name : String) : Prop :=
  (∃ slot : Slot, name = slot.symbol) ∨ ∃ n, name = Lowering.entryName n

theorem not_numbered {name : String} (h : name.toList.take 6 ≠ ['d', 'u', 'e', 't', '.', 'v'])
    (h' : name.toList.take 6 ≠ ['r', 'e', 'p', 'l', '_', 'e']) : ¬ Numbered name := by
  rintro (⟨slot, rfl⟩ | ⟨n, rfl⟩)
  · exact h (by simp [Slot.symbol, String.toList_append])
  · exact h' (by simp [Lowering.entryName, String.toList_append])

/-- Other numbers for slots and for entry functions, different for different ones. -/
structure Renaming where
  number : Nat → Nat
  entry : Nat → Nat
  number_injective : Function.Injective number
  entry_injective : Function.Injective entry

theorem Lowering.entryName_injective : Function.Injective Lowering.entryName := by
  intro m n h
  have hlist : "repl_entry_".toList ++ (toString m).toList =
      "repl_entry_".toList ++ (toString n).toList := by
    simpa [Lowering.entryName, String.toList_append] using congrArg String.toList h
  have hrepr := String.toList_inj.mp (List.append_cancel_left hlist)
  rw [Nat.toString_eq_repr, Nat.toString_eq_repr] at hrepr
  exact Nat.repr_injective hrepr

theorem symbol_ne_entryName (slot : Slot) (n : Nat) : slot.symbol ≠ Lowering.entryName n := by
  intro h
  have hhead := slot.symbol_head
  rw [h, Lowering.entryName_head] at hhead
  cases hhead

namespace Renaming

def refl : Renaming := ⟨id, id, Function.injective_id, Function.injective_id⟩

/-- Slots from `slots` on and entry functions from `entries` on have higher numbers. -/
def shift (slots d entries e : Nat) : Renaming where
  number n := if n < slots then n else n + d
  entry n := if n < entries then n else n + e
  number_injective := by
    intro m n h
    dsimp only at h
    split at h <;> split at h <;> omega
  entry_injective := by
    intro m n h
    dsimp only at h
    split at h <;> split at h <;> omega

def slot (ρ : Renaming) (slot : Slot) : Slot := { slot with number := ρ.number slot.number }

open Classical in
/-- The name with its number changed, if it has one. -/
noncomputable def name (ρ : Renaming) (x : String) : String :=
  if h : ∃ slot : Slot, x = slot.symbol then (ρ.slot h.choose).symbol
  else if h : ∃ n, x = Lowering.entryName n then Lowering.entryName (ρ.entry h.choose)
  else x

variable (ρ : Renaming)

theorem symbol_slot_eq {s t : Slot} (h : s.symbol = t.symbol) :
    (ρ.slot s).symbol = (ρ.slot t).symbol := by
  obtain ⟨hname, hnumber⟩ := Slot.symbol_injective h
  simp only [Slot.symbol, Renaming.slot, hname, hnumber]

theorem name_symbol (slot : Slot) : ρ.name slot.symbol = (ρ.slot slot).symbol := by
  have h : ∃ other : Slot, slot.symbol = other.symbol := ⟨slot, rfl⟩
  rw [name, dif_pos h]
  exact ρ.symbol_slot_eq h.choose_spec.symm

theorem name_entryName (n : Nat) : ρ.name (Lowering.entryName n) = Lowering.entryName (ρ.entry n) := by
  have hnot : ¬ ∃ slot : Slot, Lowering.entryName n = slot.symbol :=
    fun ⟨slot, h⟩ => symbol_ne_entryName slot n h.symm
  have h : ∃ m, Lowering.entryName n = Lowering.entryName m := ⟨n, rfl⟩
  rw [name, dif_neg hnot, dif_pos h, ← Lowering.entryName_injective h.choose_spec]

theorem name_other {x : String} (h : ¬ Numbered x) : ρ.name x = x := by
  rw [name, dif_neg fun hs => h (.inl hs), dif_neg fun hn => h (.inr hn)]

theorem numbered_name {x : String} : Numbered (ρ.name x) ↔ Numbered x := by
  constructor
  · intro h
    by_contra hx
    exact hx (ρ.name_other hx ▸ h)
  · rintro (⟨slot, rfl⟩ | ⟨n, rfl⟩)
    · exact .inl ⟨_, ρ.name_symbol slot⟩
    · exact .inr ⟨_, ρ.name_entryName n⟩

theorem injective : Function.Injective ρ.name := by
  intro x y h
  by_cases hx : Numbered x
  · have hy : Numbered y := ρ.numbered_name.mp (h ▸ ρ.numbered_name.mpr hx)
    rcases hx with ⟨slot, rfl⟩ | ⟨m, rfl⟩ <;> rcases hy with ⟨other, rfl⟩ | ⟨n, rfl⟩
    · rw [name_symbol, name_symbol] at h
      obtain ⟨hname, hnumber⟩ := Slot.symbol_injective h
      simp only [Slot.symbol, show slot.name = other.name from hname,
        ρ.number_injective hnumber]
    · rw [name_symbol, name_entryName] at h
      exact absurd h (symbol_ne_entryName _ _)
    · rw [name_symbol, name_entryName] at h
      exact absurd h.symm (symbol_ne_entryName _ _)
    · rw [name_entryName, name_entryName] at h
      rw [ρ.entry_injective (Lowering.entryName_injective h)]
  · have hy : ¬ Numbered y := fun hy => hx (ρ.numbered_name.mp (h ▸ ρ.numbered_name.mpr hy))
    rwa [ρ.name_other hx, ρ.name_other hy] at h

/-- A name that starts like no numbered one stays. -/
theorem name_eq {name : String} (h : name.toList.take 6 ≠ ['d', 'u', 'e', 't', '.', 'v'])
    (h' : name.toList.take 6 ≠ ['r', 'e', 'p', 'l', '_', 'e']) : ρ.name name = name :=
  ρ.name_other (not_numbered h h')

theorem name_eq_iff {name fixed : String} (h : fixed.toList.take 6 ≠ ['d', 'u', 'e', 't', '.', 'v'])
    (h' : fixed.toList.take 6 ≠ ['r', 'e', 'p', 'l', '_', 'e']) :
    ρ.name name = fixed ↔ name = fixed := by
  conv_lhs => rw [← ρ.name_eq h h']
  exact ρ.injective.eq_iff

theorem name_of_head {name : String} {c : Char} (h : name.toList.head? = some c)
    (hc : c ≠ 'd' ∧ c ≠ 'r') : ρ.name name = name := by
  obtain ⟨rest, hrest⟩ : ∃ rest, name.toList = c :: rest := by
    cases hlist : name.toList with
    | nil => simp [hlist] at h
    | cons b rest =>
      rw [hlist] at h
      cases h
      exact ⟨rest, rfl⟩
  refine ρ.name_eq ?_ ?_
  · simp [hrest, hc.1]
  · simp [hrest, hc.2]

end Renaming

/-! ## Modules -/

namespace IR
variable (f : String → String)

def Operand.rename : Operand → Operand
  | .global name type => .global (f name) type
  | o => o

@[simp] theorem Operand.type_rename (o : Operand) : (o.rename f).type = o.type := by
  cases o <;> rfl

def Signature.rename (s : Signature) : Signature := { s with name := f s.name }

def Operation.rename : Operation → Operation
  | .binary op left right => .binary op (left.rename f) (right.rename f)
  | .icmp test left right => .icmp test (left.rename f) (right.rename f)
  | .fcmp test left right => .fcmp test (left.rename f) (right.rename f)
  | .convert how value type => .convert how (value.rename f) type
  | .load address => .load (address.rename f)
  | .store value address => .store (value.rename f) (address.rename f)
  | .alloca type => .alloca type
  | .element base index => .element (base.rename f) (index.rename f)
  | .select condition yes no => .select (condition.rename f) (yes.rename f) (no.rename f)
  | .phi type incoming => .phi type (incoming.map fun i => (i.1.rename f, i.2))
  | .call callee args => .call (callee.rename f) (args.map (Operand.rename f))

@[simp] theorem Operation.type_rename (op : Operation) : (op.rename f).type = op.type := by
  cases op <;> simp [Operation.rename, Operation.type, Signature.rename]

theorem argumentMisfit?_rename (place : Nat) (params : List Ty) (args : List Operand) :
    argumentMisfit? place params (args.map (Operand.rename f)) =
      argumentMisfit? place params args := by
  induction params generalizing place args with
  | nil => rfl
  | cons type params ih =>
    cases args with
    | nil => rfl
    | cons arg args => simp [argumentMisfit?, ih]

theorem Operation.misfit?_rename (op : Operation) : (op.rename f).misfit? = op.misfit? := by
  cases op with
  | call callee args => exact argumentMisfit?_rename f 1 callee.params args
  | _ => simp [Operation.rename, Operation.misfit?]

def Instruction.rename (i : Instruction) : Instruction := ⟨i.name, i.operation.rename f⟩

def Terminator.rename : Terminator → Terminator
  | .branch condition yes no => .branch (condition.rename f) yes no
  | .ret value => .ret (value.rename f)
  | t => t

def Block.rename (b : Block) : Block where
  label := b.label
  body := b.body.map (Instruction.rename f)
  terminator := b.terminator.map (Terminator.rename f)

def Function.rename (g : Function) : Function where
  signature := g.signature.rename f
  params := g.params
  blocks := g.blocks.map (Block.rename f)

def Global.rename : Global → Global
  | .function g => .function (g.rename f)
  | .external name type => .external (f name) type
  | .text name contents => .text (f name) contents

def Module.rename (m : Module) : Module := ⟨m.globals.map (Global.rename f)⟩

/-! ## Name scopes -/

namespace Names

def rename (names : Names) : Names := ⟨names.used.map f, names.counters.rename f id⟩

variable {f}

theorem contains_map (hf : Function.Injective f) (used : List String) (x : String) :
    (used.map f).contains (f x) = used.contains x := by
  rw [Bool.eq_iff_iff]
  simp [hf.eq_iff]

/-- A name that stays, however it is numbered, is given in the same way. -/
theorem register_rename (hf : Function.Injective f) (names : Names) {wanted : String}
    (hw : f wanted = wanted) (hn : ∀ n, f (numbered wanted n) = numbered wanted n) :
    (names.rename f).register wanted =
      (f (names.register wanted).1, (names.register wanted).2.rename f) := by
  have hcontains : (names.used.map f).contains wanted = names.used.contains wanted := by
    rw [← contains_map hf names.used wanted, hw]
  have hfree (limit n : Nat) :
      firstFree (names.used.map f) wanted limit n = firstFree names.used wanted limit n := by
    induction limit generalizing n with
    | zero => rfl
    | succ limit ih =>
      have hnumber : (names.used.map f).contains (numbered wanted n) =
          names.used.contains (numbered wanted n) := by
        rw [← contains_map hf names.used (numbered wanted n), hn]
      rw [firstFree, firstFree, hnumber, ih]
  have hcounter : (names.counters.rename f id).get? wanted = names.counters.get? wanted := by
    have := Table.get?_rename (id : Nat → Nat) hf names.counters wanted
    rw [hw] at this
    simpa using this
  have hinsert (n : Nat) : (names.counters.rename f id).insert wanted n =
      (names.counters.insert wanted n).rename f id := by
    have := Table.insert_rename (id : Nat → Nat) hf names.counters wanted n
    rwa [hw] at this
  unfold register rename
  simp only [hcontains, List.length_map, hfree, hcounter, hinsert]
  split
  · simp [hn]
  · simp [hw]

/-- A name that is new is given as it is. -/
theorem register_rename_new (hf : Function.Injective f) (names : Names) {wanted : String}
    (hnew : names.used.contains wanted = false) :
    (names.rename f).register (f wanted) =
      (f (names.register wanted).1, (names.register wanted).2.rename f) := by
  have hcontains : (names.used.map f).contains (f wanted) = false := by
    rw [contains_map hf, hnew]
  unfold register rename
  simp only [hcontains, hnew, Bool.false_eq_true, if_false, List.map_cons]

end Names
end IR

/-! ## Contexts -/

def Symbol.rename (ρ : Renaming) (s : Symbol Slot) : Symbol Slot := ⟨ρ.slot s.storage, s.kind⟩

namespace Context
variable (ρ : Renaming) (c : Context Slot)

def rename : Context Slot := { c with symbols := c.symbols.rename id (Symbol.rename ρ) }

theorem get?_rename (x : String) : (c.rename ρ).get? x = (c.get? x).map (Symbol.rename ρ) :=
  Table.get?_rename _ Function.injective_id c.symbols x

theorem add_rename (x : String) (slot : Slot) (kind : Kind) :
    (c.rename ρ).add x (ρ.slot slot) kind = (c.add x slot kind).rename ρ :=
  congrArg (fun symbols => (⟨symbols, c.functions, c.version + 1⟩ : Context Slot))
    (Table.insert_rename (Symbol.rename ρ) Function.injective_id c.symbols x ⟨slot, kind⟩)

theorem alike_rename (s : Prediction.State) : Prediction.Alike (c.rename ρ) s c s := by
  refine ⟨fun x => ?_, fun f => rfl⟩
  rw [Prediction.name?, Prediction.name?, get?_rename]
  cases c.get? x <;> rfl

/-- Predictions do not see the numbers. -/
theorem predictResult_rename (node : Node) :
    Prediction.predictResult (c.rename ρ) node = Prediction.predictResult c node :=
  (Prediction.predict_alike node (c.alike_rename ρ {})).1

theorem predictFunction_rename (name : String) (params : List String) (body : Node) :
    (Prediction.predictFunction (c.rename ρ) {} {} name params body).1 =
      (Prediction.predictFunction c {} {} name params body).1 :=
  Prediction.returnKind_alike name params (fun h => Prediction.predict_alike body h)
    (c.alike_rename ρ {}) [] []

end Context

/-! ## The state of lowering -/

namespace Lowering
open IR

variable (ρ : Renaming) (d : Nat)

noncomputable def Typed.rename (t : Typed) : Typed := ⟨t.operand.rename ρ.name, t.kind⟩

noncomputable def Lowered.rename (r : Lowered) : Lowered where
  value := r.value.map (Typed.rename ρ)
  ran := r.ran.map (Operand.rename ρ.name)

noncomputable def LoopCells.rename (cells : LoopCells) : LoopCells where
  value := cells.value.rename ρ.name
  ran := cells.ran.rename ρ.name
  kind := cells.kind

noncomputable def Scope.rename (scope : Scope) : Scope :=
  { scope with params := scope.params.rename id (Operand.rename ρ.name) }

noncomputable def Draft.rename (draft : Draft) : Draft :=
  { draft with blocks := draft.blocks.map (Block.rename ρ.name) }

/-- The slots that are made next have numbers higher by `d`. -/
noncomputable def State.rename (s : State) : State where
  context := s.context.rename ρ
  nextSlot := s.nextSlot + d
  created := s.created.map ρ.slot
  globals := s.globals.map (Global.rename ρ.name)
  globalNames := s.globalNames.rename ρ.name
  functions := s.functions.rename id (Signature.rename ρ.name)
  draft := s.draft.rename ρ

theorem Scope.get?_rename (scope : Scope) (name : String) :
    (scope.rename ρ).params.get? name = (scope.params.get? name).map (Operand.rename ρ.name) :=
  Table.get?_rename _ Function.injective_id scope.params name

theorem Scope.contains_rename (scope : Scope) (name : String) :
    (scope.rename ρ).params.contains name = scope.params.contains name :=
  Table.contains_rename _ Function.injective_id scope.params name

theorem State.get?_rename (s : State) (name : String) :
    (s.rename ρ d).context.get? name = (s.context.get? name).map (Symbol.rename ρ) :=
  s.context.get?_rename ρ name

theorem State.functions_rename (s : State) (name : String) :
    (s.rename ρ d).functions.get? name = (s.functions.get? name).map (Signature.rename ρ.name) :=
  Table.get?_rename _ Function.injective_id s.functions name

@[simp] theorem kindOf_rename (t : Option Typed) : kindOf (t.map (Typed.rename ρ)) = kindOf t := by
  cases t <;> rfl

end Lowering
end DualEngine
