import DualEngine.Proofs.Stores

/-! # Where stored texts come from

The constants of a module are freed after its run, so a slot for texts has to be given texts that
stay. An assignment stores a copy. A slot that is seeded before a branch is given a text out of a
buffer or the empty text, except if the variable was a bool: the text of a bool is a constant of the
module, and it is stored as it is.
-/
namespace DualEngine

namespace IR

/-- The last operation in the code that set the operand's register. -/
def definition? (code : List Instruction) : Operand → Option Operation
  | .register x _ => (code.reverse.find? fun i => i.name == x).map Instruction.operation
  | _ => none

/-- The operation gives a text that outlives the module: a copy, a new buffer, or the empty text
that belongs to no module. -/
def Operation.Lasts : Operation → Prop
  | .call callee _ => callee = Lowering.strdup ∨ callee = Lowering.malloc
  | .convert .bitcast (.global name _) _ => name = Lowering.emptyText
  | _ => False

instance (op : Operation) : Decidable op.Lasts := by
  unfold Operation.Lasts
  split <;> infer_instance

/-- The operation gives a pointer to a constant of the module. -/
def Operation.PointsAt (globals : List Global) (contents : String) (op : Operation) : Prop :=
  ∃ name, Global.text name contents ∈ globals ∧
    op = .convert .bitcast (.global name (.pointer (textType contents))) .text

/-- The operation stores to a variable outside the module that holds a text. -/
def Operation.StoresText : Operation → Prop
  | .store _ (.global _ type) => type = .pointer .text
  | _ => False

def Operand.IsRegister : Operand → Prop
  | .register _ _ => True
  | _ => False

theorem not_storesText_of_register {value address : Operand} (h : address.IsRegister) :
    ¬ (Operation.store value address).StoresText := by
  cases address with
  | register x type => exact id
  | _ => exact h.elim

theorem Operation.PointsAt.not_storesText {globals : List Global} {contents : String}
    {op : Operation} (h : op.PointsAt globals contents) : ¬ op.StoresText := by
  obtain ⟨name, -, rfl⟩ := h
  exact id

variable {code more : List Instruction} {o : Operand} {op : Operation}

theorem definition?_last (code : List Instruction) (x : String) (op : Operation) (type : Ty) :
    definition? (code ++ [⟨x, op⟩]) (.register x type) = some op := by
  simp [definition?]

/-- Code in front makes no difference to a register that is set after it. -/
theorem definition?_front (more : List Instruction) (h : definition? code o = some op) :
    definition? (more ++ code) o = some op := by
  cases o with
  | register x type =>
    obtain ⟨i, hi, rfl⟩ := Option.map_eq_some_iff.mp h
    simp [definition?, hi]
  | _ => cases h

/-- Code that sets other registers makes no difference. -/
theorem definition?_later {used : List String} {x : String} {type : Ty} (hx : x ∈ used)
    (hmore : ∀ i ∈ more, i.name ∉ used) (h : definition? code (.register x type) = some op) :
    definition? (code ++ more) (.register x type) = some op := by
  have hnone : more.reverse.find? (fun i => i.name == x) = none := by
    rw [List.find?_eq_none]
    intro i hi heq
    exact hmore i (List.mem_reverse.mp hi) (beq_iff_eq.mp heq ▸ hx)
  rw [definition?, List.reverse_append, List.find?_append, hnone, Option.none_or]
  exact h

end IR

namespace Lowering
open IR

/-- The operand is the text of the bool `old`, out of the module's constants. -/
def BoolText (globals : List Global) (code : List Instruction) (old value : Operand) : Prop :=
  ∃ yes no, definition? code value = some (.select old yes no) ∧
    (∃ op ∈ definition? code yes, op.PointsAt globals "true") ∧
    ∃ op ∈ definition? code no, op.PointsAt globals "false"

/-- The operand is the text of what the variable of the slot held while it was a bool. -/
def SeededByBool (globals : List Global) (code : List Instruction) (slot : Slot) (value : Operand) :
    Prop :=
  ∃ (former : Slot) (old : Operand), former.name = slot.name ∧ former.kind = .bool ∧
    definition? code old = some (.load (.global former.symbol (.pointer .i1))) ∧
    BoolText globals code old value

/-- What may be stored to a slot for texts: a text that lasts, or the text of a bool. -/
def Source (globals : List Global) (code : List Instruction) (slot : Slot) (value : Operand) :
    Prop :=
  (∃ op ∈ definition? code value, op.Lasts) ∨ SeededByBool globals code slot value

/-- Every store to a slot for texts has such a source in the code before it. -/
def Sourced (globals : List Global) (body : List Instruction) : Prop :=
  ∀ before i after, body = before ++ i :: after → ∀ (slot : Slot) (value : Operand),
    slot.kind = .string → i.operation = .store value (.global slot.symbol (.pointer .text)) →
    Source globals before slot value

end Lowering

/-- The blocks of a module's functions. -/
def IR.Module.blocks (m : IR.Module) : List IR.Block :=
  m.globals.flatMap fun
    | .function f => f.blocks
    | _ => []

theorem IR.Module.mem_blocks {m : IR.Module} {b : IR.Block} (h : b ∈ m.blocks) :
    ∃ f, IR.Global.function f ∈ m.globals ∧ b ∈ f.blocks := by
  obtain ⟨g, hg, hb⟩ := List.mem_flatMap.mp h
  cases g with
  | function f => exact ⟨f, hg, hb⟩
  | _ => cases hb

/-- All stores of a module to slots for texts have sources. -/
def IR.Module.Sourced (m : IR.Module) : Prop := ∀ b ∈ m.blocks, Lowering.Sourced m.globals b.body

namespace Lowering
open IR

variable {globals globals' : List Global} {code more : List Instruction} {old value : Operand}
  {slot : Slot} {c : Context Slot}

/-- The constants of one module are in another one. -/
def TextsIn (globals globals' : List Global) : Prop :=
  ∀ name contents, Global.text name contents ∈ globals → Global.text name contents ∈ globals'

theorem BoolText.mono (h : BoolText globals code old value) (hg : TextsIn globals globals') :
    BoolText globals' code old value := by
  obtain ⟨yes, no, hvalue, ⟨op, hop, name, hm, heq⟩, op', hop', name', hm', heq'⟩ := h
  exact ⟨yes, no, hvalue, ⟨op, hop, name, hg _ _ hm, heq⟩, op', hop', name', hg _ _ hm', heq'⟩

theorem BoolText.front (h : BoolText globals code old value) (more : List Instruction) :
    BoolText globals (more ++ code) old value := by
  obtain ⟨yes, no, hvalue, ⟨op, hop, hyes⟩, op', hop', hno⟩ := h
  exact ⟨yes, no, definition?_front more hvalue, ⟨op, definition?_front more hop, hyes⟩,
    op', definition?_front more hop', hno⟩

theorem Source.mono (h : Source globals code slot value) (hg : TextsIn globals globals') :
    Source globals' code slot value := by
  rcases h with hlasts | ⟨former, old, hname, hkind, hold, htext⟩
  · exact .inl hlasts
  · exact .inr ⟨former, old, hname, hkind, hold, htext.mono hg⟩

theorem Source.front (h : Source globals code slot value) (more : List Instruction) :
    Source globals (more ++ code) slot value := by
  rcases h with ⟨op, hop, hlasts⟩ | ⟨former, old, hname, hkind, hold, htext⟩
  · exact .inl ⟨op, definition?_front more hop, hlasts⟩
  · exact .inr ⟨former, old, hname, hkind, definition?_front more hold, htext.front more⟩

theorem Sourced.mono (h : Sourced globals code) (hg : TextsIn globals globals') :
    Sourced globals' code :=
  fun before i after hbody slot value hk hi => (h before i after hbody slot value hk hi).mono hg

/-- Code that stores to no such slot. -/
theorem sourced_of_not_storesText (h : ∀ i ∈ code, ¬ i.operation.StoresText) :
    Sourced globals code := by
  rintro before i after rfl slot value - hi
  refine absurd ?_ (h i (by simp))
  rw [hi]
  rfl

/-- Code after code, where each has the sources of its own stores. -/
theorem Sourced.append (h : Sourced globals code) (h' : Sourced globals more) :
    Sourced globals (code ++ more) := by
  intro before i after hbody slot value hk hi
  rcases List.append_eq_append_iff.mp hbody with ⟨rest, rfl, hmore⟩ | ⟨rest, rfl, hcode⟩
  · exact (h' rest i after hmore slot value hk hi).front code
  · cases rest with
    | nil => simpa using (h' [] i after hcode.symm slot value hk hi).front before
    | cons j rest =>
      obtain ⟨rfl, -⟩ := List.cons.inj hcode
      exact h before i rest rfl slot value hk hi

/-- A store at the end of code that has no other one. -/
theorem sourced_store (h : ∀ i ∈ code, ¬ i.operation.StoresText) (x : String)
    (hsource : Source globals code slot value) (hslot : slot.kind = .string) :
    Sourced globals (code ++ [⟨x, .store value (.global slot.symbol (.pointer .text))⟩]) := by
  intro before i after hbody other value' hk hi
  rcases List.eq_nil_or_concat after with rfl | ⟨rest, j, rfl⟩
  · obtain ⟨rfl, hlast⟩ := List.append_inj' hbody rfl
    obtain rfl := (List.cons.inj hlast).1
    simp only [Operation.store.injEq, Operand.global.injEq, and_true] at hi
    obtain ⟨rfl, hsymbol⟩ := hi
    obtain rfl : slot = other := by
      obtain ⟨hname, hnumber⟩ := Slot.symbol_injective hsymbol
      cases slot
      cases other
      simp_all
    exact hsource
  · have hcode : code = before ++ i :: rest := by
      rw [List.concat_eq_append, ← List.cons_append, ← List.append_assoc] at hbody
      exact (List.append_inj' hbody rfl).1
    exact sourced_of_not_storesText h before i rest hcode other value' hk hi

/-! ## Computations that keep stores sourced -/

/-- All code so far is sourced, and the symbols of the context have slots of their names and
kinds. -/
structure TextsLast (s : State) : Prop where
  draft : ∀ b ∈ s.draft.blocks, Sourced s.globals b.body
  functions : ∀ f, Global.function f ∈ s.globals → ∀ b ∈ f.blocks, Sourced s.globals b.body
  slots : ∀ x symbol, s.context.get? x = some symbol →
    symbol.storage.name = x ∧ symbol.storage.kind = symbol.kind

/-- The computation keeps all code sourced and all constants; `Q` tells of its result. -/
def Ensures {α : Type} (m : Lower α) (Q : α → Prop) : Prop :=
  ∀ s a s', TextsLast s → m s = .ok a s' → TextsLast s' ∧ TextsIn s.globals s'.globals ∧ Q a

/-- All code that the computation adds is sourced. -/
def Safe {α : Type} (m : Lower α) : Prop := Ensures m fun _ => True

section
variable {α β : Type} {s s' : State} {kind : Kind} {o : Operand} {op : Operation}
  {r : Option Operand} {Q : α → Prop}

theorem Ensures.bind {m : Lower α} {f : α → Lower β} {R : β → Prop} (hm : Ensures m Q)
    (hf : ∀ a, Q a → Ensures (f a) R) : Ensures (m >>= f) R := by
  intro s b s' hs h
  obtain ⟨a, s1, h1, h2⟩ := bind_eq_ok.mp h
  obtain ⟨hs1, ht1, ha⟩ := hm s a s1 hs h1
  obtain ⟨hs2, ht2, hb⟩ := hf a ha s1 b s' hs1 h2
  exact ⟨hs2, fun name contents hm => ht2 name contents (ht1 name contents hm), hb⟩

theorem Ensures.safe {m : Lower α} (h : Ensures m Q) : Safe m := by
  intro s a s' hs hrun
  obtain ⟨hs', ht, -⟩ := h s a s' hs hrun
  exact ⟨hs', ht, trivial⟩

theorem ensures_pure {a : α} (h : Q a) : Ensures (pure a) Q := by
  rintro s _ _ hs ⟨⟩
  exact ⟨hs, fun _ _ hm => hm, h⟩

/-! ## Primitive steps -/

/-- Sourced code is appended. -/
theorem TextsLast.appends (h : TextsLast s) (A : Appends code s s') (hcode : Sourced s'.globals code)
    (hfunctions : ∀ f, Global.function f ∈ s'.globals → ∀ b ∈ f.blocks, Sourced s'.globals b.body) :
    TextsLast s' := by
  refine ⟨fun b hb => ?_, hfunctions, ?_⟩
  · rw [A.blocks] at hb
    obtain ⟨b0, hb0, rfl⟩ := List.mem_map.mp hb
    have hold : Sourced s'.globals b0.body := (h.draft b0 hb0).mono fun _ _ hm => A.globals hm
    split
    · exact hold.append hcode
    · exact hold
  · rw [A.context]
    exact h.slots

theorem ensures_emit (hop : ¬ op.StoresText) (wanted : String) :
    Ensures (emit op wanted) Operand.IsRegister := by
  intro s o s' hs h
  obtain ⟨x, rfl, A, -⟩ := emit_adds h
  have hglobals : s'.globals = s.globals := by
    obtain ⟨-, rfl⟩ := emit_eq_ok h
    rfl
  refine ⟨hs.appends A (sourced_of_not_storesText (by simpa using hop)) ?_, ?_, trivial⟩
  · rw [hglobals]
    exact hs.functions
  · rw [hglobals]
    exact fun _ _ hm => hm

theorem safe_emit (hop : ¬ op.StoresText) (wanted : String) : Safe (emit op wanted) :=
  (ensures_emit hop wanted).safe

theorem safe_terminate (t : Terminator) : Safe (terminate t) := by
  intro s u s' hs h
  cases (terminate_run t s).symm.trans h
  refine ⟨⟨fun b hb => ?_, hs.functions, hs.slots⟩, fun _ _ hm => hm, trivial⟩
  obtain ⟨b0, hb0, rfl⟩ := List.mem_map.mp hb
  split <;> exact hs.draft b0 hb0

theorem safe_enter (label : String) : Safe (enter label) := by
  rintro s _ _ hs ⟨⟩
  exact ⟨⟨hs.draft, hs.functions, hs.slots⟩, fun _ _ hm => hm, trivial⟩

theorem safe_addBlock (wanted : String) : Safe (addBlock wanted) := by
  intro s label s' hs h
  cases (addBlock_run wanted s).symm.trans h
  refine ⟨⟨fun b hb => ?_, hs.functions, hs.slots⟩, fun _ _ hm => hm, trivial⟩
  rcases List.mem_append.mp hb with hb | hb
  · exact hs.draft b hb
  · rw [List.mem_singleton.mp hb]
    exact sourced_of_not_storesText (by simp)

/-- Only variables and constants are added to the module. -/
theorem TextsLast.addGlobals (h : TextsLast s) {globals : List Global} {names : Names}
    (hsub : s.globals ⊆ globals)
    (hnew : ∀ f, Global.function f ∈ globals → Global.function f ∈ s.globals) :
    TextsLast { s with globals, globalNames := names } :=
  ⟨fun b hb => (h.draft b hb).mono fun _ _ hm => hsub hm,
    fun f hf b hb => (h.functions f (hnew f hf) b hb).mono fun _ _ hm => hsub hm, h.slots⟩

theorem ensures_external (symbol : String) (type : Ty) :
    Ensures (external symbol type) fun o => o = .global symbol (.pointer type) := by
  intro s o s' hs h
  unfold external at h
  rw [bind_ok (get_run s)] at h
  dsimp only at h
  split at h
  · cases h
    have hsub : s.globals ⊆ s.globals ++ [.external symbol type] := by simp
    exact ⟨hs.addGlobals hsub (by simp), fun _ _ hm => hsub hm, rfl⟩
  · cases h
    exact ⟨hs, fun _ _ hm => hm, rfl⟩

theorem safe_textName (contents wanted : String) : Safe (textName contents wanted) := by
  intro s name s' hs h
  rcases textName_run s contents wanted with ⟨name', hrun, -⟩ | hrun
  · rw [hrun] at h
    cases h
    exact ⟨hs, fun _ _ hm => hm, trivial⟩
  · rw [hrun] at h
    cases h
    have hsub : s.globals ⊆ s.globals ++ [.text (s.globalNames.register wanted).1 contents] := by simp
    exact ⟨hs.addGlobals hsub (by simp), fun _ _ hm => hsub hm, trivial⟩

/-- A store to an address that the function has in a register. -/
theorem safe_store (value : Operand) {address : Operand} (h : address.IsRegister) (wanted : String) :
    Safe (emit (.store value address) wanted) := safe_emit (not_storesText_of_register h) wanted

/-- The discipline of sourced code. An address that the function has made is in a register. -/
def sourcing : Discipline .refl 0 Unit where
  Keeps _ _ m _ Q := Ensures m fun a => Q a ()
  Own _ o := o.IsRegister
  Holds := TextsLast
  own_mono h _ := h
  imp h hq := fun s a s' hs hrun => (h s a s' hs hrun).imp_right fun h => h.imp_right (hq a ())
  pure _ h := ensures_pure (h () le_rfl)
  bind hm hf := hm.bind fun a ha => hf a () le_rfl ha
  fail _ := by rintro s a s' hs ⟨⟩
  get hf := fun s a s' hs h => hf s hs s a s' hs h
  emit {_ op} h wanted := by
    have hop : ¬ op.StoresText := by
      cases op with
      | store value address => exact not_storesText_of_register h
      | _ => exact id
    exact fun s a s' hs hrun => (ensures_emit hop wanted s a s' hs hrun).imp_right fun h => h.imp_right fun ho _ => ho
  terminate := safe_terminate
  enter := safe_enter
  addBlock := safe_addBlock
  external _ type := (ensures_external _ type).safe
  textName _ contents := safe_textName contents _

open Discipline

variable {f : α → β} {m : Lower α} {copy : Lower β}

theorem Discipline.Admits.safe (h : sourcing.Admits f m copy) : Safe m := h ()

/-! ## Texts of former values -/

theorem textConstant_adds {contents wanted : String} (hw : wanted.toList.head? ≠ some 'd')
    (h : textConstant contents wanted s = .ok o s') :
    ∃ x op, o = .register x .text ∧ Appends [⟨x, op⟩] s s' ∧ x ∈ s'.used ∧
      op.PointsAt s'.globals contents := by
  obtain ⟨name, s1, h1, A1, hmem⟩ := textName_spec s contents wanted hw
  unfold textConstant at h
  rw [bind_ok h1, cast_of_ne _ (by simp [Operand.type, textType, Ty.text])] at h
  obtain ⟨x, rfl, A2, hx⟩ := emit_adds h
  exact ⟨x, _, rfl, A1.trans A2, hx, name, A2.globals hmem, rfl⟩

/-- Code of which `P` holds is appended, and nothing is stored to slots for texts. -/
def Supplies (s s' : State) (P : List Instruction → Prop) : Prop :=
  ∃ code, Appends code s s' ∧ (∀ i ∈ code, ¬ i.operation.StoresText) ∧ P code

theorem Supplies.imp {P P' : List Instruction → Prop} (h : Supplies s s' P)
    (hp : ∀ code, P code → P' code) : Supplies s s' P' := by
  obtain ⟨code, A, hcode, hP⟩ := h
  exact ⟨code, A, hcode, hp code hP⟩

theorem boolText_supplies (h : boolText old s = .ok o s') :
    Supplies s s' fun code => BoolText s'.globals code old o := by
  obtain ⟨yes, s1, h1, h⟩ := bind_eq_ok.mp h
  obtain ⟨no, s2, h2, h3⟩ := bind_eq_ok.mp h
  obtain ⟨x, opYes, rfl, A1, hx, hyes⟩ := textConstant_adds (by decide) h1
  obtain ⟨y, opNo, rfl, A2, hy, hno⟩ := textConstant_adds (by decide) h2
  obtain ⟨z, rfl, A3, -⟩ := emit_adds h3
  refine ⟨_, (A1.trans A2).trans A3, ?_, .register x .text, .register y .text, ?_, ?_, ?_⟩
  · intro i hi
    simp only [List.cons_append, List.nil_append, List.mem_cons, List.not_mem_nil, or_false] at hi
    rcases hi with rfl | rfl | rfl
    · exact hyes.not_storesText
    · exact hno.not_storesText
    · exact id
  · exact definition?_last _ _ _ _
  · obtain ⟨name, hm, rfl⟩ := hyes
    refine ⟨_, ?_, name, A3.globals (A2.globals hm), rfl⟩
    rw [List.append_assoc]
    exact definition?_later hx (fun i hi => ((A2.trans A3).fresh i hi).1)
      (definition?_last [] x _ _)
  · obtain ⟨name, hm, rfl⟩ := hno
    refine ⟨_, ?_, name, A3.globals hm, rfl⟩
    exact definition?_later hy (fun i hi => (A3.fresh i hi).1) (definition?_last _ y _ _)

theorem numberText_supplies (hk : kind = .int ∨ kind = .float)
    (h : textOf ⟨old, kind⟩ s = .ok o s') :
    Supplies s s' fun code => ∃ op ∈ definition? code o, op.Lasts := by
  have hformatted : ∃ d : String, textOf ⟨old, kind⟩ s = (do
      let buffer ← emit (.call malloc [.int numberSize .i64]) "textbuf"
      let format ← textConstant d "fmt"
      let _ ← emit (.call sprintf [buffer, format, old]) ""
      pure buffer) s := by
    rcases hk with rfl | rfl
    · exact ⟨"%d", rfl⟩
    · exact ⟨"%g", rfl⟩
  obtain ⟨d, hrun⟩ := hformatted
  rw [hrun] at h
  obtain ⟨buffer, s1, h1, h⟩ := bind_eq_ok.mp h
  obtain ⟨format, s2, h2, h⟩ := bind_eq_ok.mp h
  obtain ⟨_, s3, h3, h⟩ := bind_eq_ok.mp h
  cases h
  obtain ⟨x, rfl, A1, hx⟩ := emit_adds h1
  obtain ⟨y, op, rfl, A2, -, hop⟩ := textConstant_adds (by decide) h2
  obtain ⟨z, -, A3, -⟩ := emit_adds h3
  have hdefinition := definition?_later hx
    (fun i hi => ((A2.trans A3).fresh i hi).1)
    (definition?_last [] x (.call malloc [.int numberSize .i64]) malloc.returns)
  refine ⟨_, A1.trans (A2.trans A3), ?_, _, hdefinition, .inr rfl⟩
  intro i hi
  simp only [List.cons_append, List.nil_append, List.mem_cons, List.not_mem_nil, or_false] at hi
  rcases hi with rfl | rfl | rfl
  · exact id
  · exact hop.not_storesText
  · exact id

theorem emptyText_supplies (h : zero .string s = .ok r s') :
    ∃ o, r = some o ∧ Supplies s s' fun code => ∃ op ∈ definition? code o, op.Lasts := by
  obtain ⟨s1, h1, A1⟩ := external_spec s emptyText (.array 1 .i8)
  obtain ⟨address, s2, h2, h⟩ := bind_eq_ok.mp h
  cases h1.symm.trans h2
  obtain ⟨o, h3, rfl⟩ := map_eq_ok.mp h
  rw [cast_of_ne _ (by simp [Operand.type, Ty.text])] at h3
  obtain ⟨x, rfl, A2, -⟩ := emit_adds h3
  exact ⟨_, rfl, _, A1.trans A2, by simp [Operation.StoresText], _, definition?_last [] x _ _, rfl⟩

/-- A value of another kind as a text: one that lasts, unless the value is a bool. -/
theorem coerce_text_supplies (hk : kind ≠ .string)
    (h : coerce (some ⟨old, kind⟩) .string s = .ok r s') :
    ∃ o, r = some o ∧ Supplies s s' fun code =>
      (∃ op ∈ definition? code o, op.Lasts) ∨ kind = .bool ∧ BoolText s'.globals code old o := by
  cases kind with
  | string => exact absurd rfl hk
  | int =>
    obtain ⟨o, htext, rfl⟩ := map_eq_ok.mp h
    exact ⟨o, rfl, (numberText_supplies (.inl rfl) htext).imp fun _ => .inl⟩
  | float =>
    obtain ⟨o, htext, rfl⟩ := map_eq_ok.mp h
    exact ⟨o, rfl, (numberText_supplies (.inr rfl) htext).imp fun _ => .inl⟩
  | bool =>
    obtain ⟨o, htext, rfl⟩ := map_eq_ok.mp h
    have hrun : textOf ⟨old, .bool⟩ = boolText old := by
      unfold textOf formatted
      simp
    rw [hrun] at htext
    exact ⟨o, rfl, (boolText_supplies htext).imp fun _ hb => .inr ⟨rfl, hb⟩⟩
  | intArray | none =>
    obtain ⟨o, rfl, hlasts⟩ := emptyText_supplies h
    exact ⟨o, rfl, hlasts.imp fun _ => .inl⟩

/-! ## Variables -/

/-- The address of a slot that is not for texts. -/
theorem not_storesText_of_kind (hk : kind ≠ .string) (value : Operand) (name : String) :
    ¬ (Operation.store value (.global name (.pointer (irType kind)))).StoresText := by
  cases kind <;> simp_all [Operation.StoresText, irType, Ty.text, Ty.ints]

theorem sourcing_writes {symbol : String} {type : Ty}
    (h : ∀ value, ¬ (Operation.store value (.global symbol (.pointer type))).StoresText) :
    sourcing.Writes symbol type := by
  refine fun w => sourcing.imp (Q := fun o _ => o = Operand.global symbol (.pointer type))
    (ensures_external symbol type) fun o _ ho _ _ value wanted => ?_
  rw [ho]
  exact safe_emit (h value) wanted

/-- Whatever may be stored to a slot that is not for texts. -/
theorem sourcing_writesSlot (hk : slot.kind ≠ .string) : sourcing.WritesSlot slot :=
  sourcing_writes fun value => not_storesText_of_kind hk value _

/-- A text is stored that the code since `s` is the source of. -/
theorem TextsLast.storeText {s1 : State} {u : Unit} (hs : TextsLast s) (hs1 : TextsLast s1)
    (hslot : slot.kind = .string)
    (hsource : Supplies s s1 fun code => Source s1.globals code slot value)
    (h : (do let _ ← emit (.store value (← slotAddress slot)) "" : Lower Unit) s1 = .ok u s') :
    TextsLast s' ∧ TextsIn s1.globals s'.globals := by
  obtain ⟨code, A1, hcode, hsource⟩ := hsource
  obtain ⟨address, s2, h2, h⟩ := bind_eq_ok.mp h
  obtain ⟨o, s3, h3, h⟩ := bind_eq_ok.mp h
  cases h
  obtain ⟨hs2, htexts, rfl⟩ := ensures_external _ _ s1 address s2 hs1 h2
  obtain ⟨s2', h2', A2⟩ := external_spec s1 slot.symbol (irType slot.kind)
  cases h2.symm.trans h2'
  obtain ⟨x, rfl, A3, -⟩ := emit_adds h3
  have hglobals : s'.globals = s2.globals := by
    obtain ⟨-, rfl⟩ := emit_eq_ok h3
    rfl
  rw [← hglobals] at htexts
  refine ⟨hs.appends ((A1.trans A2).trans A3) ?_ ?_, htexts⟩
  · rw [hslot, List.append_nil]
    exact sourced_store hcode x (hsource.mono htexts) hslot
  · rw [hglobals]
    exact hs2.functions

/-- A text is copied before it is stored. -/
theorem safe_storeSlot {value : Typed} (hk : slot.kind = value.kind) :
    Safe (storeSlot slot value) := by
  unfold storeSlot
  split
  · rename_i hstring
    intro s u s' hs h
    obtain ⟨copy, s1, h1, h⟩ := bind_eq_ok.mp h
    obtain ⟨hs1, ht1, -⟩ := safe_emit (by exact id) _ s copy s1 hs h1
    obtain ⟨x, rfl, A1, -⟩ := emit_adds h1
    have hsource : Supplies s s1 fun code =>
        Source s1.globals code slot (.register x strdup.returns) :=
      ⟨_, A1, by simp [Operation.StoresText], .inl ⟨_, definition?_last [] x _ _, .inl rfl⟩⟩
    obtain ⟨hs', ht'⟩ := hs.storeText hs1 (hk.trans hstring) hsource h
    exact ⟨hs', fun name contents hm => ht' name contents (ht1 name contents hm), trivial⟩
  · rename_i hother
    exact ((sourcing_writesSlot (hk ▸ hother)).admits value.operand).safe

/-- A new slot is given what the variable held, as a text if it is for texts. -/
theorem safe_seedSlot (scope : Scope) {former : Option (Symbol Slot)}
    (hformer : ∀ symbol, former = some symbol → symbol.storage.name = slot.name ∧
      symbol.storage.kind = symbol.kind ∧ symbol.kind ≠ slot.kind) :
    Safe (seedSlot scope slot former) := by
  by_cases hslot : slot.kind = .string
  · unfold seedSlot
    split
    · rename_i label symbol _
      obtain ⟨hname, hkind, hne⟩ := hformer symbol rfl
      refine (Admits.inBlock (D := sourcing) (f := id) (q := pure ⟨⟩) ?_ label).safe
      intro _ s u s' hs h
      obtain ⟨address, s1, h1, h⟩ := bind_eq_ok.mp h
      obtain ⟨old, s2, h2, h⟩ := bind_eq_ok.mp h
      obtain ⟨r, s3, h3, h⟩ := bind_eq_ok.mp h
      obtain ⟨hs1, ht1, rfl⟩ := ensures_external _ _ s address s1 hs h1
      obtain ⟨hs2, ht2, -⟩ := safe_emit (by exact id) _ s1 old s2 hs1 h2
      obtain ⟨hs3, ht3, -⟩ := (admits_coerce _ _).safe s2 r s3 hs2 h3
      obtain ⟨s1', h1', A1⟩ := external_spec s symbol.storage.symbol (irType symbol.storage.kind)
      cases h1.symm.trans h1'
      obtain ⟨x, rfl, A2, hx⟩ := emit_adds h2
      rw [hslot] at h3 hne
      obtain ⟨o, rfl, code, A3, hcode, htext⟩ := coerce_text_supplies hne h3
      have hsource : Supplies s s3 fun code => Source s3.globals code slot o := by
        refine ⟨_, (A1.trans A2).trans A3, ?_, ?_⟩
        · simpa [Operation.StoresText] using hcode
        · rcases htext with ⟨op, hop, hlasts⟩ | ⟨hbool, htext⟩
          · exact .inl ⟨op, definition?_front _ hop, hlasts⟩
          · refine .inr ⟨symbol.storage, _, hname, hkind.trans hbool, ?_, htext.front _⟩
            rw [hkind, hbool]
            exact definition?_later hx (fun i hi => (A3.fresh i hi).1) (definition?_last [] x _ _)
      obtain ⟨hs', ht'⟩ := hs.storeText hs3 hslot hsource h
      exact ⟨hs', fun name contents hm => ht' _ _ (ht3 _ _ (ht2 _ _ (ht1 _ _ hm))), trivial⟩
    · exact (admits_pure (f := id) rfl).safe
  · exact (admits_seedSlot scope (sourcing_writesSlot hslot) former).safe

/-- The slot that a value is assigned to is of the kind of the value. -/
theorem ensures_slotFor (scope : Scope) (name : String) (kind : Kind) :
    Ensures (slotFor scope name kind) fun slot => slot.kind = kind := by
  intro s slot s' hs h
  rcases slotFor_cases h with ⟨hx, rfl⟩ | ⟨hother, rfl, s1, h1, rfl⟩
  · exact ⟨hs, fun _ _ hm => hm, (hs.slots name _ hx).2⟩
  · have hs0 : TextsLast (s.withSlot ⟨name, s.nextSlot, kind⟩) := ⟨hs.draft, hs.functions, hs.slots⟩
    obtain ⟨hs1, ht1, -⟩ := safe_seedSlot scope (fun symbol hsymbol =>
      ⟨(hs.slots name symbol hsymbol).1, (hs.slots name symbol hsymbol).2, hother symbol hsymbol⟩)
      _ ⟨⟩ s1 hs0 h1
    refine ⟨⟨hs1.draft, hs1.functions, fun x symbol hx => ?_⟩, ht1, rfl⟩
    rw [get?_binding] at hx
    split at hx
    · rename_i heq
      cases hx
      exact ⟨heq, rfl⟩
    · exact hs1.slots x symbol hx

theorem safe_assign (scope : Scope) (name : String) (value : Option Typed) :
    Safe (assign scope name value) := by
  cases value with
  | none => rintro s a s' hs ⟨⟩
  | some t =>
    dsimp only [assign]
    split
    · rintro s a s' hs ⟨⟩
    · exact (ensures_slotFor scope name t.kind).bind fun _ hslot =>
        (safe_storeSlot hslot).bind fun _ _ => ensures_pure trivial

/-! ## Functions -/

/-- A function that was declared gets its blocks. -/
theorem functions_closed (h : TextsLast s) (name : String) (params : List String)
    {blocks : List Block} (hb : ∀ b ∈ blocks, Sourced s.globals b.body) :
    TextsIn s.globals (s.closed name params blocks).globals ∧
      ∀ f, Global.function f ∈ (s.closed name params blocks).globals → ∀ b ∈ f.blocks,
        Sourced (s.closed name params blocks).globals b.body := by
  have htexts : TextsIn s.globals (s.closed name params blocks).globals :=
    fun text contents hm => List.mem_map.mpr ⟨.text text contents, hm, rfl⟩
  refine ⟨htexts, fun f hf b hbf => Sourced.mono ?_ htexts⟩
  obtain ⟨g, hg, hgf⟩ := List.mem_map.mp hf
  cases g with
  | function f' =>
    simp only [Global.function.injEq] at hgf
    subst hgf
    split at hbf
    · exact hb b hbf
    · exact h.functions f' hg b hbf
  | external name type => cases hgf
  | text name contents => cases hgf

/-- A function is added while another one is under construction, and that one stays as it is. -/
theorem Safe.emitFunction (name : String) (d : Definition) {lowerBody : Scope → Lower Lowered}
    (hb : ∀ inner, Safe (lowerBody inner)) : Safe (emitFunction name d lowerBody) := by
  intro s callee s' hs h
  obtain ⟨b, s1, s2, h1, h2, rfl, rfl⟩ := emitFunction_inv h
  have hdeclared : TextsIn s.globals (s.declared name d).globals :=
    fun _ _ hm => List.mem_append_left _ hm
  have hs0 : TextsLast { s.declared name d with draft := Definition.draft d } := by
    refine ⟨fun b hb => ?_, fun f hf b hbf => ?_, hs.slots⟩
    · rw [List.mem_singleton.mp hb]
      exact sourced_of_not_storesText (by simp)
    · rcases List.mem_append.mp hf with hf | hf
      · exact (hs.functions f hf b hbf).mono hdeclared
      · cases List.mem_singleton.mp hf
        cases hbf
  obtain ⟨hs1, ht1, -⟩ := hb _ _ b s1 hs0 h1
  obtain ⟨hs2, ht2, -⟩ := (admits_returnValue _ _).safe s1 ⟨⟩ s2 hs1 h2
  obtain ⟨hclosed, hfunctions⟩ := functions_closed hs2 (s.functionName name)
    (Definition.paramNames d) hs2.draft
  have htexts : TextsIn s.globals
      (s2.closed (s.functionName name) (Definition.paramNames d) s2.draft.blocks).globals :=
    fun _ _ hm => hclosed _ _ (ht2 _ _ (ht1 _ _ (hdeclared _ _ hm)))
  exact ⟨⟨fun b hb => (hs.draft b hb).mono htexts, hfunctions, hs2.slots⟩, htexts, trivial⟩

/-! ## Trees -/

variable {earlier : Earlier}

theorem safe_lower (he : ∀ name d, Safe (earlier name d)) (node : Node) (scope : Scope) :
    Safe (lower earlier scope node) := by
  have htrees : sourcing.Trees earlier (fun _ => True) fun _ => True := by
    refine ⟨fun _ _ => trivial, fun _ _ => trivial, fun _ _ => trivial,
      fun {name d} _ _ => he name d, fun _ _ wanted _ => safe_emit id wanted,
      fun _ scope value _ => safe_assign scope _ value, ?_, ?_⟩
    · intro name node s symbol _ _ hs hx hint
      refine sourcing_writesSlot ?_
      rw [(hs.slots name symbol hx).2, hint]
      decide
    · intro name params body _ part scope _ s r s' hs h
      obtain ⟨callee, hcallee, -⟩ := lower_define h
      have hs1 : TextsLast
          { s with context := s.context.addFunction name (s.definition name params body) } :=
        ⟨hs.draft, hs.functions, hs.slots⟩
      obtain ⟨hs', ht, -⟩ :=
        Safe.emitFunction name _ (fun inner => (part inner).safe) _ callee s' hs1 hcallee
      exact ⟨hs', ht, trivial⟩
  exact (htrees.lower node trivial scope).safe

theorem safe_emitEarlier (depth : Nat) (name : String) (d : Definition) :
    Safe (emitEarlier depth name d) := by
  induction depth generalizing name d with
  | zero => rintro s a s' hs ⟨⟩
  | succ depth ih => exact Safe.emitFunction name d fun inner => safe_lower ih d.body inner

/-! ## Submissions -/

end

theorem textsLast_begun {nextSlot : Nat} (hc : Slotted c nextSlot) (entry : String) (kind : Kind) :
    TextsLast (State.begun { context := c, nextSlot } entry kind) := by
  refine ⟨fun b hb => ?_, fun f hf b hb => ?_, fun x symbol hx => ?_⟩
  · rw [List.mem_singleton.mp hb]
    exact sourced_of_not_storesText (by simp)
  · rcases mem_foldl_declaring _ _ hf with hf | hf
    · cases hf
    · rw [hf] at hb
      cases hb
  · rw [State.context_begun] at hx
    exact ⟨hc.proper.name x symbol hx, hc.proper.kind x symbol hx⟩

theorem lowerSubmission_sourced {number nextSlot next : Nat} {node : Node} {a : Artifact}
    (hc : Slotted c nextSlot) (h : lowerSubmission c number nextSlot node = (.ok a, next)) :
    a.module.Sourced := by
  obtain ⟨r, s1, s2, h1, h2, rfl, -⟩ := lowerSubmission_inv h
  obtain ⟨o, s3, s4, s5, hcoerce, hpresence, hreturn, rfl⟩ := closeEntry_inv h2
  obtain ⟨hs1, -⟩ := safe_lower (safe_emitEarlier _) node {} _ r s1 (textsLast_begun hc _ _) h1
  obtain ⟨hs3, -⟩ := (Discipline.admits_coerce _ _).safe s1 o s3 hs1 hcoerce
  obtain ⟨hs4, -⟩ := (Discipline.admits_storePresence (sourcing_writes
    (by simp [Operation.StoresText, Ty.text])) _).safe s3 ⟨⟩ s4 hs3 hpresence
  obtain ⟨hs5, -⟩ := (Discipline.admits_returnResult _ _).safe s4 ⟨⟩ s5 hs4 hreturn
  intro b hb
  obtain ⟨f, hf, hb⟩ := Module.mem_blocks hb
  exact (functions_closed hs5 (entryName number) [] hs5.draft).2 f hf b hb

end Lowering

/-! ## Sessions -/

namespace Machine
open IR Lowering

theorem lower_sourced {s : Session} {node : Node} {a : Artifact} (hs : s.Reachable)
    (ha : (s.lower node).1 = .ok a) : a.module.Sourced := by
  rw [lower_eq] at ha
  generalize hlower : lowerSubmission s.context s.entries s.slots node = lowered at ha
  obtain ⟨result, next⟩ := lowered
  obtain rfl : result = .ok a := ha
  exact lowerSubmission_sourced hs.orderly.slotted hlower

/-- The operand that the instruction at a place stores to a slot for texts. -/
def storedAt? (body : List Instruction) (n : Nat) (slot : Slot) : Option Operand :=
  match body[n]?.map Instruction.operation with
  | some (.store value (.global name type)) =>
    if name = slot.symbol ∧ type = .pointer .text then some value else none
  | _ => none

theorem split_of_storedAt? {body : List Instruction} {n : Nat} {slot : Slot} {value : Operand}
    (h : storedAt? body n slot = some value) :
    ∃ i after, body = body.take n ++ i :: after ∧
      i.operation = .store value (.global slot.symbol (.pointer .text)) := by
  unfold storedAt? at h
  split at h
  · rename_i hop
    obtain ⟨i, hi, hop⟩ := Option.map_eq_some_iff.mp hop
    obtain ⟨hn, rfl⟩ := List.getElem?_eq_some_iff.mp hi
    split at h
    · rename_i heq
      cases h
      refine ⟨_, body.drop (n + 1), ?_, by rw [hop, heq.1, heq.2]⟩
      rw [List.getElem_cons_drop, List.take_append_drop]
    · cases h
  · cases h

theorem eq_ok_of_toOption {ε α : Type} {x : Except ε α} {a : α} (h : x.toOption = some a) :
    x = .ok a := by
  cases x with
  | error e => cases h
  | ok a' =>
    cases h
    rfl

/-- Whatever was submitted before, every store of a lowered submission to a slot for texts is of a
copy, of a new buffer or of the empty text, unless it seeds the slot of a variable that was a
bool. -/
theorem stored_texts_last {s : Session} {node : Node} {a : Artifact} (hs : s.Reachable)
    (ha : (s.lower node).1 = .ok a) {b : Block} (hb : b ∈ a.module.blocks)
    {before after : List Instruction} {i : Instruction} (hbody : b.body = before ++ i :: after)
    {slot : Slot} {value : Operand} (hslot : slot.kind = .string)
    (hi : i.operation = .store value (.global slot.symbol (.pointer .text))) :
    (∃ op ∈ definition? before value, op.Lasts) ∨
      SeededByBool a.module.globals before slot value :=
  lower_sourced hs ha b hb before i after hbody slot value hslot hi

/-- A variable of an earlier submission is retyped inside a branch: its new slot is stored to before
the branch as well as inside it. -/
theorem retyped_integer_sourced :
    ∃ (s : Session) (node : Node) (a : Artifact) (b : Block) (before after : List Instruction)
      (i : Instruction) (slot : Slot) (value : Operand), s.Reachable ∧
      s.variables = [("x", .int, some (.int 1))] ∧
      parse "if (x == 1) \x7b x = \"a\" + x \x7d" = .ok node ∧ (s.lower node).1 = .ok a ∧
      b ∈ a.module.blocks ∧ b.body = before ++ i :: after ∧ slot.kind = .string ∧
      i.operation = .store value (.global slot.symbol (.pointer .text)) ∧
      ((∃ op ∈ definition? before value, op.Lasts) ∨
        SeededByBool a.module.globals before slot value) := by
  let first : Node := .sequence [.assign "x" (.number 1)]
  let node : Node := .sequence [.branch (.comparison (.identifier "x") .eq (.number 1)) (.sequence [
    .assign "x" (.binary (.string "a") .add (.identifier "x"))]) .missing]
  have hreachable : Session.Reachable (Session.run 9 ⟨#[], 0⟩ {} first).session :=
    .run .start 9 ⟨#[], 0⟩ first
  have hstore : ∃ a ∈ ((Session.run 9 ⟨#[], 0⟩ {} first).session.lower node).1.toOption,
      ∃ b ∈ a.module.blocks, ∃ n ∈ List.range b.body.length,
        (storedAt? b.body n ⟨"x", 1, .string⟩).isSome := by decide +kernel
  obtain ⟨a, ha, b, hb, n, -, hsome⟩ := hstore
  obtain ⟨value, hvalue⟩ := Option.isSome_iff_exists.mp hsome
  obtain ⟨i, after, hbody, hi⟩ := split_of_storedAt? hvalue
  have hlower := eq_ok_of_toOption ha
  exact ⟨_, node, a, b, _, after, i, ⟨"x", 1, .string⟩, value, hreachable, by cbv, by cbv, hlower, hb,
    hbody, rfl, hi, stored_texts_last hreachable hlower hb hbody rfl hi⟩

/-- The exception occurs: the slot is seeded with a pointer to a constant of the module. -/
theorem seeded_bool_is_constant :
    ∃ (node : Node) (a : Artifact), parse "x = true; if (false) \x7b x = \"a\" \x7d" = .ok node ∧
      (({} : Session).lower node).1 = .ok a ∧
      ∃ b ∈ a.module.blocks, ∃ before i after, b.body = before ++ i :: after ∧
        ∃ (slot : Slot) (value : Operand), slot.kind = .string ∧
          i.operation = .store value (.global slot.symbol (.pointer .text)) ∧
          (∀ op ∈ definition? before value, ¬ op.Lasts) ∧
          SeededByBool a.module.globals before slot value := by
  let node : Node := .sequence [.assign "x" (.boolean true),
    .branch (.boolean false) (.sequence [.assign "x" (.string "a")]) .missing]
  have hstore : ∃ a ∈ (({} : Session).lower node).1.toOption, ∃ b ∈ a.module.blocks,
      ∃ n ∈ List.range b.body.length, ∃ value ∈ storedAt? b.body n ⟨"x", 1, .string⟩,
        ∀ op ∈ definition? (b.body.take n) value, ¬ op.Lasts := by decide +kernel
  obtain ⟨a, ha, b, hb, n, -, value, hvalue, hlasts⟩ := hstore
  obtain ⟨i, after, hbody, hi⟩ := split_of_storedAt? hvalue
  have hlower := eq_ok_of_toOption ha
  refine ⟨node, a, by cbv, hlower, b, hb, _, i, after, hbody, ⟨"x", 1, .string⟩, value, rfl, hi,
    hlasts, ?_⟩
  -- the store has a source, and that is not a text that lasts
  rcases lower_sourced .start hlower b hb _ i after hbody _ value rfl hi with ⟨op, hmem, hop⟩ | hseeded
  · exact absurd hop (hlasts op hmem)
  · exact hseeded

end Machine
end DualEngine
