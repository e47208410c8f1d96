import DualEngine.Proofs.FunctionBodies
import DualEngine.Proofs.WellFormed

/-! # Building bodies that are sound

Lowering appends code at the end of the current block, and sometimes at the end of a block that it
has left already. The function under construction stays sound at every step. To say so, each state
comes with a table: for every block the labels of the blocks that are passed before it or are the
block itself. `Builds` says of a computation that it keeps all this, that it only goes on from where
it was (`Onward`), and that no instruction is refused on the way.
-/
namespace DualEngine

/-- An instruction was refused because its parts do not fit together. -/
def Fault.isMisfit : Fault → Bool
  | .misfit _ => true
  | _ => false

namespace IR

variable {op : Operation} {label : String} {o : Operand}

/-- An instruction with operands of the right types is not refused. -/
theorem Operation.WellTyped.misfit? (h : op.WellTyped) : op.misfit? = none := by
  cases op with
  | binary op left right | store value address => exact if_pos h.1
  | select condition yes no => exact if_pos h.2
  | call callee args =>
    have hparams : callee.params <+: args.map Operand.type := by
      dsimp only [WellTyped] at h
      split at h
      · exact h
      · exact h ▸ List.prefix_refl _
    obtain ⟨extra, hextra⟩ := hparams
    obtain ⟨front, back, rfl, hfront, -⟩ := List.map_eq_append_iff.mp hextra.symm
    exact Lowering.argumentMisfit?_append 1 front back hfront
  | _ => rfl

end IR

namespace Lowering
open IR
open IR.Body (Edge Defines)

variable {cause : Mismatch} {slot : Slot} {name : String}

/-- What is fixed about the function under construction, and the slots that variables had when the
submission began. -/
structure Form where
  returns : Ty
  params : List (String × Ty)
  entry : String
  slots : Set Slot

/-- A state of lowering with a table of the blocks that are passed before others. -/
structure Scaffold where
  table : String → Set String
  state : State

namespace Scaffold

abbrev blocks (w : Scaffold) : List Block := w.state.draft.blocks
abbrev current (w : Scaffold) : String := w.state.draft.current

def body (F : Form) (w : Scaffold) : Body where
  globals := w.state.globals
  returns := F.returns
  params := F.params
  blocks := w.blocks
  before := fun d label => d ∈ w.table label

/-- With another block as the current one. -/
def entered (w : Scaffold) (label : String) : Scaffold := ⟨w.table, w.state.entered label⟩

/-- The current block has no end yet. -/
def Live (w : Scaffold) : Prop := ∃ b ∈ w.blocks, b.label = w.current ∧ b.terminator = none

def Ended (w : Scaffold) (label : String) : Prop :=
  ∃ b ∈ w.blocks, b.label = label ∧ ∃ t, b.terminator = some t

/-- The block has its end, or it is the current one. So it may still get code. -/
def Settled (w : Scaffold) (label : String) : Prop :=
  ∃ b ∈ w.blocks, b.label = label ∧ (b.terminator = none → label = w.current)

/-- The operand may be used at the end of the block. -/
def Reaches (F : Form) (w : Scaffold) (label : String) : Operand → Prop
  | .register x type =>
    (x, type) ∈ F.params ∨
      ∃ b ∈ w.blocks, b.label ∈ w.table label ∧ ∃ i ∈ b.body, Defines i x type
  | .global name type => HasAddress w.state.globals name type
  | .int _ type => 0 < type.width
  | .double _ => True
  | .null type => type.isPointer = true

/-- The operand may be used where code is appended, and is of the type. -/
def Has (F : Form) (w : Scaffold) (o : Operand) (type : Ty) : Prop :=
  w.Reaches F w.current o ∧ o.type = type

end Scaffold

/-! ## The module around the function -/

/-- The slot belonged to a variable when the submission began, or was made since. -/
def Form.Knows (F : Form) (s : State) (slot : Slot) : Prop := slot ∈ F.slots ∨ slot ∈ s.created

/-- The types of the variables outside the module. -/
def Form.Foresees (F : Form) (s : State) (name : String) (type : Ty) : Prop :=
  (name, type) ∈ [(emptyText, .array 1 .i8), (emptyArray, .array 1 .i32), (resultPresent, .i8)] ∨
    ∃ slot, F.Knows s slot ∧ name = slot.symbol ∧ type = irType slot.kind

/-- Statements with no function defined inside. -/
structure Plain (node : Node) : Prop where
  statement : node.isStatement = true
  avoids : node.Avoids ["FunctionDef"]

/-- The functions of the module that have blocks are well formed, and the tables and slots agree
with its globals. -/
structure Consistent (F : Form) (s : State) : Prop where
  named : Named s
  functions : ∀ f, Global.function f ∈ s.globals → f.WellFormed s.globals
  callees : ∀ name callee, s.functions.get? name = some callee → HasFunction s.globals callee
  linked : ∀ name d callee, s.context.getFunction? name = some d →
    s.functions.get? name = some callee → ∃ irName, callee = Definition.signature d irName
  bodies : ∀ name d, s.context.getFunction? name = some d → Plain d.body
  externals : ∀ name type, Global.external name type ∈ s.globals → F.Foresees s name type
  symbols : ∀ x symbol, s.context.get? x = some symbol →
    F.Knows s symbol.storage ∧ symbol.storage.kind = symbol.kind ∧ symbol.kind ≠ .none
  numbers : ∀ slot, F.Knows s slot → slot.number < s.nextSlot
  alone : ∀ slot slot', F.Knows s slot → F.Knows s slot' → slot.symbol = slot'.symbol → slot = slot'

structure Proper (F : Form) (w : Scaffold) : Prop where
  sound : (w.body F).Sound
  labelled : ∀ b ∈ w.blocks, b.label ∈ w.state.used
  named : ∀ x ∈ F.params.map Prod.fst ++ w.blocks.flatMap fun b => b.body.map Instruction.name,
    x ∈ w.state.used
  first : w.blocks.head?.map Block.label = some F.entry
  root : w.table F.entry = {F.entry}
  table : ∀ b ∈ w.blocks, b.label ∈ w.table b.label ∧ F.entry ∈ w.table b.label
  edges : ∀ l l', Edge w.blocks l l' → ∀ d ∈ w.table l', d = l' ∨ d ∈ w.table l
  current : ∃ b ∈ w.blocks, b.label = w.current
  consistent : Consistent F w.state

variable {F : Form} {w w' w'' w0 : Scaffold} {moves : Prop} {α β : Type} {s s' : State}
  {m : Lower α} {a : α} {f : α → Lower β} {P Q : α → Scaffold → Prop} {R : β → Scaffold → Prop}

theorem Proper.block_eq (h : Proper F w) {b b' : Block} (hb : b ∈ w.blocks) (hb' : b' ∈ w.blocks)
    (hl : b.label = b'.label) : b = b' := List.inj_on_of_nodup_map h.sound.labels hb hb' hl

/-! ## Growth -/

namespace Scaffold

/-- From `w` to `w'` blocks have only grown. A join is never appended to a block that was there. -/
structure Extends (w w' : Scaffold) : Prop where
  changes : Changes .everything w.state w'.state
  used : w.state.used ⊆ w'.state.used
  table : ∀ b ∈ w.blocks, w'.table b.label = w.table b.label
  blocks : ∀ b ∈ w.blocks, ∃ b' ∈ w'.blocks, b'.label = b.label ∧
    (∃ code, b'.body = b.body ++ code ∧ ∀ i ∈ code, i.operation.isPhi = false) ∧
    ∀ t, b.terminator = some t → b'.terminator = some t

theorem Extends.refl (w : Scaffold) : Extends w w where
  changes := .refl
  used := fun _ h => h
  table := fun _ _ => rfl
  blocks := fun b hb => ⟨b, hb, rfl, ⟨[], by simp, by simp⟩, fun _ h => h⟩

theorem Extends.trans (h : Extends w w') (h' : Extends w' w'') : Extends w w'' where
  changes := h.changes.trans h'.changes
  used := fun _ hx => h'.used (h.used hx)
  table := fun b hb => by
    obtain ⟨b', hb', hl, -⟩ := h.blocks b hb
    rw [← hl, h'.table b' hb', hl, h.table b hb]
  blocks := fun b hb => by
    obtain ⟨b', hb', hl, ⟨code, hcode, hphi⟩, ht⟩ := h.blocks b hb
    obtain ⟨b'', hb'', hl', ⟨code', hcode', hphi'⟩, ht'⟩ := h'.blocks b' hb'
    refine ⟨b'', hb'', hl'.trans hl, ⟨code ++ code', ?_, ?_⟩, fun t h => ht' t (ht t h)⟩
    · rw [hcode', hcode, List.append_assoc]
    · intro i hi
      rcases List.mem_append.mp hi with hi | hi
      · exact hphi i hi
      · exact hphi' i hi

theorem Extends.ended (h : Extends w w') (he : w.Ended label) : w'.Ended label := by
  obtain ⟨b, hb, hl, t, ht⟩ := he
  obtain ⟨b', hb', hl', -, ht'⟩ := h.blocks b hb
  exact ⟨b', hb', hl'.trans hl, t, ht' t ht⟩

end Scaffold

theorem Change.provides {g : Grant} {type : Ty} (hc : Change g s s')
    (h : HasAddress s.globals name type) : HasAddress s'.globals name type := by
  have hmem {globals : List Global} (hsub : ∀ x ∈ s.globals, (∀ f, x ≠ .function f) → x ∈ globals) :
      HasAddress globals name type := by
    rcases h with ⟨t, ht, rfl⟩ | ⟨contents, hcontents, rfl⟩
    · exact .inl ⟨t, hsub _ ht (by simp), rfl⟩
    · exact .inr ⟨contents, hsub _ hcontents (by simp), rfl⟩
  cases hc with
  | external | text | function => exact hmem fun x hx _ => List.mem_append_left _ hx
  | blocks params blocks hn =>
    refine hmem fun x hx hf => ?_
    rw [globals_closed]
    refine List.mem_map.mpr ⟨x, hx, ?_⟩
    cases x with
    | function f => exact absurd rfl (hf f)
    | _ => rfl
  | _ => exact h

theorem Changes.provides {g : Grant} {type : Ty} (hc : Changes g s s')
    (h : HasAddress s.globals name type) : HasAddress s'.globals name type := by
  induction hc with
  | refl => exact h
  | tail _ hc ih => exact hc.provides ih

namespace Scaffold

theorem Extends.block_eq (h : Extends w w') (hw' : Proper F w') {b b' : Block} (hb : b ∈ w.blocks)
    (hb' : b' ∈ w'.blocks) (hl : b'.label = b.label) :
    (∃ code, b'.body = b.body ++ code ∧ ∀ i ∈ code, i.operation.isPhi = false) ∧
      ∀ t, b.terminator = some t → b'.terminator = some t := by
  obtain ⟨b1, hb1, hl1, hbody, ht⟩ := h.blocks b hb
  obtain rfl := hw'.block_eq hb1 hb' (hl1.trans hl.symm)
  exact ⟨hbody, ht⟩

/-- A block that has no end had none. -/
theorem Extends.open_of_open (h : Extends w w') (hw' : Proper F w') {b b' : Block}
    (hb : b ∈ w.blocks) (hb' : b' ∈ w'.blocks) (hl : b'.label = b.label)
    (ht : b'.terminator = none) : b.terminator = none := by
  cases ht' : b.terminator with
  | none => rfl
  | some t =>
    rw [(h.block_eq hw' hb hb' hl).2 t ht'] at ht
    cases ht

/-- What may be used at the end of a block may still be used there. -/
theorem Extends.reaches (h : Extends w w') (hl : ∃ b ∈ w.blocks, b.label = label)
    (ho : w.Reaches F label o) : w'.Reaches F label o := by
  obtain ⟨b0, hb0, rfl⟩ := hl
  cases o with
  | register x type =>
    refine ho.imp_right ?_
    rintro ⟨b, hb, hmem, i, hi, hd⟩
    obtain ⟨b', hb', hlabel, ⟨code, hcode, -⟩, -⟩ := h.blocks b hb
    refine ⟨b', hb', ?_, i, ?_, hd⟩
    · rw [hlabel, h.table b0 hb0]
      exact hmem
    · rw [hcode]
      exact List.mem_append_left _ hi
  | global name type => exact h.changes.provides ho
  | int value type => exact ho
  | double value => trivial
  | null type => exact ho

/-! ## Going on -/

/-- Blocks other than the current one that had no end are as they were, no way leads newly to a
block that was there, and new blocks have their ends. The current block may become another one,
if `moves` holds, and has got its end then. -/
structure Onward (moves : Prop) (w w' : Scaffold) : Prop extends Extends w w' where
  idle : ∀ b ∈ w.blocks, b.terminator = none → b.label ≠ w.current → b ∈ w'.blocks
  fresh : ∀ b' ∈ w'.blocks, (∃ b ∈ w.blocks, b.label = b'.label) ∨
    moves ∧ b'.label ∉ w.state.used ∧ (b'.terminator = none → b'.label = w'.current)
  edges : ∀ l l', Edge w'.blocks l l' → (∃ b ∈ w.blocks, b.label = l') → Edge w.blocks l l'
  current : w'.current = w.current ∨ moves ∧ w'.current ∉ w.state.used ∧ w'.Ended w.current
  passed : w.table w.current ⊆ w'.table w'.current
  live : w.Live → w'.Live

theorem Onward.refl (w : Scaffold) : Onward moves w w :=
  ⟨.refl w, fun _ hb _ _ => hb, fun b hb => .inl ⟨b, hb, rfl⟩, fun _ _ h _ => h, .inl rfl,
    subset_rfl, id⟩

/-- A block without an end is not one that has its end. -/
theorem Ended.not_open (h : w.Ended label) (hw : Proper F w) {b : Block} (hb : b ∈ w.blocks)
    (hl : b.label = label) : b.terminator ≠ none := by
  obtain ⟨b', hb', hl', t, ht⟩ := h
  obtain rfl := hw.block_eq hb hb' (hl.trans hl'.symm)
  rw [ht]
  exact Option.some_ne_none t

theorem Onward.trans (h : Onward moves w w') (h' : Onward moves w' w'') (hw : Proper F w)
    (hw'' : Proper F w'') : Onward moves w w'' := by
  refine ⟨h.toExtends.trans h'.toExtends, ?_, ?_, ?_, ?_, h.passed.trans h'.passed,
    fun hl => h'.live (h.live hl)⟩
  · intro b hb ht hne
    refine h'.idle b (h.idle b hb ht hne) ht ?_
    rcases h.current with heq | ⟨-, hfresh, -⟩
    · rwa [heq]
    · exact fun heq => hfresh (heq ▸ hw.labelled b hb)
  · intro b'' hb''
    rcases h'.fresh b'' hb'' with ⟨b', hb', hl⟩ | ⟨hm, hnew, hcur⟩
    · rcases h.fresh b' hb' with ⟨b, hb, hl'⟩ | ⟨hm, hnew, hcur⟩
      · exact .inl ⟨b, hb, hl'.trans hl⟩
      · -- a block made before `w'` that has no end in `w''` was the current one in `w'`
        refine .inr ⟨hm, hl ▸ hnew, fun ht => ?_⟩
        have hopen := h'.toExtends.open_of_open hw'' hb' hb'' hl.symm ht
        rcases h'.current with heq | ⟨-, -, hended⟩
        · rw [heq, ← hcur hopen, hl]
        · exact absurd ht (hended.not_open hw'' hb'' (hl.symm.trans (hcur hopen)))
    · exact .inr ⟨hm, fun hmem => hnew (h.used hmem), hcur⟩
  · intro l l' he hl
    obtain ⟨b, hb, rfl⟩ := hl
    obtain ⟨b', hb', hlabel, -⟩ := h.blocks b hb
    exact h.edges l _ (h'.edges l _ he ⟨b', hb', hlabel⟩) ⟨b, hb, rfl⟩
  · rcases h'.current with heq' | ⟨hm, hnew, hended⟩
    · rcases h.current with heq | ⟨hm, hnew, hended⟩
      · exact .inl (heq'.trans heq)
      · exact .inr ⟨hm, heq'.symm ▸ hnew, h'.toExtends.ended hended⟩
    · rcases h.current with heq | ⟨-, -, hended'⟩
      · exact .inr ⟨hm, fun hmem => hnew (h.used hmem), heq ▸ hended⟩
      · exact .inr ⟨hm, fun hmem => hnew (h.used hmem), h'.toExtends.ended hended'⟩

theorem Has.on {type : Ty} (h : w.Has F o type) (hw : Onward moves w w') : w'.Has F o type := by
  refine ⟨?_, h.2⟩
  cases o with
  | register x type =>
    refine h.1.imp_right ?_
    rintro ⟨b, hb, hmem, i, hi, hd⟩
    obtain ⟨b', hb', hlabel, ⟨code, hcode, -⟩, -⟩ := hw.blocks b hb
    refine ⟨b', hb', hw.passed (hlabel ▸ hmem), i, ?_, hd⟩
    rw [hcode]
    exact List.mem_append_left _ hi
  | global name type => exact hw.changes.provides h.1
  | int value type => exact h.1
  | double value => trivial
  | null type => exact h.1

theorem Settled.on (h : w.Settled label) (hw : Onward moves w w') : w'.Settled label := by
  obtain ⟨b, hb, hl, ht⟩ := h
  obtain ⟨b', hb', hl', -, ht'⟩ := hw.blocks b hb
  cases hterm : b.terminator with
  | some t =>
    refine ⟨b', hb', hl'.trans hl, fun hnone => ?_⟩
    rw [ht' t hterm] at hnone
    cases hnone
  | none =>
    rcases hw.current with heq | ⟨-, -, c, hc, hcl, t, hct⟩
    · exact ⟨b', hb', hl'.trans hl, fun _ => (ht hterm).trans heq.symm⟩
    · refine ⟨c, hc, hcl.trans (ht hterm).symm, fun hnone => ?_⟩
      rw [hct] at hnone
      cases hnone

theorem Ended.settled (h : w.Ended label) : w.Settled label := by
  obtain ⟨b, hb, hl, t, ht⟩ := h
  refine ⟨b, hb, hl, fun hnone => ?_⟩
  rw [ht] at hnone
  cases hnone

end Scaffold
open Scaffold

/-! ## Computations that build -/

/-- Where the computation gives a result, the function is proper, and `P` holds; where it fails, no
instruction was refused. -/
def Achieves (F : Form) (w : Scaffold) (m : Lower α) (P : α → Scaffold → Prop) : Prop :=
  Proper F w →
    (∀ a s', m w.state = .ok a s' → ∃ w', w'.state = s' ∧ Proper F w' ∧ P a w') ∧
      ∀ cause s', m w.state = .error cause s' → cause.isMisfit = false

/-- The computation goes on with the function. -/
def Builds (F : Form) (moves : Prop) (w : Scaffold) (m : Lower α) (Q : α → Scaffold → Prop) :
    Prop :=
  Achieves F w m fun a w' => Onward moves w w' ∧ Q a w'

theorem Achieves.bind (hm : Achieves F w m P)
    (hf : ∀ a w', Proper F w' → P a w' → Achieves F w' (f a) R) : Achieves F w (m >>= f) R := by
  intro hw
  obtain ⟨hok, herror⟩ := hm hw
  constructor
  · intro b s'' h
    obtain ⟨a, s', hms, hfs⟩ := bind_eq_ok.mp h
    obtain ⟨w', rfl, hw', ha⟩ := hok a s' hms
    exact (hf a w' hw' ha hw').1 b s'' hfs
  · intro cause s'' h
    rcases bind_eq_error.mp h with hms | ⟨a, s', hms, hfs⟩
    · exact herror cause s'' hms
    · obtain ⟨w', rfl, hw', ha⟩ := hok a s' hms
      exact (hf a w' hw' ha hw').2 cause s'' hfs

/-- A step that cannot fail. -/
theorem Achieves.step (w' : Scaffold) (hm : m w.state = .ok a w'.state)
    (hw' : Proper F w → Proper F w') (hf : Achieves F w' (f a) R) : Achieves F w (m >>= f) R := by
  intro hw
  rw [bind_ok hm]
  exact hf (hw' hw)

theorem Achieves.imp {R : α → Scaffold → Prop} (hm : Achieves F w m P)
    (h : ∀ a w', Proper F w' → P a w' → R a w') : Achieves F w m R := by
  intro hw
  obtain ⟨hok, herror⟩ := hm hw
  refine ⟨fun a s' hms => ?_, herror⟩
  obtain ⟨w', hs, hw', ha⟩ := hok a s' hms
  exact ⟨w', hs, hw', h a w' hw' ha⟩

theorem Builds.bind (hm : Builds F moves w m Q)
    (hf : ∀ a w', Onward moves w w' → Q a w' → Builds F moves w' (f a) R) :
    Builds F moves w (m >>= f) R :=
  fun hw =>
  Achieves.bind hm (fun a w' _ ha => (hf a w' ha.1 ha.2).imp fun _ _ hw'' hb =>
    ⟨ha.1.trans hb.1 hw hw'', hb.2⟩) hw

theorem Builds.imp {R : α → Scaffold → Prop} (hm : Builds F moves w m Q)
    (h : ∀ a w', Onward moves w w' → Q a w' → R a w') : Builds F moves w m R :=
  Achieves.imp hm fun a w' _ ha => ⟨ha.1, h a w' ha.1 ha.2⟩

theorem achieves_pure (h : P a w) : Achieves F w (pure a) P := by
  intro hw
  refine ⟨?_, ?_⟩
  · rintro _ _ ⟨⟩
    exact ⟨w, rfl, hw, h⟩
  · rintro cause s' ⟨⟩

theorem builds_pure (h : Q a w) : Builds F moves w (pure a) Q :=
  achieves_pure ⟨.refl w, h⟩

theorem Builds.map {f : α → β} (hm : Builds F moves w m Q) (h : ∀ a w', Q a w' → R (f a) w') :
    Builds F moves w (f <$> m) R := by
  rw [map_eq_pure_bind]
  exact hm.bind fun a w' _ ha => builds_pure (h a w' ha)

theorem builds_fail {cause : Fault} (h : cause.isMisfit = false) :
    Builds F moves w (fail cause) Q := by
  intro _
  refine ⟨?_, ?_⟩
  · rintro _ _ ⟨⟩
  · rintro _ _ ⟨⟩
    exact h

theorem builds_mismatch : Builds F moves w (mismatch cause) Q := builds_fail rfl

theorem builds_mismatch_bind {Q : β → Scaffold → Prop} :
    Builds F moves w ((mismatch cause : Lower α) >>= f) Q :=
  (builds_mismatch (Q := fun _ _ => False)).bind fun _ _ _ h => h.elim

/-- What is read of the state may decide what follows. -/
theorem builds_get {f : State → Lower α} (hf : Proper F w → Builds F moves w (f w.state) Q) :
    Builds F moves w (get >>= f) Q :=
  fun hw => hf hw hw

/-! ## Instructions -/

theorem Consistent.withDraft (h : Consistent F s) (d : Draft) :
    Consistent F { s with draft := d } where
  named := ⟨h.named.distinct, h.named.known, h.named.inside, h.named.outside, h.named.texts,
    h.named.library⟩
  functions := h.functions
  callees := h.callees
  linked := h.linked
  bodies := h.bodies
  externals := h.externals
  symbols := h.symbols
  numbers := h.numbers
  alone := h.alone

namespace Scaffold

theorem Reaches.available (hw : Proper F w) {b : Block} (hb : b ∈ w.blocks)
    (ho : w.Reaches F b.label o) : (w.body F).Available b.label b.body o := by
  cases o with
  | register x type =>
    rcases ho with hp | ⟨b', hb', hmem, i, hi, hd⟩
    · exact .inl hp
    · by_cases hl : b'.label = b.label
      · obtain rfl := hw.block_eq hb' hb hl
        exact .inr (.inl ⟨i, hi, hd⟩)
      · exact .inr (.inr ⟨b', hb', hl, hmem, i, hi, hd⟩)
  | global name type => exact ho
  | int value type => exact ho
  | double value => trivial
  | null type => exact ho

/-- With an instruction more in the current block. -/
def emitted (w : Scaffold) (op : Operation) (wanted : String) : Scaffold :=
  ⟨w.table, w.state.emitted op wanted⟩

theorem body_emitted (F : Form) (w : Scaffold) (op : Operation) (wanted : String) :
    (w.emitted op wanted).body F = (w.body F).changed w.current fun b =>
      { b with body := b.body ++ [⟨w.state.fresh wanted, op⟩] } := rfl

theorem mem_emitted {op : Operation} {wanted : String} {b' : Block}
    (h : b' ∈ (w.emitted op wanted).blocks) :
    ∃ b ∈ w.blocks,
      (b.label = w.current ∧ b' = { b with body := b.body ++ [⟨w.state.fresh wanted, op⟩] }) ∨
        (b.label ≠ w.current ∧ b' = b) :=
  Body.mem_changed (f := w.body ⟨.void, [], "", ∅⟩) h

end Scaffold

section
variable {op : Operation}

theorem Proper.emitted (hw : Proper F w)
    (hop : ∀ b ∈ w.blocks, b.label = w.current → (w.body F).Admits w.current b.body op)
    (wanted : String) : Proper F (w.emitted op wanted) := by
  have hused : (w.emitted op wanted).state.used = w.state.fresh wanted :: w.state.used :=
    used_emitted _ _ _
  have hlabels : (w.emitted op wanted).blocks.map Block.label = w.blocks.map Block.label :=
    Body.labels_changed (w.body F) w.current
      (fun b => { b with body := b.body ++ [⟨w.state.fresh wanted, op⟩] }) fun _ => rfl
  have hlabel {b' : Block} (hb' : b' ∈ (w.emitted op wanted).blocks) :
      ∃ b ∈ w.blocks, b.label = b'.label := by
    have hm := List.mem_map_of_mem (f := Block.label) hb'
    rw [hlabels] at hm
    exact List.mem_map.mp hm
  refine ⟨?_, ?_, ?_, ?_, hw.root, ?_, ?_, ?_, hw.consistent.withDraft _⟩
  · rw [body_emitted]
    refine hw.sound.extend (fun hm => ?_) hop
    exact fresh_not_mem w.state wanted (hw.named _ hm)
  · intro b' hb'
    obtain ⟨b, hb, hl⟩ := hlabel hb'
    rw [hused, ← hl]
    exact List.mem_cons_of_mem _ (hw.labelled b hb)
  · intro x hx
    rw [hused]
    rcases List.mem_append.mp hx with hx | hx
    · exact List.mem_cons_of_mem _ (hw.named x (List.mem_append_left _ hx))
    · obtain ⟨b', hb', hx⟩ := List.mem_flatMap.mp hx
      obtain ⟨b, hb, ⟨-, rfl⟩ | ⟨-, rfl⟩⟩ := mem_emitted hb'
      · rw [List.map_append, List.mem_append, List.map_singleton, List.mem_singleton] at hx
        rcases hx with hx | rfl
        · exact List.mem_cons_of_mem _
            (hw.named x (List.mem_append_right _ (List.mem_flatMap.mpr ⟨b, hb, hx⟩)))
        · exact List.mem_cons_self
      · exact List.mem_cons_of_mem _
          (hw.named x (List.mem_append_right _ (List.mem_flatMap.mpr ⟨_, hb, hx⟩)))
  · rw [← List.head?_map, hlabels, List.head?_map]
    exact hw.first
  · intro b' hb'
    obtain ⟨b, hb, hl⟩ := hlabel hb'
    rw [← hl]
    exact hw.table b hb
  · intro l l' he
    exact hw.edges l l' ((Body.edge_extended (f := w.body F)).mp he)
  · obtain ⟨b, hb, hl⟩ := hw.current
    have hm := List.mem_map_of_mem (f := Block.label) hb
    rw [← hlabels] at hm
    obtain ⟨b', hb', hl'⟩ := List.mem_map.mp hm
    exact ⟨b', hb', hl'.trans hl⟩

theorem live_emitted (hl : w.Live) (op : Operation) (wanted : String) :
    (w.emitted op wanted).Live := by
  obtain ⟨b, hb, hbl, ht⟩ := hl
  refine ⟨_, List.mem_map_of_mem hb, ?_⟩
  split
  · exact ⟨hbl, ht⟩
  · exact ⟨hbl, ht⟩

theorem onward_emitted (F : Form) (w : Scaffold) (hphi : op.isPhi = false) (wanted : String) :
    Onward moves w (w.emitted op wanted) := by
  have himage : ∀ b ∈ w.blocks, ∃ b' ∈ (w.emitted op wanted).blocks, b'.label = b.label ∧
      (∃ code, b'.body = b.body ++ code ∧ ∀ i ∈ code, i.operation.isPhi = false) ∧
      b'.terminator = b.terminator := by
    intro b hb
    refine ⟨_, List.mem_map_of_mem hb, ?_⟩
    split
    · exact ⟨rfl, ⟨[⟨w.state.fresh wanted, op⟩], rfl, by simpa using hphi⟩, rfl⟩
    · exact ⟨rfl, ⟨[], by simp, by simp⟩, rfl⟩
  refine ⟨⟨.single (.draft _ _), ?_, fun _ _ => rfl, ?_⟩, ?_, ?_, ?_, .inl rfl, subset_rfl,
    fun hl => live_emitted hl op wanted⟩
  · rw [show (w.emitted op wanted).state.used = _ from used_emitted _ _ _]
    exact fun _ => List.mem_cons_of_mem _
  · intro b hb
    obtain ⟨b', hb', hl, hcode, ht⟩ := himage b hb
    exact ⟨b', hb', hl, hcode, fun t h => ht.trans h⟩
  · exact fun b hb _ hne => List.mem_map.mpr ⟨b, hb, if_neg hne⟩
  · intro b' hb'
    obtain ⟨b, hb, ⟨-, rfl⟩ | ⟨-, rfl⟩⟩ := mem_emitted hb'
    · exact .inl ⟨b, hb, rfl⟩
    · exact .inl ⟨_, hb, rfl⟩
  · exact fun l l' he _ => (Body.edge_extended (f := w.body F)).mp he

theorem has_emitted (hw : Proper F w) (op : Operation) (wanted : String) :
    (w.emitted op wanted).Has F (.register (w.state.fresh wanted) op.type) op.type := by
  obtain ⟨b, hb, hl⟩ := hw.current
  have hself := (hw.table b hb).1
  refine ⟨.inr ⟨_, List.mem_map_of_mem hb, ?_, ⟨w.state.fresh wanted, op⟩, ?_, rfl, rfl⟩, rfl⟩
  · rw [if_pos hl]
    show b.label ∈ w.table w.current
    rwa [← hl]
  · rw [if_pos hl]
    exact List.mem_append_right _ List.mem_cons_self

theorem emit_run (hop : op.misfit? = none) (wanted : String) (s : State) :
    emit op wanted s = .ok (.register (s.fresh wanted) op.type) (s.emitted op wanted) := by
  unfold emit
  rw [hop]
  rfl

/-- The instruction may stand at the end of the current block. -/
structure Permits (F : Form) (w : Scaffold) (op : Operation) : Prop where
  typed : op.WellTyped
  operands : ∀ o ∈ op.operands, w.Reaches F w.current o
  declared : ∀ callee args, op = .call callee args → HasFunction w.state.globals callee
  plain : op.isPhi = false

theorem builds_emit (hop : Permits F w op) (wanted : String) :
    Builds F moves w (emit op wanted) fun o w' => w'.Has F o op.type := by
  have hrun := emit_run hop.typed.misfit? wanted w.state
  intro hw
  refine ⟨fun o s' h => ?_, fun cause s' h => ?_⟩
  · cases hrun.symm.trans h
    refine ⟨w.emitted op wanted, rfl, hw.emitted (fun b hb hl => ?_) wanted,
      onward_emitted F w hop.plain wanted, has_emitted hw op wanted⟩
    refine ⟨hop.typed, fun o ho => ?_, hop.declared, ?_⟩
    · rw [← hl]
      exact Reaches.available hw hb (hl ▸ hop.operands o ho)
    · cases op with
      | phi type incoming => cases hop.plain
      | _ => trivial
  · cases hrun.symm.trans h

end

/-! ### One lemma for each kind of instruction -/

section
variable {left right value address base index condition yes no : Operand} {type : Ty}
  {args : List Operand} {callee : Signature}

theorem builds_binary {op : BinaryOp} (hl : w.Has F left type) (hr : w.Has F right type)
    (hop : op.Takes type) (wanted : String) :
    Builds F moves w (emit (.binary op left right) wanted) fun o w' => w'.Has F o type := by
  have hpermits : Permits F w (.binary op left right) :=
    ⟨⟨hl.2.trans hr.2.symm, hl.2.symm ▸ hop⟩, by simp [Operation.operands, hl.1, hr.1], by simp,
      rfl⟩
  exact (builds_emit hpermits wanted).imp fun _ _ _ ho => hl.2 ▸ ho

theorem builds_icmp {test : IntTest} (hl : w.Has F left type) (hr : w.Has F right type)
    (ht : 0 < type.width) (wanted : String) :
    Builds F moves w (emit (.icmp test left right) wanted) fun o w' => w'.Has F o .i1 := by
  have hpermits : Permits F w (.icmp test left right) :=
    ⟨⟨hl.2.trans hr.2.symm, hl.2.symm ▸ ht⟩, by simp [Operation.operands, hl.1, hr.1], by simp, rfl⟩
  exact builds_emit hpermits wanted

theorem builds_fcmp {test : FloatTest} (hl : w.Has F left .double) (hr : w.Has F right .double)
    (wanted : String) :
    Builds F moves w (emit (.fcmp test left right) wanted) fun o w' => w'.Has F o .i1 := by
  have hpermits : Permits F w (.fcmp test left right) :=
    ⟨⟨hl.2, hr.2⟩, by simp [Operation.operands, hl.1, hr.1], by simp, rfl⟩
  exact builds_emit hpermits wanted

theorem builds_cast {how : Conversion} (hv : w.Has F value type) {target : Ty}
    (h : how.Takes type target) (wanted : String) :
    Builds F moves w (cast how value target wanted) fun o w' => w'.Has F o target := by
  unfold cast
  split
  · rename_i heq
    exact builds_pure ⟨hv.1, heq⟩
  · have hpermits : Permits F w (.convert how value target) :=
      ⟨show how.Takes value.type target from hv.2.symm ▸ h, by simp [Operation.operands, hv.1],
        by simp, rfl⟩
    exact builds_emit hpermits wanted

theorem builds_load (ha : w.Has F address (.pointer type)) (ht : type ≠ .void) (wanted : String) :
    Builds F moves w (emit (.load address) wanted) fun o w' => w'.Has F o type := by
  have hpermits : Permits F w (.load address) :=
    ⟨⟨type, ha.2, ht⟩, by simp [Operation.operands, ha.1], by simp, rfl⟩
  refine (builds_emit hpermits wanted).imp fun _ _ _ ho => ?_
  rwa [Operation.type, ha.2] at ho

theorem builds_store (hv : w.Has F value type) (ha : w.Has F address (.pointer type))
    (ht : type ≠ .void) (wanted : String) :
    Builds F moves w (emit (.store value address) wanted) fun _ _ => True := by
  have hpermits : Permits F w (.store value address) :=
    ⟨⟨hv.2.symm ▸ ha.2, hv.2.symm ▸ ht⟩, by simp [Operation.operands, hv.1, ha.1], by simp, rfl⟩
  exact (builds_emit hpermits wanted).imp fun _ _ _ _ => trivial

theorem builds_alloca (ht : type ≠ .void) (wanted : String) :
    Builds F moves w (emit (.alloca type) wanted) fun o w' => w'.Has F o (.pointer type) := by
  have hpermits : Permits F w (.alloca type) := ⟨ht, by simp [Operation.operands], by simp, rfl⟩
  exact builds_emit hpermits wanted

theorem builds_element (hb : w.Has F base type) (ht : type.isPointer = true)
    (hi : w.Has F index .i32) (wanted : String) :
    Builds F moves w (emit (.element base index) wanted) fun o w' => w'.Has F o type := by
  have hpermits : Permits F w (.element base index) :=
    ⟨⟨hb.2.symm ▸ ht, hi.2⟩, by simp [Operation.operands, hb.1, hi.1], by simp, rfl⟩
  exact (builds_emit hpermits wanted).imp fun _ _ _ ho => hb.2 ▸ ho

theorem builds_select (hc : w.Has F condition .i1) (hy : w.Has F yes type) (hn : w.Has F no type)
    (wanted : String) :
    Builds F moves w (emit (.select condition yes no) wanted) fun o w' => w'.Has F o type := by
  have hpermits : Permits F w (.select condition yes no) :=
    ⟨⟨hc.2, hy.2.trans hn.2.symm⟩, by simp [Operation.operands, hc.1, hy.1, hn.1], by simp, rfl⟩
  exact (builds_emit hpermits wanted).imp fun _ _ _ ho => hy.2 ▸ ho

theorem builds_call (hd : HasFunction w.state.globals callee)
    (hargs : ∀ o ∈ args, w.Reaches F w.current o) (ht : (Operation.call callee args).WellTyped)
    (wanted : String) :
    Builds F moves w (emit (.call callee args) wanted) fun o w' => w'.Has F o callee.returns := by
  have hpermits : Permits F w (.call callee args) := by
    refine ⟨ht, hargs, fun callee' args' heq => ?_, rfl⟩
    cases heq
    exact hd
  exact builds_emit hpermits wanted

/-- A call of the library. -/
theorem builds_library (hc : callee ∈ library) (hargs : ∀ o ∈ args, w.Reaches F w.current o)
    (ht : (Operation.call callee args).WellTyped) (wanted : String) :
    Builds F moves w (emit (.call callee args) wanted) fun o w' => w'.Has F o callee.returns := by
  intro hw
  obtain ⟨params, hmem⟩ := hw.consistent.named.library callee hc
  exact builds_call ⟨_, hmem, rfl⟩ hargs ht wanted hw

end

/-! ## Changes to the module -/

/-- Only the module and the context have changed. -/
theorem Proper.withModule (hw : Proper F w) (hd : s'.draft = w.state.draft)
    (hc : Changes .everything w.state s') (h : Consistent F s') : Proper F ⟨w.table, s'⟩ := by
  have hgrows : (w.body F).Grows (Scaffold.body F ⟨w.table, s'⟩) := by
    refine ⟨fun _ h => h, fun _ _ h => hc.provides h, fun _ h => hc.declared h, fun b hb => ?_,
      fun _ _ _ _ h => h⟩
    refine ⟨b, ?_, rfl, List.prefix_refl _⟩
    show b ∈ s'.draft.blocks
    rwa [hd]
  have hblocks : Scaffold.blocks ⟨w.table, s'⟩ = w.blocks := congrArg Draft.blocks hd
  have hused : s'.used = w.state.used := congrArg (·.names.used) hd
  refine ⟨hw.sound.mono hgrows rfl rfl hblocks, ?_, ?_, ?_, hw.root, ?_, ?_, ?_, h⟩
  · rw [hblocks, hused]
    exact hw.labelled
  · rw [hblocks, hused]
    exact hw.named
  · rw [hblocks]
    exact hw.first
  · rw [hblocks]
    exact hw.table
  · rw [hblocks]
    exact hw.edges
  · rw [hblocks, show Scaffold.current ⟨w.table, s'⟩ = w.current from congrArg Draft.current hd]
    exact hw.current

theorem onward_withModule (hd : s'.draft = w.state.draft) (hc : Changes .everything w.state s') :
    Onward moves w ⟨w.table, s'⟩ := by
  have hblocks : Scaffold.blocks ⟨w.table, s'⟩ = w.blocks := congrArg Draft.blocks hd
  have hcurrent : Scaffold.current ⟨w.table, s'⟩ = w.current := congrArg Draft.current hd
  refine ⟨⟨hc, ?_, fun _ _ => rfl, ?_⟩, ?_, ?_, ?_, .inl hcurrent, ?_, ?_⟩
  · rw [show s'.used = w.state.used from congrArg (·.names.used) hd]
    exact fun _ h => h
  · rw [hblocks]
    exact (Extends.refl w).blocks
  · rw [hblocks]
    exact fun b hb _ _ => hb
  · rw [hblocks]
    exact fun b hb => .inl ⟨b, hb, rfl⟩
  · rw [hblocks]
    exact fun _ _ h _ => h
  · rw [hcurrent]
  · rintro ⟨b, hb, hl, ht⟩
    exact ⟨b, hblocks ▸ hb, hl.trans hcurrent.symm, ht⟩

/-- A step that leaves the draft alone. -/
theorem builds_module (hrun : m w.state = .ok a s') (hd : s'.draft = w.state.draft)
    (hc : Changes .everything w.state s') (h : Proper F w → Consistent F s')
    (hq : Proper F w → Q a ⟨w.table, s'⟩) : Builds F moves w m Q := by
  intro hw
  refine ⟨fun b t ht => ?_, fun cause t ht => ?_⟩
  · cases hrun.symm.trans ht
    exact ⟨⟨w.table, s'⟩, rfl, hw.withModule hd hc (h hw), onward_withModule hd hc, hq hw⟩
  · cases hrun.symm.trans ht

theorem Consistent.addGlobal (h : Consistent F s) {x : Global} {names : Names}
    (hn : Named { s with globals := s.globals ++ [x], globalNames := names })
    (hf : ∀ f, x = .function f → f.WellFormed (s.globals ++ [x]))
    (he : ∀ name type, x = .external name type → F.Foresees s name type) :
    Consistent F { s with globals := s.globals ++ [x], globalNames := names } := by
  have ha (name : String) (type : Ty) (h : HasAddress s.globals name type) :
      HasAddress (s.globals ++ [x]) name type :=
    h.imp (fun ⟨t, ht, heq⟩ => ⟨t, List.mem_append_left _ ht, heq⟩)
      fun ⟨c, hc, heq⟩ => ⟨c, List.mem_append_left _ hc, heq⟩
  have hfun (callee : Signature) (h : HasFunction s.globals callee) :
      HasFunction (s.globals ++ [x]) callee := by
    obtain ⟨f, hf, rfl⟩ := h
    exact ⟨f, List.mem_append_left _ hf, rfl⟩
  refine ⟨hn, ?_, fun name callee hc => hfun callee (h.callees name callee hc), h.linked, h.bodies,
    ?_, h.symbols, h.numbers, h.alone⟩
  · intro f hmem
    rcases List.mem_append.mp hmem with hmem | hmem
    · exact (h.functions f hmem).mono ha hfun
    · exact hf f (List.mem_singleton.mp hmem).symm
  · intro name type hmem
    rcases List.mem_append.mp hmem with hmem | hmem
    · exact h.externals name type hmem
    · exact he name type (List.mem_singleton.mp hmem).symm

/-- The type of a variable outside the module is settled by its name. -/
theorem Consistent.foresees_unique (h : Consistent F s) {type type' : Ty}
    (ht : F.Foresees s name type) (ht' : F.Foresees s name type') : type = type' := by
  have hfixed {slot : Slot} {t : Ty} : (slot.symbol, t) ∉
      [(emptyText, Ty.array 1 .i8), (emptyArray, .array 1 .i32), (resultPresent, .i8)] := by
    intro hm
    simp only [List.mem_cons, Prod.mk.injEq, List.not_mem_nil, or_false] at hm
    rcases hm with ⟨hs, -⟩ | ⟨hs, -⟩ | ⟨hs, -⟩
    · exact slot.symbol_ne (by decide) hs
    · exact slot.symbol_ne (by decide) hs
    · exact slot.symbol_ne (by decide) hs
  rcases ht with hm | ⟨slot, hk, rfl, rfl⟩
  · rcases ht' with hm' | ⟨slot, -, rfl, -⟩
    · have hall : ∀ p ∈ [(emptyText, Ty.array 1 .i8), (emptyArray, .array 1 .i32),
          (resultPresent, .i8)], ∀ q ∈ [(emptyText, Ty.array 1 .i8), (emptyArray, .array 1 .i32),
          (resultPresent, .i8)], p.1 = q.1 → p.2 = q.2 := by decide
      exact hall _ hm _ hm' rfl
    · exact absurd hm hfixed
  · rcases ht' with hm' | ⟨slot', hk', hs, rfl⟩
    · exact absurd hm' hfixed
    · rw [h.alone slot slot' hk hk' hs]

/-- A variable outside the module is known to it, or gets known. -/
theorem external_run (s : State) (symbol : String) (type : Ty) :
    ((∃ t, Global.external symbol t ∈ s.globals) ∧
        external symbol type s = .ok (.global symbol (.pointer type)) s) ∨
      (∀ t, Global.external symbol t ∉ s.globals) ∧
        external symbol type s = .ok (.global symbol (.pointer type))
          { s with globals := s.globals ++ [.external symbol type] } := by
  unfold external
  rw [bind_ok (get_run s)]
  dsimp only
  split
  · rename_i hunknown
    refine .inr ⟨fun t ht => ?_, rfl⟩
    simp only [Bool.not_eq_eq_eq_not, Bool.not_true, List.any_eq_false] at hunknown
    exact hunknown _ ht (beq_self_eq_true symbol)
  · rename_i hknown
    refine .inl ⟨?_, rfl⟩
    simp only [Bool.not_eq_eq_eq_not, Bool.not_true, Bool.not_eq_false, List.any_eq_true] at hknown
    obtain ⟨x, hx, heq⟩ := hknown
    cases x with
    | external name t => exact ⟨t, eq_of_beq heq ▸ hx⟩
    | _ => cases heq

theorem builds_external {symbol : String} {type : Ty} (h : F.Foresees w.state symbol type)
    (ho : Outside symbol) :
    Builds F moves w (external symbol type) fun o w' => w'.Has F o (.pointer type) := by
  rcases external_run w.state symbol type with ⟨⟨t, ht⟩, hrun⟩ | ⟨hnone, hrun⟩
  · refine builds_module hrun rfl .refl Proper.consistent fun hw => ⟨.inl ⟨t, ht, ?_⟩, rfl⟩
    exact congrArg Ty.pointer
      (hw.consistent.foresees_unique h (hw.consistent.externals symbol t ht))
  · have hchange : Change .everything w.state
        { w.state with globals := w.state.globals ++ [.external symbol type] } :=
      .external _ type ho hnone
    refine builds_module hrun rfl (.single hchange) (fun hw => ?_) fun hw => ⟨?_, rfl⟩
    · refine hw.consistent.addGlobal (hchange.named hw.consistent.named) (by simp) ?_
      rintro name t ⟨⟩
      exact h
    · exact .inl ⟨type, List.mem_append_right _ List.mem_cons_self, rfl⟩

theorem builds_slotAddress (h : F.Knows w.state slot) :
    Builds F moves w (slotAddress slot) fun o w' => w'.Has F o (.pointer (irType slot.kind)) :=
  builds_external (.inr ⟨slot, h, rfl, rfl⟩) (outside_symbol slot)

theorem Form.Knows.on (h : F.Knows w.state slot) (hw : Onward moves w w') : F.Knows w'.state slot :=
  h.imp_right fun hs => hw.changes.created_subset hs

theorem builds_textConstant (contents : String) {wanted : String} (hw : wanted ∈ textNames) :
    Builds F moves w (textConstant contents wanted) fun o w' => w'.Has F o .text := by
  have htakes : Conversion.Takes (.pointer (textType contents)) .text .bitcast := ⟨rfl, rfl⟩
  refine Builds.bind (Q := fun name w' =>
    w'.Has F (.global name (.pointer (textType contents))) (.pointer (textType contents))) ?_
    fun name w' _ hname => builds_cast hname htakes _
  rcases textName_run w.state contents wanted with ⟨name, hrun, hmem⟩ | hrun
  · exact builds_module hrun rfl .refl Proper.consistent fun _ => ⟨.inr ⟨contents, hmem, rfl⟩, rfl⟩
  · have hchange : Change .everything w.state { w.state with
        globals := w.state.globals ++ [.text (w.state.globalNames.register wanted).1 contents]
        globalNames := (w.state.globalNames.register wanted).2 } := .text _ contents hw
    refine builds_module hrun rfl (.single hchange) (fun hw => ?_) fun _ => ⟨?_, rfl⟩
    · exact hw.consistent.addGlobal (hchange.named hw.consistent.named) (by simp) (by simp)
    · exact .inr ⟨contents, List.mem_append_right _ List.mem_cons_self, rfl⟩

/-! ## Code for other blocks -/

theorem Proper.entered (hw : Proper F w) (hl : ∃ b ∈ w.blocks, b.label = label) :
    Proper F (w.entered label) :=
  ⟨hw.sound, hw.labelled, hw.named, hw.first, hw.root, hw.table, hw.edges, hl,
    hw.consistent.withDraft _⟩

/-- Code is appended to a block that has its end, and lowering comes back. -/
theorem Scaffold.Onward.back (h : Onward False (w.entered label) w') (hl : w.Settled label)
    (hw : Proper F w) : Onward moves w (w'.entered w.current) := by
  have hcurrent : w'.current = label := h.current.resolve_right fun hm => hm.1
  have hkept : ∀ b ∈ w.blocks, b.terminator = none → b.label ≠ w.current → b ∈ w'.blocks := by
    intro b hb ht hne
    refine h.idle b hb ht fun heq => ?_
    obtain ⟨c, hc, hcl, hct⟩ := hl
    obtain rfl := hw.block_eq hb hc (heq.trans hcl.symm)
    exact hne (heq.trans (hct ht))
  have hextends : Extends w (w'.entered w.current) :=
    ⟨.trans (.single (.draft _ _)) (h.changes.trans (.single (.draft _ _))), h.used, h.table,
      h.blocks⟩
  refine ⟨hextends, hkept, ?_, h.edges, .inl rfl, ?_, ?_⟩
  · exact fun b' hb' => .inl ((h.fresh b' hb').resolve_right fun hm => hm.1)
  · obtain ⟨b, hb, hbl⟩ := hw.current
    show w.table w.current ⊆ w'.table w.current
    rw [← hbl, show w'.table b.label = w.table b.label from h.table b hb]
  · rintro ⟨b, hb, hbl, ht⟩
    by_cases heq : w.current = label
    · have hlive : (w.entered label).Live := ⟨b, hb, hbl.trans heq, ht⟩
      obtain ⟨b', hb', hbl', ht'⟩ := h.live hlive
      exact ⟨b', hb', (hbl'.trans hcurrent).trans heq.symm, ht'⟩
    · exact ⟨b, h.idle b hb ht fun h => heq (hbl.symm.trans h), hbl, ht⟩

theorem Builds.inBlock {build : Lower α} (hl : w.Settled label)
    (h : Builds F False (w.entered label) build Q) :
    Builds F moves w (inBlock label build) fun a w' => Q a (w'.entered label) := by
  intro hw
  have hentered : Proper F (w.entered label) := by
    obtain ⟨b, hb, hbl, -⟩ := hl
    exact hw.entered ⟨b, hb, hbl⟩
  refine Achieves.step w rfl id (Achieves.step (w.entered label) rfl (fun _ => hentered)
    (Achieves.bind h fun a w1 hw1 ha => ?_)) hw
  have hcurrent : ∃ b ∈ w1.blocks, b.label = w.current := by
    obtain ⟨b, hb, hbl⟩ := hw.current
    obtain ⟨b', hb', hbl', -⟩ := ha.1.blocks b hb
    exact ⟨b', hb', hbl'.trans hbl⟩
  refine Achieves.step (w1.entered w.current) rfl (fun hw1 => hw1.entered hcurrent)
    (achieves_pure ⟨ha.1.back hl hw, ?_⟩)
  have hback : (w1.entered w.current).entered label = w1 := by
    have hlabel : w1.current = label := ha.1.current.resolve_right fun hm => hm.1
    rw [← hlabel]
    rfl
  show Q a ((w1.entered w.current).entered label)
  rw [hback]
  exact ha.2

theorem Proper.entry_mem (hw : Proper F w) : ∃ b ∈ w.blocks, b.label = F.entry := by
  have hfirst := hw.first
  cases hb : w.blocks with
  | nil =>
    rw [hb] at hfirst
    cases hfirst
  | cons b rest =>
    rw [hb] at hfirst
    exact ⟨b, List.mem_cons_self, Option.some.inj hfirst⟩

/-- A stack cell may be used everywhere in the function. -/
structure Scaffold.Anywhere (F : Form) (w : Scaffold) (o : Operand) (type : Ty) : Prop where
  entry : ∃ b ∈ w.blocks, b.label = F.entry
  reaches : w.Reaches F F.entry o
  type : o.type = type

theorem Scaffold.Anywhere.has {type : Ty} (h : w.Anywhere F o type) (hw : Proper F w) :
    w.Has F o type := by
  refine ⟨?_, h.type⟩
  obtain ⟨b, hb, hbl⟩ := hw.current
  have hreaches := h.reaches
  cases o with
  | register x t =>
    refine hreaches.imp_right ?_
    rintro ⟨b', hb', hmem, hi⟩
    rw [hw.root] at hmem
    exact ⟨b', hb', hbl ▸ hmem.symm ▸ (hw.table b hb).2, hi⟩
  | _ => exact hreaches

theorem Scaffold.Anywhere.extend {type : Ty} (h : w.Anywhere F o type) (he : Extends w w') :
    w'.Anywhere F o type := by
  refine ⟨?_, he.reaches h.entry h.reaches, h.type⟩
  obtain ⟨b, hb, hl⟩ := h.entry
  obtain ⟨b', hb', hl', -⟩ := he.blocks b hb
  exact ⟨b', hb', hl'.trans hl⟩

theorem builds_entryAlloca (he : w.Settled F.entry) {type : Ty} (ht : type ≠ .void)
    (wanted : String) :
    Builds F moves w (entryAlloca type wanted) fun o w' => w'.Anywhere F o (.pointer type) := by
  unfold entryAlloca
  refine builds_get fun hw => ?_
  have hfirst := hw.first
  cases hb : w.blocks with
  | nil =>
    rw [hb] at hfirst
    cases hfirst
  | cons b rest =>
    rw [hb] at hfirst
    have hentry : b.label = F.entry := Option.some.inj hfirst
    rw [show w.state.draft.blocks = b :: rest from hb]
    dsimp only
    rw [hentry]
    refine (Builds.inBlock he (builds_alloca ht wanted)).imp fun o w' h ho => ?_
    obtain ⟨c, hc, hcl⟩ := hw.entry_mem
    obtain ⟨c', hc', hcl', -⟩ := h.blocks c hc
    exact ⟨⟨c', hc', hcl'.trans hcl⟩, ho.1, ho.2⟩

end Lowering
end DualEngine
