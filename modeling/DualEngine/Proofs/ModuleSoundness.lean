import DualEngine.Proofs.BuildingTrees

/-! # Every lowered module is well formed

A session that parsed submissions lead to, in which no function is defined inside another one, keeps
what lowering relies on: slots with numbers of their own, and functions whose bodies are statements.
So whatever is submitted next either gives a well-formed module or fails for a reason that the
language knows.
-/
namespace DualEngine

namespace IR

end IR

namespace Lowering
open IR Scaffold

variable {F : Form} {w : Scaffold} {moves : Prop} {c : Context Slot} {nextSlot number : Nat}
  {kind : Kind} {node : Node}

/-! ## The entry function -/

theorem builds_storePresence {ran : Option Operand}
    (hran : ∀ o, ran = some o → w.Has F o (.pointer .i1)) :
    Builds F moves w (storePresence ran) fun _ _ => True := by
  have hstore {w : Scaffold} {present : Operand} (hp : w.Has F present .i8) :
      Builds F moves w (do
        let address ← external resultPresent .i8
        let _ ← emit (.store present address) "") fun _ _ => True := by
    refine (builds_external (.inl (by decide)) (by decide)).bind fun address w1 h1 ha => ?_
    exact (builds_store (hp.on h1) ha (by decide) _).bind fun _ _ _ _ => builds_pure trivial
  cases ran with
  | none => exact hstore (has_int 1 (by decide))
  | some flag =>
    have htakes : Conversion.Takes .i1 .i8 .zext := by decide
    refine (builds_load (hran flag rfl) (by decide) _).bind fun loaded w1 _ hloaded => ?_
    exact (builds_cast hloaded htakes _).bind fun present w2 _ hp => hstore hp

theorem entryType_ne_void {kind : Kind} (h : kind ≠ .none) : entryType kind ≠ .void := by
  cases kind <;> simp [entryType, irType, Ty.text, Ty.ints] at h ⊢

theorem achieves_returnResult {o : Option Operand} (hw : Proper F w) (hl : w.Live)
    (ho : Gives F kind o w) (hr : F.returns = entryType kind)
    (hopen : ∀ b ∈ w.blocks, b.terminator = none → b.label = w.current) :
    Achieves F w (returnResult kind o) fun _ w' =>
      Extends w w' ∧ ∀ b ∈ w'.blocks, ∃ t, b.terminator = some t := by
  have hret {w : Scaffold} {o : Operand} (hw : Proper F w) (hl : w.Live)
      (hopen : ∀ b ∈ w.blocks, b.terminator = none → b.label = w.current)
      (ho : w.Has F o (entryType kind)) (hk : kind ≠ .none) :
      Achieves F w (terminate (.ret o)) fun _ w' =>
        Extends w w' ∧ ∀ b ∈ w'.blocks, ∃ t, b.terminator = some t := by
    refine achieves_return hw hl rfl ⟨ho.2.trans hr.symm, ?_⟩
      (by simpa [Terminator.operands] using ho.1) hopen
    rw [hr]
    exact entryType_ne_void hk
  rcases ho with ⟨rfl, rfl⟩ | ⟨o, rfl, ho, hk⟩
  · exact achieves_return hw hl rfl hr (by simp [Terminator.operands]) hopen
  · dsimp only [returnResult]
    split
    · rename_i hbool
      subst hbool
      have htakes : Conversion.Takes .i1 .i8 .zext := by decide
      have hcast : Builds F False w (cast .zext o .i8 "") _ := builds_cast ho htakes _
      refine Achieves.bind hcast fun byte w1 hw1 hbuilt => ?_
      obtain ⟨h1, hbyte⟩ := hbuilt
      exact (hret hw1 (h1.live hl) (h1.only hw1 hopen) hbyte hk).imp fun _ w' _ h =>
        ⟨h1.toExtends.trans h.1, h.2⟩
    · rename_i hbool
      refine hret hw hl hopen ?_ hk
      cases kind with
      | bool => exact absurd rfl hbool
      | _ => exact ho

/-- What is fixed about the entry function of a submission against a context. -/
def Form.ofEntry (c : Context Slot) (kind : Kind) : Form where
  returns := entryType kind
  params := []
  entry := entryDraft.current
  slots := {slot | ∃ x symbol, c.get? x = some symbol ∧ symbol.storage = slot}

/-- The functions that the context records are statements with no function defined inside. -/
def PlainFunctions (c : Context Slot) : Prop :=
  ∀ name d, c.getFunction? name = some d → Plain d.body

theorem consistent_begun (hc : Orderly c nextSlot) (hp : PlainFunctions c) (number : Nat)
    (kind : Kind) : Consistent (Form.ofEntry c kind)
      (State.begun { context := c, nextSlot } (entryName number) kind) := by
  have hglobals := (start_spec c nextSlot number kind).1
  have hmem {x : Global}
      (hx : x ∈ (State.begun { context := c, nextSlot } (entryName number) kind).globals) :
      ∃ f, declaration f = x := by
    rw [hglobals] at hx
    obtain ⟨f, -, hf⟩ := List.mem_map.mp hx
    exact ⟨f, hf⟩
  have hnone (name : String) : (State.begun { context := c, nextSlot } (entryName number)
      kind).functions.get? name = none := by
    rw [State.functions_begun]
    rfl
  have hslot {slot : Slot} (h : (Form.ofEntry c kind).Knows
      (State.begun { context := c, nextSlot } (entryName number) kind) slot) :
      ∃ x symbol, c.get? x = some symbol ∧ symbol.storage = slot := by
    rcases h with h | h
    · exact h
    · rw [State.created_begun] at h
      cases h
  refine ⟨named_begun c nextSlot number kind, ?_, ?_, ?_, ?_, ?_, ?_, ?_, ?_⟩
  · intro f hf
    obtain ⟨callee, hcallee⟩ := hmem hf
    exact Global.function.inj hcallee ▸ wellFormed_declaration _ callee
  · intro name callee h
    cases (hnone name).symm.trans h
  · intro name d callee _ h
    cases (hnone name).symm.trans h
  · intro name d h
    rw [State.context_begun] at h
    exact hp name d h
  · intro name type h
    obtain ⟨f, hf⟩ := hmem h
    cases hf
  · intro x symbol h
    rw [State.context_begun] at h
    exact ⟨.inl ⟨x, symbol, h, rfl⟩, hc.slotted.proper.kind x symbol h,
      hc.slotted.proper.kind_ne x symbol h⟩
  · intro slot h
    obtain ⟨x, symbol, hx, rfl⟩ := hslot h
    rw [State.nextSlot_begun]
    exact hc.slotted.number x symbol hx
  · intro slot slot' h h' heq
    obtain ⟨x, symbol, hx, rfl⟩ := hslot h
    obtain ⟨x', symbol', hx', rfl⟩ := hslot h'
    -- slots of one name belong to one variable
    have hname := (Slot.symbol_injective heq).1
    rw [hc.slotted.proper.name x symbol hx, hc.slotted.proper.name x' symbol' hx'] at hname
    subst hname
    cases hx.symm.trans hx'
    rfl

theorem blank_entry (c : Context Slot) (kind : Kind) : Blank (Form.ofEntry c kind) entryDraft := by
  refine ⟨rfl, rfl, ?_, List.nodup_nil, fun _ h => nomatch h⟩
  show ((openNames []).2.register "entry").1 ∈ ((openNames []).2.register "entry").2.used
  rw [Names.used_register]
  exact List.mem_cons_self

/-- The entry function up to its end. -/
theorem achieves_entry (hs : node.isStatement = true) (hf : node.FunctionsAvoid ["FunctionDef"])
    (c : Context Slot) (nextSlot number depth : Nat) (kind : Kind) :
    Achieves (Form.ofEntry c kind) (Scaffold.blank (Form.ofEntry c kind)
      (State.begun { context := c, nextSlot } (entryName number) kind) entryDraft) (do
        let result ← lower (emitEarlier depth) {} node
        let value ← coerce result.value kind
        storePresence result.ran
        returnResult kind value) fun _ w' =>
      Extends (Scaffold.blank (Form.ofEntry c kind)
        (State.begun { context := c, nextSlot } (entryName number) kind) entryDraft) w' ∧
        ∀ b ∈ w'.blocks, ∃ t, b.terminator = some t := by
  have hblank := blank_entry c kind
  set w := Scaffold.blank (Form.ofEntry c kind)
    (State.begun { context := c, nextSlot } (entryName number) kind) entryDraft
  intro hw
  have hground : Ground (Form.ofEntry c kind) {} w := hblank.ground rfl fun _ _ h => nomatch h
  have hlower := builds_lower (sound_emitEarlier depth) (makes_emitEarlier .variables depth) node hs
    hf (Form.ofEntry c kind) w {} hground
  refine Achieves.bind hlower (fun r w1 hw1 ⟨h1, hr⟩ => ?_) hw
  have hcoerce : Builds (Form.ofEntry c kind) True w1 (coerce r.value kind) _ :=
    builds_coerce hr.value kind
  refine Achieves.bind hcoerce fun o w2 hw2 ⟨h2, ho⟩ => ?_
  have hpresence : Builds (Form.ofEntry c kind) True w2 (storePresence r.ran) _ :=
    builds_storePresence fun flag hflag => (hr.ran flag hflag).on h2
  refine Achieves.bind hpresence fun _ w3 hw3 ⟨h3, _⟩ => ?_
  have h := (h1.trans h2 hw hw2).trans h3 hw hw3
  have ho3 : Gives (Form.ofEntry c kind) kind o w3 :=
    ho.imp_right fun ⟨o, heq, ho, hk⟩ => ⟨o, heq, ho.on h3, hk⟩
  exact (achieves_returnResult hw3 (h.live hground.live) ho3 rfl (h.only hw3 hblank.only)).imp
    fun _ w' _ h' => ⟨h.toExtends.trans h'.1, h'.2⟩

/-! ## Submissions -/

theorem lowerEntry_consistent (hc : Orderly c nextSlot) (hp : PlainFunctions c)
    (hs : node.isStatement = true) (hf : node.FunctionsAvoid ["FunctionDef"]) (number : Nat)
    (kind : Kind) :
    (∀ s, lowerEntry (entryName number) kind node { context := c, nextSlot } = .ok ⟨⟩ s →
      Consistent (Form.ofEntry c kind) s) ∧
    ∀ cause s, lowerEntry (entryName number) kind node { context := c, nextSlot } =
      .error cause s → cause.isMisfit = false := by
  set s0 := State.begun { context := c, nextSlot } (entryName number) kind
  let w0 := Scaffold.blank (Form.ofEntry c kind) s0 entryDraft
  have hw0 : Proper (Form.ofEntry c kind) w0 :=
    (blank_entry c kind).proper (consistent_begun hc hp number kind)
  obtain ⟨hok, herror⟩ :=
    achieves_entry hs hf c nextSlot number c.functions.entries.length kind hw0
  have hrun : lowerEntry (entryName number) kind node { context := c, nextSlot } =
      ((do
        let result ← lower (emitEarlier c.functions.entries.length) {} node
        let value ← coerce result.value kind
        storePresence result.ran
        returnResult kind value) >>= fun _ => (do
          defineFunction (entryName number) [] (← get).draft.blocks)) w0.state := by
    rw [lowerEntry_run]
    simp only [bind_assoc]
    rfl
  constructor
  · intro s h
    obtain ⟨⟨⟩, s1, h1, h⟩ := bind_eq_ok.mp (hrun.symm.trans h)
    obtain ⟨w1, rfl, hw1, he, hends⟩ := hok _ _ h1
    cases h
    have hdeclared : HasFunction w1.state.globals (entrySignature (entryName number) kind) :=
      he.changes.declared (declared_begun c nextSlot number kind)
    exact hw1.consistent.closed hdeclared (not_library (.inr (entryName_head number)))
      (hw1.wellFormed hends rfl rfl rfl)
  · intro cause s h
    rcases bind_eq_error.mp (hrun.symm.trans h) with h | ⟨_, _, -, h⟩
    · exact herror cause s h
    · cases h

theorem Consistent.wellFormed {s : State} (h : Consistent F s) : Module.WellFormed ⟨s.globals⟩ :=
  ⟨h.named.distinct, h.functions⟩

theorem lowerSubmission_sound (hc : Orderly c nextSlot) (hp : PlainFunctions c)
    (hs : node.isStatement = true) (hf : node.FunctionsAvoid ["FunctionDef"]) (number : Nat) :
    (∀ a, (lowerSubmission c number nextSlot node).1 = .ok a →
      a.module.WellFormed ∧ PlainFunctions a.context) ∧
    ∀ cause, (lowerSubmission c number nextSlot node).1 = .error cause →
      cause.isMisfit = false := by
  obtain ⟨hok, herror⟩ :=
    lowerEntry_consistent hc hp hs hf number (Prediction.predictResult c node)
  cases hrun : lowerEntry (entryName number) (Prediction.predictResult c node) node
      { context := c, nextSlot } with
  | ok u s =>
    have hconsistent := hok s hrun
    rw [lowerSubmission_ok hrun]
    refine ⟨fun a ha => ?_, fun _ hcause => nomatch hcause⟩
    cases ha
    exact ⟨hconsistent.wellFormed, hconsistent.bodies⟩
  | error cause s =>
    rw [lowerSubmission_error hrun]
    refine ⟨fun _ ha => (nomatch ha), fun cause' hcause => ?_⟩
    cases hcause
    exact herror cause s hrun

end Lowering

/-! ## Sessions -/

namespace Machine
open IR Lowering

/-- A session that parsed submissions lead to, lowered only or run as well, where no function is
defined inside another one. -/
inductive Session.Flat : Session → Prop
  | start : Session.Flat {}
  | lower {s : Session} {source : String} {node : Node} (h : s.Flat)
      (hparse : parse source = .ok node) (hn : node.FunctionsAvoid ["FunctionDef"]) :
      Session.Flat (s.lower node).2
  | run {s : Session} {source : String} {node : Node} (h : s.Flat)
      (hparse : parse source = .ok node) (hn : node.FunctionsAvoid ["FunctionDef"]) (fuel : Nat)
      (generator : Random.Generator) : Session.Flat (s.run fuel generator node).session

variable {s : Session} {source : String} {node : Node}

theorem Session.Flat.reachable (h : s.Flat) : s.Reachable := by
  induction h with
  | start => exact .start
  | lower _ _ _ ih => exact ih.lower _
  | run _ _ _ fuel generator ih => exact ih.run fuel generator _

theorem Session.Flat.plainFunctions (h : s.Flat) : PlainFunctions s.context := by
  induction h with
  | start =>
    intro name d hd
    have hnone : ({} : Session).context.getFunction? name = none := rfl
    cases hnone.symm.trans hd
  | lower _ _ _ ih =>
    rw [lower_eq]
    exact ih
  | @run s source node h hparse hn fuel generator ih =>
    obtain ⟨hsound, -⟩ := lowerSubmission_sound h.reachable.orderly ih (isStatement_of_parse hparse)
      hn s.entries
    rcases (context_run s fuel generator node).2 with heq | ⟨a, ha, heq⟩
    · rw [heq]
      exact ih
    · rw [heq]
      exact (hsound a ha).2

theorem Session.Flat.sound (h : s.Flat) (hparse : parse source = .ok node)
    (hn : node.FunctionsAvoid ["FunctionDef"]) :
    (∀ a, (s.lower node).1 = .ok a → a.module.WellFormed) ∧
      ∀ cause, (s.lower node).1 = .error cause → cause.isMisfit = false := by
  obtain ⟨hok, herror⟩ := lowerSubmission_sound h.reachable.orderly h.plainFunctions
    (isStatement_of_parse hparse) hn s.entries
  have hlower : (s.lower node).1 = (lowerSubmission s.context s.entries s.slots node).1 := by
    rw [lower_eq]
  rw [hlower]
  exact ⟨fun a ha => (hok a ha).1, herror⟩

end Machine
end DualEngine
