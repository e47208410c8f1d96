import DualEngine.Proofs.BuildingControl

/-! # Sound functions

A function is declared before its body is lowered, and its body has a draft of its own. When the
body has its end every block has one, the function gets its blocks, and the draft of the function
around it is taken up again where it was left.
-/
namespace DualEngine.Lowering
open IR Scaffold
open IR.Body (Edge Dominates)

variable {F : Form} {w w' : Scaffold} {s : State} {moves : Prop} {name : String} {d : Definition}
  {c : Context Slot} {params : List String} {callee : Signature} {t : Terminator}

/-! ## Functions that are declared -/

theorem openNames_spec (params : List Ty) :
    (openNames params).1.length = params.length ∧ (openNames params).1.Nodup := by
  obtain ⟨hlength, hnodup, -⟩ := Names.registerAll_spec {} (params.map fun _ => "")
  exact ⟨hlength.trans (List.length_map _), hnodup⟩

theorem wellFormed_declaration (globals : List Global) (callee : Signature) :
    Function.WellFormed globals { signature := callee, params := (openNames callee.params).1 } :=
  Function.wellFormed_of_blocks_eq_nil rfl (openNames_spec _).2 (openNames_spec _).1

/-- A function is declared as the context defines it. The context may have changed for that in what
it says of this function. -/
theorem Consistent.declared (h : Consistent F s) (hvars : ∀ x, c.get? x = s.context.get? x)
    (hd : c.getFunction? name = some d)
    (hother : ∀ f, f ≠ name → c.getFunction? f = s.context.getFunction? f) (hbody : Plain d.body) :
    Consistent F (State.declared { s with context := c } name d) := by
  have hnamed : Named (s.declared name d) :=
    (Change.function (g := .everything) s name d).named h.named
  have hadded := h.addGlobal (x := .function {
      signature := Definition.signature d (s.functionName name)
      params := (openNames (d.params.map fun _ => .double)).1 })
    ⟨hnamed.distinct, hnamed.known, hnamed.inside, hnamed.outside, hnamed.texts, hnamed.library⟩
    (fun f hf => Global.function.inj hf ▸ wellFormed_declaration _ _) (by simp)
  have hinsert (f : String) :
      (State.declared { s with context := c } name d).functions.get? f =
        if name = f then some (Definition.signature d (s.functionName name))
        else s.functions.get? f := Table.get?_insert _ _ _ _
  refine ⟨⟨hnamed.distinct, hnamed.known, hnamed.inside, hnamed.outside, hnamed.texts,
    hnamed.library⟩, hadded.functions, ?_, ?_, ?_, hadded.externals, ?_, h.numbers, h.alone⟩
  · intro f callee hf
    rw [hinsert f] at hf
    split at hf
    · obtain rfl := Option.some.inj hf
      exact ⟨_, List.mem_append_right _ List.mem_cons_self, rfl⟩
    · exact hadded.callees f callee hf
  · intro f e callee he hf
    rw [hinsert f] at hf
    split at hf
    · rename_i heq
      subst heq
      obtain rfl := Option.some.inj hf
      cases hd.symm.trans he
      exact ⟨_, rfl⟩
    · rename_i hne
      exact h.linked f e callee ((hother f (Ne.symm hne)).symm.trans he) hf
  · intro f e he
    by_cases hne : f = name
    · subst hne
      cases hd.symm.trans he
      exact hbody
    · exact h.bodies f e ((hother f hne).symm.trans he)
  · exact fun x symbol hx => h.symbols x symbol ((hvars x).symm.trans hx)

/-! ## Functions that get their blocks -/

/-- With all blocks ended, the draft is a function of the module. -/
theorem Proper.wellFormed (hw : Proper F w) (hends : ∀ b ∈ w.blocks, ∃ t, b.terminator = some t)
    (hlength : params.length = callee.params.length)
    (hparams : F.params = params.zip callee.params) (hr : F.returns = callee.returns) :
    Function.WellFormed w.state.globals ⟨callee, params, w.blocks⟩ := by
  refine ⟨hlength, hw.sound.mono ?_ hr.symm hparams.symm rfl, hends⟩
  refine ⟨fun _ hp => (show _ ∈ params.zip callee.params from hparams ▸ hp), fun _ _ h => h,
    fun _ h => h, fun b hb => ⟨b, hb, rfl, List.prefix_refl _⟩, fun b _ b' _ h => ?_⟩
  exact Body.dominates_of_table hw.first hw.root hw.edges h

theorem Consistent.closed (h : Consistent F s) (hd : HasFunction s.globals callee)
    (hn : callee.name ∉ library.map Signature.name) {blocks : List Block}
    (hf : Function.WellFormed s.globals ⟨callee, params, blocks⟩) :
    Consistent F (s.closed callee.name params blocks) := by
  have hchange : Change .everything s (s.closed callee.name params blocks) :=
    .blocks s params blocks hn
  have hmono {f : Function} (hf : f.WellFormed s.globals) :
      f.WellFormed (s.closed callee.name params blocks).globals :=
    hf.mono (fun _ _ => hchange.provides) fun _ => hchange.declared
  have hmem {y : Global} (hy : y ∈ (s.closed callee.name params blocks).globals) :
      ∃ x ∈ s.globals, closedGlobal callee.name params blocks x = y := by
    rw [globals_closed] at hy
    exact List.mem_map.mp hy
  refine ⟨hchange.named h.named, ?_, fun name f hf => hchange.declared (h.callees name f hf),
    h.linked, h.bodies, ?_, h.symbols, h.numbers, h.alone⟩
  · intro f hmemf
    obtain ⟨x, hx, hxe⟩ := hmem hmemf
    cases x with
    | function f' =>
      have hfe : (if f'.signature.name = callee.name then { f' with params, blocks } else f') = f :=
        Global.function.inj hxe
      split at hfe
      · rename_i hname
        obtain ⟨f0, hf0, rfl⟩ := hd
        cases List.inj_on_of_nodup_map h.named.distinct hx hf0 hname
        exact hfe ▸ hmono hf
      · exact hfe ▸ hmono (h.functions f' hx)
    | _ => cases hxe
  · intro symbol type hmemx
    obtain ⟨x, hx, hxe⟩ := hmem hmemx
    cases x with
    | external name t =>
      cases hxe
      exact h.externals _ _ hx
    | _ => cases hxe

/-! ## Ends of functions -/

/-- Where the current block was the only one without an end, it is still the only one. -/
theorem Scaffold.Onward.only (h : Onward moves w w') (hw' : Proper F w')
    (hopen : ∀ b ∈ w.blocks, b.terminator = none → b.label = w.current) :
    ∀ b ∈ w'.blocks, b.terminator = none → b.label = w'.current := by
  intro b' hb' ht'
  rcases h.fresh b' hb' with ⟨b, hb, hl⟩ | ⟨-, -, hcurrent⟩
  · have hb0 := hopen b hb (h.toExtends.open_of_open hw' hb hb' hl.symm ht')
    rcases h.current with heq | ⟨-, -, hended⟩
    · exact hl.symm.trans (hb0.trans heq.symm)
    · exact absurd ht' (hended.not_open hw' hb' (hl.symm.trans hb0))
  · exact hcurrent ht'

/-- Then every block has its end once the current one gets it. -/
theorem ends_ended (hopen : ∀ b ∈ w.blocks, b.terminator = none → b.label = w.current) :
    ∀ b ∈ (w.ended t).blocks, ∃ t', b.terminator = some t' := by
  intro b' hb'
  obtain ⟨b, hb, rfl⟩ := List.mem_map.mp hb'
  split
  · exact ⟨t, rfl⟩
  · rename_i hne
    exact Option.ne_none_iff_exists'.mp fun hnone => hne (hopen b hb hnone)

/-- The function returns, and with that every block has its end. -/
theorem achieves_return (hw0 : Proper F w) (hl : w.Live) (ht : t.targets = [])
    (htyped : t.WellTyped F.returns) (hoperands : ∀ o ∈ t.operands, w.Reaches F w.current o)
    (hopen : ∀ b ∈ w.blocks, b.terminator = none → b.label = w.current) :
    Achieves F w (terminate t) fun _ w' =>
      Extends w w' ∧ ∀ b ∈ w'.blocks, ∃ t, b.terminator = some t := by
  have hmay : MayEnd F w t := ⟨by simp [ht], by simp [ht], htyped, hoperands⟩
  rw [← bind_pure (terminate t)]
  exact achieves_terminate hl (fun _ => hmay)
    (achieves_pure ⟨extends_ended hw0 hl t, ends_ended hopen⟩)

theorem achieves_returnValue {v : Option Typed} {kind : Kind} (hl : w.Live) (hv : Bears F w v)
    (hr : F.returns = irType kind)
    (hopen : ∀ b ∈ w.blocks, b.terminator = none → b.label = w.current) :
    Achieves F w (returnValue v kind) fun _ w' =>
      Extends w w' ∧ ∀ b ∈ w'.blocks, ∃ t, b.terminator = some t := by
  have hcoerce : Builds F False w (coerce v kind) _ := builds_coerce hv kind
  refine Achieves.bind hcoerce fun o w1 hw1 ⟨h1, ho⟩ => ?_
  refine Achieves.imp (P := fun _ w' => Extends w1 w' ∧ ∀ b ∈ w'.blocks, ∃ t, b.terminator = some t)
    ?_ fun _ w' _ h => ⟨h1.toExtends.trans h.1, h.2⟩
  have hl1 := h1.live hl
  have hopen1 := h1.only hw1 hopen
  rcases ho with ⟨rfl, rfl⟩ | ⟨o, rfl, ho, hk⟩
  · exact achieves_return hw1 hl1 rfl hr (by simp [Terminator.operands]) hopen1
  · refine achieves_return hw1 hl1 rfl ⟨ho.2.trans hr.symm, ?_⟩
      (by simpa [Terminator.operands] using ho.1) hopen1
    rw [hr]
    exact irType_ne_void hk

/-! ## Functions that begin -/

section
variable {G : Form} {draft : Draft}

/-- The draft of a function before anything is in it. -/
structure Blank (G : Form) (draft : Draft) : Prop where
  blocks : draft.blocks = [{ label := G.entry }]
  current : draft.current = G.entry
  entry : G.entry ∈ draft.names.used
  distinct : (G.params.map Prod.fst).Nodup
  params : G.params.map Prod.fst ⊆ draft.names.used

/-- With a draft of its own, in which every block is passed after the first. -/
def Scaffold.blank (G : Form) (s : State) (draft : Draft) : Scaffold :=
  ⟨fun _ => {G.entry}, { s with draft }⟩

theorem Blank.mem (h : Blank G draft) {b : Block} (hb : b ∈ (Scaffold.blank G s draft).blocks) :
    b = { label := G.entry } := List.mem_singleton.mp (h.blocks ▸ hb)

theorem Blank.entry_mem (h : Blank G draft) :
    ({ label := G.entry } : Block) ∈ (Scaffold.blank G s draft).blocks :=
  (show _ ∈ draft.blocks from h.blocks.symm ▸ List.mem_singleton_self _)

theorem Blank.proper (h : Blank G draft) (hs : Consistent G s) :
    Proper G (Scaffold.blank G s draft) := by
  have hblocks : (Scaffold.blank G s draft).blocks = [{ label := G.entry }] := h.blocks
  have hnames : G.params.map Prod.fst ++
      (Scaffold.blank G s draft).blocks.flatMap (fun b => b.body.map Instruction.name) =
        G.params.map Prod.fst := by
    rw [hblocks]
    exact List.append_nil _
  refine ⟨⟨?_, ?_, ?_, ?_⟩, ?_, ?_, ?_, rfl, ?_, ?_, ⟨_, h.entry_mem, h.current.symm⟩,
    hs.withDraft _⟩
  · show ((Scaffold.blank G s draft).blocks.map Block.label).Nodup
    rw [hblocks]
    exact List.nodup_singleton _
  · exact hnames.symm ▸ h.distinct
  · intro b hb earlier i later heq
    rw [h.mem hb] at heq
    exact absurd heq (by simp)
  · intro b hb t ht
    rw [h.mem hb] at ht
    cases ht
  · intro b hb
    rw [h.mem hb]
    exact h.entry
  · intro x hx
    rw [hnames] at hx
    exact h.params hx
  · rw [hblocks]
    rfl
  · intro b hb
    rw [h.mem hb]
    exact ⟨rfl, rfl⟩
  · rintro l l' ⟨b, hb, -, t, ht, -⟩
    rw [h.mem hb] at ht
    cases ht

theorem Blank.ground (h : Blank G draft) {scope : Scope} (ho : scope.outermost = none)
    (hp : ∀ x o, scope.params.get? x = some o →
      ∃ p, o = .register p .double ∧ (p, .double) ∈ G.params) :
    Ground G scope (Scaffold.blank G s draft) := by
  refine ⟨⟨_, h.entry_mem, h.current.symm, rfl⟩, ⟨_, h.entry_mem, rfl, fun _ => h.current.symm⟩,
    fun x o hx => ?_, fun label hlabel => ?_⟩
  · obtain ⟨p, rfl, hmem⟩ := hp x o hx
    exact ⟨.inl hmem, rfl⟩
  · rw [ho] at hlabel
    cases hlabel

theorem Blank.only (h : Blank G draft) : ∀ b ∈ (Scaffold.blank G s draft).blocks,
    b.terminator = none → b.label = (Scaffold.blank G s draft).current := by
  intro b hb _
  rw [h.mem hb]
  exact h.current.symm

end

/-! ## Functions for definitions -/

/-- What is fixed about the function for a definition. -/
def Form.within (F : Form) (d : Definition) : Form where
  returns := irType d.returns
  params := (Definition.paramNames d).map fun p => (p, .double)
  entry := (Definition.draft d).current
  slots := F.slots

theorem Consistent.within (h : Consistent F s) (d : Definition) : Consistent (F.within d) s :=
  ⟨h.named, h.functions, h.callees, h.linked, h.bodies, h.externals, h.symbols, h.numbers, h.alone⟩

theorem Consistent.without (h : Consistent (F.within d) s) : Consistent F s :=
  ⟨h.named, h.functions, h.callees, h.linked, h.bodies, h.externals, h.symbols, h.numbers, h.alone⟩

theorem fst_params_within (F : Form) (d : Definition) :
    (F.within d).params.map Prod.fst = Definition.paramNames d := by
  simp [Form.within, Function.comp_def]

theorem params_within (F : Form) (d : Definition) :
    (F.within d).params = (Definition.paramNames d).zip (d.params.map fun _ => .double) := by
  have hlength := (paramNames_spec d).1
  exact List.ext_getElem (by simp [Form.within, hlength]) (by simp [Form.within])

theorem blank_within (F : Form) (d : Definition) : Blank (F.within d) (Definition.draft d) := by
  obtain ⟨-, hnodup, hused⟩ := paramNames_spec d
  refine ⟨rfl, rfl, entry_used d, ?_, ?_⟩
  · rw [fst_params_within]
    exact hnodup
  · rw [fst_params_within]
    exact hused

theorem bodyScope_params (F : Form) (d : Definition) (x : String) (o : Operand)
    (ho : (Definition.bodyScope d).params.get? x = some o) :
    ∃ p, o = .register p .double ∧ (p, .double) ∈ (F.within d).params := by
  obtain ⟨p, hp, rfl⟩ := List.mem_map.mp (List.of_mem_zip (Table.mem_of_get?_ofList ho)).2
  exact ⟨p, rfl, List.mem_map.mpr ⟨p, hp, rfl⟩⟩

/-- The function is put into the module, and lowering goes on where it was. -/
theorem builds_emitFunction {lowerBody : Scope → Lower Lowered}
    (hvars : ∀ x, c.get? x = w.state.context.get? x) (hd : c.getFunction? name = some d)
    (hother : ∀ f, f ≠ name → c.getFunction? f = w.state.context.getFunction? f)
    (hplain : Plain d.body) (hc : Changes .everything w.state { w.state with context := c })
    (hbody : Part (F.within d) lowerBody) :
    Builds F moves w (fun s => emitFunction name d lowerBody { s with context :=
  c })
      fun callee w' => HasFunction w'.state.globals callee ∧
        ∃ irName, callee = Definition.signature d irName := by
  intro hw
  set s0 : State := { w.state with context := c }
  set callee := Definition.signature d (s0.functionName name)
  have hblank := blank_within F d
  let w1 := Scaffold.blank (F.within d) (s0.declared name d) (Definition.draft d)
  have hdeclared : Consistent F (s0.declared name d) :=
    hw.consistent.declared hvars hd hother hplain
  have hw1 : Proper (F.within d) w1 := hblank.proper (hdeclared.within d)
  have hbuild : Achieves (F.within d) w1
      (lowerBody (Definition.bodyScope d) >>= fun r => returnValue r.value d.returns) fun _ w' =>
        Extends w1 w' ∧ ∀ b ∈ w'.blocks, ∃ t, b.terminator = some t := by
    have hground : Ground (F.within d) (Definition.bodyScope d) w1 :=
      hblank.ground rfl (bodyScope_params F d)
    refine Achieves.bind (hbody w1 _ hground) fun r w2 hw2 ⟨h2, hr⟩ => ?_
    exact (achieves_returnValue (h2.live hground.live) hr.value rfl (h2.only hw2 hblank.only)).imp
      fun _ w3 _ h3 => ⟨h2.toExtends.trans h3.1, h3.2⟩
  have hrun : emitFunction name d lowerBody s0 =
      ((lowerBody (Definition.bodyScope d) >>= fun r => returnValue r.value d.returns) >>= fun _ =>
        (do
          defineFunction callee.name (Definition.paramNames d) (← get).draft.blocks
          modify fun s => { s with draft := s0.draft }
          pure callee)) w1.state := by
    rw [emitFunction_run, bind_assoc]
    rfl
  obtain ⟨hok, herror⟩ := hbuild hw1
  constructor
  · intro result s' h
    obtain ⟨⟨⟩, s2, h2, h⟩ := bind_eq_ok.mp (hrun.symm.trans h)
    obtain ⟨w2, rfl, hw2, he, hends⟩ := hok _ _ h2
    cases h
    have hdraft : Changes .everything w.state w2.state :=
      ((hc.tail (.function s0 name d)).tail (.draft _ _)).trans he.changes
    have hlibrary : callee.name ∉ library.map Signature.name :=
      not_library (.inl (functionName_head s0 name))
    have hcallee : HasFunction w2.state.globals callee :=
      he.changes.declared ⟨_, List.mem_append_right _ List.mem_cons_self, rfl⟩
    have hformed : Function.WellFormed w2.state.globals
        ⟨callee, Definition.paramNames d, w2.blocks⟩ :=
      hw2.wellFormed hends ((paramNames_spec d).1.trans (List.length_map _).symm)
        (params_within F d) rfl
    have hclosed := (hw2.consistent.without.closed hcallee hlibrary hformed).withDraft s0.draft
    have hblocks : Change .everything w2.state (w2.state.closed callee.name
        (Definition.paramNames d) w2.blocks) := .blocks _ _ _ hlibrary
    have hpresent := hblocks.declared hcallee
    have hchanges := (hdraft.tail hblocks).tail (.draft _ s0.draft)
    exact ⟨⟨w.table, _⟩, rfl, hw.withModule rfl hchanges hclosed, onward_withModule rfl hchanges,
      hpresent, _, rfl⟩
  · intro cause s' h
    rcases bind_eq_error.mp (hrun.symm.trans h) with h | ⟨_, _, -, h⟩
    · exact herror cause s' h
    · cases h

end DualEngine.Lowering
