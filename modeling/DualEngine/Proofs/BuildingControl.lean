import DualEngine.Proofs.BuildingBlocks

/-! # Sound code for branches, loops and the printing of arrays

The values of the two ways through a branch are joined where both ways have come together, and the
cells of a loop's value stand in the first block of the function, so that they may be used before
the loop as well as after it.
-/
namespace DualEngine.Lowering
open IR Scaffold
open IR.Body (Edge)

variable {F : Form} {w w' w0 : Scaffold} {moves : Prop} {α β : Type} {label : String}
  {v : Option Typed} {pending : List String} {t : Terminator} {rest : List String}
  {cells : LoopCells} {o : Operand} {scope : Scope} {l l' : String}

/-- What a tree gives: its value, and where the loop that it is tells whether it ran. -/
structure Result (F : Form) (w : Scaffold) (r : Lowered) : Prop where
  value : Bears F w r.value
  ran : ∀ o, r.ran = some o → w.Has F o (.pointer .i1)

theorem Result.of_value (h : Bears F w v) : Result F w { value := v } :=
  ⟨h, fun _ ho => nomatch ho⟩

theorem Result.none : Result F w {} := .of_value bears_none

/-! ## Where blocks lead -/

/-- The labels of a new block: its own, and those of a block before it. -/
def tableAfter (w : Scaffold) (l : String) : Set String := insert l (w.table w.current)

theorem mem_tableAfter (hw : Proper F w) (l : String) :
    l ∈ tableAfter w l ∧ F.entry ∈ tableAfter w l := by
  obtain ⟨b, hb, hbl⟩ := hw.current
  exact ⟨Set.mem_insert _ _, Set.mem_insert_of_mem _ (hbl ▸ (hw.table b hb).2)⟩

/-- The block is there, is not begun by a join, and what is passed before it is passed before the
current one. -/
def Scaffold.Open (w : Scaffold) (l : String) : Prop :=
  (∃ b ∈ w.blocks, b.label = l ∧ ∀ i ∈ b.body, i.operation.isPhi = false) ∧
    ∀ d ∈ w.table l, d = l ∨ d ∈ w.table w.current

theorem mayEnd_jump (h : w.Open label) : MayEnd F w (.jump label) := by
  refine ⟨?_, ?_, trivial, by simp [Terminator.operands]⟩
  · simpa [Terminator.targets] using h.1
  · simpa [Terminator.targets] using h.2

theorem mayEnd_branch {yes no : String} (ho : w.Has F o .i1) (hy : w.Open yes) (hn : w.Open no) :
    MayEnd F w (.branch o yes no) := by
  refine ⟨?_, ?_, ho.2, by simpa [Terminator.operands] using ho.1⟩
  · simpa [Terminator.targets] using ⟨hy.1, hn.1⟩
  · simpa [Terminator.targets] using ⟨hy.2, hn.2⟩

/-- The blocks of a branch or a loop that began in `w0`, none of them entered before `w`. -/
structure Forked (w0 : Scaffold) (table : String → Set String) (labels : List String)
    (w : Scaffold) : Prop where
  blocks : ∀ l ∈ labels, ({ label := l } : Block) ∈ w.blocks
  fresh : ∀ l ∈ labels, l ∉ w0.state.used
  passed : ∀ l ∈ labels, w0.table w0.current ⊆ table l
  table : ∀ l ∈ labels, w.table l = table l

section
variable {table : String → Set String} {labels : List String}

theorem Forked.mem (h : Forked w0 table labels w) (hl : label ∈ labels) (he : Extends w w') :
    ∃ b ∈ w'.blocks, b.label = label ∧ ∀ i ∈ b.body, i.operation.isPhi = false := by
  obtain ⟨b, hb, hbl, ⟨code, hcode, hphi⟩, -⟩ := he.blocks _ (h.blocks label hl)
  refine ⟨b, hb, hbl, fun i hi => hphi i ?_⟩
  rw [hcode] at hi
  exact hi

theorem Forked.table_eq (h : Forked w0 table labels w) (hl : label ∈ labels) (he : Extends w w') :
    w'.table label = table label := (he.table _ (h.blocks label hl)).trans (h.table label hl)

/-- What was passed before the branch or loop is passed before each of its blocks. -/
theorem Forked.pass (h : Forked w0 table labels w) (hl : label ∈ labels) (he : Extends w w') :
    w0.table w0.current ⊆ w'.table label := by
  rw [h.table_eq hl he]
  exact h.passed label hl

theorem Forked.leads (h : Forked w0 table labels w) (hl : label ∈ labels) (he : Extends w w')
    (hp : ∀ d ∈ table label, d = label ∨ d ∈ w'.table w'.current) : w'.Open label := by
  refine ⟨h.mem hl he, fun d hd => ?_⟩
  rw [h.table_eq hl he] at hd
  exact hp d hd

/-- From anywhere inside, each of the blocks may be led to. -/
theorem Forked.open (h : Forked w0 (tableAfter w0) labels w) (hl : label ∈ labels)
    (he : Extends w w') (hp : w0.table w0.current ⊆ w'.table w'.current) : w'.Open label :=
  h.leads hl he fun _ hd => hd.imp_right fun hd => hp hd

theorem Prepared.forked (h : Prepared w0 table pending w) (hw0 : Proper F w0)
    (hpass : ∀ l ∈ pending, w0.table w0.current ⊆ table l) :
    Forked w0 table pending ((w.ended t).entered label) := by
  refine ⟨fun l hl => mem_ended (h.waiting hl) fun heq => (h.fresh l hl).1 ?_,
    fun l hl => (h.fresh l hl).1, hpass, h.table⟩
  obtain ⟨b, hb, hbl⟩ := hw0.current
  have hl : l = b.label := heq.trans (h.current.trans hbl.symm)
  exact hl ▸ hw0.labelled b hb

theorem Prepared.passed (h : Prepared w0 table pending w) (hw0 : Proper F w0) :
    w0.table w0.current ⊆ w.table w.current := by
  obtain ⟨b, hb, hbl⟩ := hw0.current
  rw [h.current, ← hbl, h.old b hb]

theorem Prepared.leads (h : Prepared w0 table pending w) (hw0 : Proper F w0) (hl : label ∈ pending)
    (hp : ∀ d ∈ table label, d = label ∨ d ∈ w0.table w0.current) : w.Open label := by
  refine ⟨⟨_, h.waiting hl, rfl, fun i hi => nomatch hi⟩, fun d hd => ?_⟩
  rw [h.table label hl] at hd
  exact (hp d hd).imp_right fun hd => h.passed hw0 hd

/-- The blocks may be led to where they are open and none is entered yet. -/
theorem Prepared.open (h : Prepared w0 (tableAfter w0) pending w) (hw0 : Proper F w0)
    (hl : label ∈ pending) : w.Open label := h.leads hw0 hl fun _ hd => hd

end

theorem extends_entered (w : Scaffold) (label : String) : Extends w (w.entered label) :=
  ⟨.single (.draft _ _), fun _ h => h, fun _ _ => rfl, (Extends.refl w).blocks⟩

/-- What holds after a block of a branch or a loop is left for another one. -/
structure Passed (F : Form) (w0 : Scaffold) (pending : List String) (w w' : Scaffold) : Prop where
  proper : Proper F w'
  inside : w0.Inside pending w'
  live : w'.Live
  extends' : Extends w w'

theorem Scaffold.Inside.pass (h : w0.Inside pending w) (hw0 : Proper F w0) (hw : Proper F w)
    (hl : w.Live) (hmay : MayEnd F w t) (ht : ∀ l ∈ t.targets, l ∉ w0.state.used)
    (hlabel : label ∈ pending) (hrest : ∀ l, l ∈ rest ↔ l ∈ pending ∧ l ≠ label)
    (hpass : w0.table w0.current ⊆ w.table label) :
    Passed F w0 rest w ((w.ended t).entered label) := by
  have hended := hw.ended hl hmay
  have hinside := h.terminated hw0 hw hl ht
  have hmem := (hinside.waiting label hlabel).2.2
  exact ⟨hended.entered ⟨_, hmem, rfl⟩,
    hinside.enter hended (ended_current hw t) hlabel hrest hpass,
    hinside.live_of_waiting hlabel, (extends_ended hw hl t).trans (extends_entered _ _)⟩

theorem achieves_pass {f : Unit → Lower β} {R : β → Scaffold → Prop} (hl : w.Live)
    (hmay : MayEnd F w t) (h : Passed F w0 rest w ((w.ended t).entered label))
    (hf : Achieves F ((w.ended t).entered label) (f ⟨⟩) R) :
    Achieves F w (terminate t >>= fun _ => enter label >>= f) R :=
  achieves_terminate hl (fun _ => hmay) (achieves_enter h.proper.current hf)

theorem Scaffold.Extends.edge (h : Extends w w') (he : Edge w.blocks l l') :
    Edge w'.blocks l l' := by
  obtain ⟨b, hb, hl, t, ht, hmem⟩ := he
  obtain ⟨b', hb', hl', -, ht'⟩ := h.blocks b hb
  exact ⟨b', hb', hl'.trans hl, t, ht' t ht, hmem⟩

theorem Scaffold.Onward.edge_iff (h : Onward moves w w') (hl : ∃ b ∈ w.blocks, b.label = l') :
    Edge w'.blocks l l' ↔ Edge w.blocks l l' :=
  ⟨fun he => h.edges l l' he hl, fun he => h.toExtends.edge he⟩

theorem Scaffold.Ended.ne_current (h : w.Ended label) (hw : Proper F w) (hl : w.Live) :
    label ≠ w.current := by
  rintro rfl
  obtain ⟨b, hb, hbl, ht⟩ := hl
  exact h.not_open hw hb hbl ht

/-- Where a branch or a loop begins, only the block that it leaves leads to its blocks. -/
theorem Prepared.edge_iff {table : String → Set String} (h : Prepared w0 table pending w)
    (hw0 : Proper F w0) (hw : Proper F w) (hl : w.Live) (hl' : l' ∈ pending) :
    Edge ((w.ended t).entered label).blocks l l' ↔ l = w.current ∧ l' ∈ t.targets := by
  refine (edge_ended hw hl).trans (or_iff_right ?_)
  rintro ⟨b, hb, hbl, t', ht', hmem⟩
  rw [h.blocks] at hb
  rcases List.mem_append.mp hb with hb | hb
  · obtain ⟨b', hb', rfl⟩ := hw0.target_mem ⟨b, hb, hbl, t', ht', hmem⟩
    exact (h.fresh _ hl').1 (hw0.labelled b' hb')
  · obtain ⟨k, -, rfl⟩ := List.mem_map.mp hb
    cases ht'

/-! ## Joins -/

/-- The value may be used at the end of the block. -/
def Arrives (F : Form) (w : Scaffold) (label : String) (v : Option Typed) : Prop :=
  ∀ t, v = some t → w.Reaches F label t.operand ∧ t.operand.type = irType t.kind

theorem Bears.arrives (h : Bears F w v) : Arrives F w w.current v :=
  fun t ht => (h t ht).1

theorem Arrives.extend (h : Arrives F w label v) (hl : ∃ b ∈ w.blocks, b.label = label)
    (he : Extends w w') : Arrives F w' label v :=
  fun t ht => ⟨he.reaches hl (h t ht).1, (h t ht).2⟩

/-- Two ways have come together in a block that is still empty. -/
theorem achieves_merge (hw0 : Proper F w0) (h : w0.Inside [] w) (hl : w.Live)
    (hempty : ∀ b ∈ w.blocks, b.label = w.current → b.body = []) {x y : String} (hxy : x ≠ y)
    (hedges : ∀ l, Edge w.blocks l w.current ↔ l = x ∨ l = y) {t e : Option Typed}
    (ht : Arrives F w x t) (he : Arrives F w y e) :
    Achieves F w (merge t e x y) fun r w' => Onward True w0 w' ∧ Result F w' r := by
  have hsource {l : String} (hl : l = x ∨ l = y) : ∃ b ∈ w.blocks, b.label = l := by
    obtain ⟨b, hb, hbl, -⟩ := (hedges l).mpr hl
    exact ⟨b, hb, hbl⟩
  have hnone : Achieves F w (pure {}) fun r w' => Onward True w0 w' ∧ Result F w' r :=
    achieves_pure ⟨h.done hl, .none⟩
  unfold merge
  split
  · rename_i t e
    split
    · rename_i hkind
      obtain ⟨htx, htype⟩ := ht t rfl
      obtain ⟨hey, htype'⟩ := he e rfl
      have hadmits (hw : Proper F w) : ∀ b ∈ w.blocks, b.label = w.current →
          (w.body F).Admits w.current b.body
            (.phi (irType t.kind) [(t.operand, x), (e.operand, y)]) := by
        intro b hb hbl
        refine ⟨?_, by simp [Operation.operands], by simp, hempty b hb hbl, by simpa using hxy,
          fun source => (show source ∈ [x, y] ↔ _ by simp).trans (hedges source).symm, ?_⟩
        · simpa [Operation.WellTyped] using ⟨htype, htype'.trans (congrArg irType hkind.1.symm)⟩
        · intro way hway
          rcases List.mem_cons.mp hway with rfl | hway
          · obtain ⟨b, hb, hbl⟩ := hsource (.inl rfl)
            exact ⟨b, hb, hbl, hbl ▸ Reaches.available hw hb (hbl ▸ htx)⟩
          · rw [List.mem_singleton.mp hway]
            obtain ⟨b, hb, hbl⟩ := hsource (.inr rfl)
            exact ⟨b, hb, hbl, hbl ▸ Reaches.available hw hb (hbl ▸ hey)⟩
      intro hw
      exact Achieves.step
        (w.emitted (.phi (irType t.kind) [(t.operand, x), (e.operand, y)]) "ifval")
        (emit_run rfl "ifval" w.state) (fun hw => hw.emitted (hadmits hw) _)
        (achieves_pure ⟨(h.emitted hw0 _ _).done (live_emitted hl _ _),
          .of_value (bears_some (has_emitted hw _ _) hkind.2)⟩) hw
    · exact hnone
  · exact hnone

/-! ## Branches -/

/-- A part of a branch or a loop, lowered on any ground. -/
def Part (F : Form) (part : Scope → Lower Lowered) : Prop :=
  ∀ w inner, Ground F inner w → Builds F True w (part inner) fun r w' => Result F w' r

theorem builds_lowerBranch {condition : Lower Lowered} {thenPart elsePart : Scope → Lower Lowered}
    (hg : Ground F scope w) (hc : Builds F True w condition fun r w' => Result F w' r)
    (hthen : Part F thenPart) (helse : Part F elsePart) :
    Builds F True w (lowerBranch scope condition thenPart elsePart) fun r w' => Result F w' r := by
  unfold lowerBranch
  refine hc.bind fun c w1 h1 hc1 => (builds_truth hc1.value).bind fun holds w2 h2 hholds => ?_
  have hg2 := (hg.on h1).on h2
  intro hw2
  -- the three blocks of the branch
  have hT := mem_tableAfter hw2
  set T := tableAfter w2
  set a := w2.state.thenLabel with ha
  set b := w2.state.elseLabel with hb
  set j := w2.state.joinLabel with hj
  let wa := w2.opened T "then"
  let wb := wa.opened T "else"
  let wc := wb.opened T "ifcont"
  have hwa : Proper F wa := hw2.opened _ (hT _)
  have hwb : Proper F wb := hwa.opened _ (hT _)
  have hwc : Proper F wc := hwb.opened _ (hT _)
  have prepared : Prepared w2 T [a, b, j] wc :=
    (((Prepared.refl w2 T).opened hw2 "then").opened hw2 "else").opened hw2 "ifcont"
  have hdistinct : a ≠ b ∧ a ≠ j ∧ b ≠ j := by simpa [and_assoc] using prepared.distinct
  obtain ⟨hab, haj, hbj⟩ := hdistinct
  have hpass (l : String) : w2.table w2.current ⊆ T l := Set.subset_insert _ _
  let t : Terminator := .branch holds a b
  have hmay : MayEnd F wc t := mayEnd_branch (prepared.has hw2 hholds)
    (prepared.open hw2 (by simp)) (prepared.open hw2 (by simp))
  have hlc := prepared.live hg2.live
  let w4 := (wc.ended t).entered a
  have inside4 : w2.Inside [b, j] w4 :=
    prepared.fork hw2 hwc hg2.live (by simp [t, Terminator.targets]) (by simp) (by grind) (hpass a)
  have forked : Forked w2 T [a, b, j] w4 := prepared.forked hw2 fun l _ => hpass l
  have hina : ∃ b ∈ (wc.ended t).blocks, b.label = a := ⟨_, forked.blocks a (by simp), rfl⟩
  have hinj : ∃ b ∈ w4.blocks, b.label = j := ⟨_, forked.blocks j (by simp), rfl⟩
  have hw4 : Proper F w4 := (hwc.ended hlc hmay).entered hina
  have live4 : w4.Live := ⟨_, forked.blocks a (by simp), rfl, rfl⟩
  have edges4 (l : String) : ¬ Edge w4.blocks l j := fun he =>
    absurd ((prepared.edge_iff hw2 hwc hlc (by simp)).mp he).2
      (by simp [t, Terminator.targets, haj.symm, hbj.symm])
  refine (achieves_addBlock (hT _) (achieves_addBlock (hT _) (achieves_addBlock (hT _)
    (achieves_currentBlock ?_)))) hw2
  refine achieves_terminate hlc (fun _ => hmay) ?_
  refine achieves_enter hina ?_
  -- the first way, up to the join
  refine Achieves.bind (hthen w4 _ (inside4.ground hg2 live4)) fun x w5 hw5 ⟨h5, hx⟩ => ?_
  have inside5 := inside4.onward h5 hw2 hw4 hw5
  have live5 := h5.live live4
  have hjump5 : MayEnd F w5 (.jump j) :=
    mayEnd_jump (forked.open (by simp) h5.toExtends inside5.passed)
  have htargets : ∀ l ∈ (Terminator.jump j).targets, l ∉ w2.state.used := by
    simpa [Terminator.targets] using forked.fresh j (by simp)
  have pass5 : Passed F w2 [j] w5 ((w5.ended (.jump j)).entered b) :=
    inside5.pass hw2 hw5 live5 hjump5 htargets (by simp) (by grind)
      (forked.pass (by simp) h5.toExtends)
  refine achieves_currentBlock (achieves_pass live5 hjump5 pass5 ?_)
  set w6 := (w5.ended (.jump j)).entered b
  have edges6 (l : String) : Edge w6.blocks l j ↔ l = w5.current := by
    refine (edge_ended hw5 live5).trans ?_
    simp [h5.edge_iff hinj, edges4, Terminator.targets]
  -- the second one
  refine Achieves.bind (helse w6 _ (pass5.inside.ground hg2 pass5.live)) fun y w7 hw7 ⟨h7, hy⟩ => ?_
  have inside7 := pass5.inside.onward h7 hw2 pass5.proper hw7
  have live7 := h7.live pass5.live
  have extends7 : Extends w4 w7 := (h5.toExtends.trans pass5.extends').trans h7.toExtends
  have hjump7 : MayEnd F w7 (.jump j) := mayEnd_jump (forked.open (by simp) extends7 inside7.passed)
  have pass7 : Passed F w2 [] w7 ((w7.ended (.jump j)).entered j) :=
    inside7.pass hw2 hw7 live7 hjump7 htargets (by simp) (by simp) (forked.pass (by simp) extends7)
  refine achieves_currentBlock (achieves_pass live7 hjump7 pass7 ?_)
  set w8 := (w7.ended (.jump j)).entered j
  have hinj6 : ({ label := j } : Block) ∈ w6.blocks := (pass5.inside.waiting j (by simp)).2.2
  have edges8 (l : String) : Edge w8.blocks l j ↔ l = w5.current ∨ l = w7.current := by
    refine (edge_ended hw7 live7).trans ?_
    simp [h7.edge_iff ⟨_, hinj6, rfl⟩, edges6, Terminator.targets]
  -- the two come together
  have hended : w7.Ended w5.current :=
    h7.toExtends.ended ((extends_entered _ _).ended (ended_current hw5 _))
  have extends6 : Extends w5 w8 := (pass5.extends'.trans h7.toExtends).trans pass7.extends'
  refine achieves_merge hw2 pass7.inside pass7.live (fun c hc hcl => ?_)
    (hended.ne_current hw7 live7) edges8 (hx.value.arrives.extend hw5.current extends6)
    (hy.value.arrives.extend hw7.current pass7.extends')
  have hinj8 : ({ label := j } : Block) ∈ w8.blocks :=
    mem_ended (inside7.waiting j (by simp)).2.2 (inside7.waiting j (by simp)).2.1
  rw [pass7.proper.block_eq hc hinj8 hcl]

/-! ## Loops -/

/-- The cells of a loop with a value. They may be used everywhere. -/
structure CellsFit (F : Form) (w : Scaffold) (cells : LoopCells) : Prop where
  value : w.Anywhere F cells.value (.pointer (irType cells.kind))
  ran : w.Anywhere F cells.ran (.pointer .i1)
  kind : cells.kind ≠ .none

theorem CellsFit.extend (h : CellsFit F w cells) (he : Extends w w') : CellsFit F w' cells :=
  ⟨h.value.extend he, h.ran.extend he, h.kind⟩

theorem builds_keepValue (he : w.Settled F.entry) (hv : Bears F w v) :
    Builds F moves w (keepValue v) fun r w' => ∀ cells, r = some cells → CellsFit F w' cells := by
  cases v with
  | none => exact builds_pure (by simp)
  | some t =>
    obtain ⟨ho, hk⟩ := hv t rfl
    have hvoid := irType_ne_void hk
    refine (builds_entryAlloca he hvoid _).bind fun value w1 h1 hvalue => ?_
    refine (builds_entryAlloca (he.on h1) (by decide) _).bind fun ran w2 h2 hran => ?_
    intro hw2
    have hvalue2 := hvalue.extend h2.toExtends
    refine (builds_store ((ho.on h1).on h2) (hvalue2.has hw2) hvoid _).bind
      (fun _ w3 h3 _ hw3 => ?_) hw2
    have hran3 := hran.extend h3.toExtends
    refine (builds_store (has_int 1 (by decide)) (hran3.has hw3) (by decide) _).bind
      (fun _ w4 h4 _ => builds_pure ?_) hw3
    rintro cells ⟨⟩
    exact ⟨(hvalue2.extend h3.toExtends).extend h4.toExtends, hran3.extend h4.toExtends, hk⟩

theorem builds_clearCells (hs : w.Settled label) (hc : CellsFit F w cells) :
    Builds F moves w (clearCells label cells) fun _ _ => True := by
  have hran {w' : Scaffold} (hw' : Proper F w') (he : Extends w w') :
      Builds F False w' (do let _ ← emit (.store (.int 0 .i1) cells.ran) "") fun _ _ => True :=
    (builds_store (has_int 0 (by decide)) ((hc.ran.extend he).has hw') (by decide) _).bind
      fun _ _ _ _ => builds_pure trivial
  refine Builds.inBlock (Q := fun _ _ => True) hs
    ((builds_zero cells.kind).bind fun z w1 h1 hz hw1 => ?_)
  have he : Extends w w1 := (extends_entered w label).trans h1.toExtends
  rcases hz with ⟨rfl, hnone⟩ | ⟨o, rfl, ho, hk⟩
  · exact absurd hnone hc.kind
  · exact (builds_store ho ((hc.value.extend he).has hw1) (irType_ne_void hk) _).bind
      (fun _ w2 h2 _ hw2 => hran hw2 (he.trans h2.toExtends) hw2) hw1

theorem achieves_finishLoop {cells : Option LoopCells} (hw0 : Proper F w0)
    (h : w0.Inside [label] w) (hended : w.Ended w.current)
    (hpass : w0.table w0.current ⊆ w.table label)
    (hcells : ∀ c, cells = some c → CellsFit F w c) :
    Achieves F w (finishLoop w0.current label cells)
      fun r w' => Onward True w0 w' ∧ Result F w' r := by
  have hmem {w : Scaffold} (h : w0.Inside [label] w) : ∃ b ∈ w.blocks, b.label = label :=
    ⟨_, (h.waiting label (by simp)).2.2, rfl⟩
  intro hw
  cases cells with
  | none =>
    have hinside : w0.Inside [] (w.entered label) := h.enter hw hended (by simp) (by simp) hpass
    exact achieves_enter (hmem h)
      (achieves_pure ⟨hinside.done (h.live_of_waiting (by simp)), .none⟩) hw
  | some cells =>
    have hc := hcells cells rfl
    have hclear : Builds F False w (clearCells w0.current cells) fun _ _ => True :=
      builds_clearCells h.left.settled hc
    refine Achieves.bind hclear (fun _ w1 hw1 ⟨h1, _⟩ => ?_) hw
    have hinside1 := h.onward h1 hw0 hw hw1
    have hended1 : w1.Ended w1.current := by
      rw [h1.current.resolve_right fun hm => hm.1]
      exact h1.toExtends.ended hended
    have hpass1 : w0.table w0.current ⊆ w1.table label := by
      obtain ⟨b, hb, rfl⟩ := hmem h
      rw [h1.toExtends.table b hb]
      exact hpass
    have hinside2 : w0.Inside [] (w1.entered label) :=
      hinside1.enter hw1 hended1 (by simp) (by simp) hpass1
    have hc2 := (hc.extend h1.toExtends).extend (extends_entered w1 label)
    refine achieves_enter (hmem hinside1) fun hw2 => ?_
    have hload : Builds F True (w1.entered label) (emit (.load cells.value) "forval") _ :=
      builds_load (hc2.value.has hw2) (irType_ne_void hc.kind) _
    refine Achieves.bind hload
      (fun o w3 hw3 ⟨h3, ho⟩ => achieves_pure ⟨?_, bears_some ho hc.kind, ?_⟩) hw2
    · exact (hinside2.done (hinside1.live_of_waiting (by simp))).trans h3 hw0 hw3
    · rintro _ ⟨⟩
      exact (hc2.ran.extend h3.toExtends).has hw3

theorem builds_lowerLoop {start : Lower Lowered} {condition : Scope → Lower (Option Operand)}
    {step body : Scope → Lower Lowered} (hg : Ground F scope w)
    (hstart : Builds F True w start fun _ _ => True)
    (hcondition : ∀ w inner, Ground F inner w →
      Builds F True w (condition inner) fun r w' => ∀ o, r = some o → w'.Has F o .i1)
    (hstep : Part F step) (hbody : Part F body) :
    Builds F True w (lowerLoop scope start condition step body) fun r w' => Result F w' r := by
  unfold lowerLoop
  refine hstart.bind fun _ w1 h1 _ => ?_
  have hg1 := hg.on h1
  intro hw1
  -- the four blocks of the loop
  have hT := mem_tableAfter hw1
  set T := tableAfter w1
  set c := w1.state.conditionLabel
  set b := w1.state.bodyLabel
  set p := w1.state.stepLabel
  set a := w1.state.afterLabel
  let wc := w1.opened T "for.cond"
  let wb := wc.opened T "for.body"
  let wp := wb.opened T "for.step"
  let wa := wp.opened T "for.end"
  have hwa : Proper F wa :=
    (((hw1.opened _ (hT _)).opened _ (hT _)).opened _ (hT _)).opened _ (hT _)
  have prepared : Prepared w1 T [c, b, p, a] wa :=
    ((((Prepared.refl w1 T).opened hw1 "for.cond").opened hw1 "for.body").opened hw1
      "for.step").opened hw1 "for.end"
  have hdistinct : (c ≠ b ∧ c ≠ p ∧ c ≠ a) ∧ (b ≠ p ∧ b ≠ a) ∧ p ≠ a := by
    simpa using prepared.distinct
  obtain ⟨⟨hcb, hcp, hca⟩, ⟨hbp, hba⟩, hpa⟩ := hdistinct
  have hpass (l : String) : w1.table w1.current ⊆ T l := Set.subset_insert _ _
  have hmay : MayEnd F wa (.jump c) := mayEnd_jump (prepared.open hw1 (by simp))
  have hla := prepared.live hg1.live
  let w4 := (wa.ended (.jump c)).entered c
  have inside4 : w1.Inside [b, p, a] w4 :=
    prepared.fork hw1 hwa hg1.live (by simp [Terminator.targets]) (by simp) (by grind) (hpass c)
  have forked : Forked w1 T [c, b, p, a] w4 := prepared.forked hw1 fun l _ => hpass l
  have hinc : ∃ b ∈ (wa.ended (.jump c)).blocks, b.label = c := ⟨_, forked.blocks c (by simp), rfl⟩
  have hw4 : Proper F w4 := (hwa.ended hla hmay).entered hinc
  have live4 : w4.Live := ⟨_, forked.blocks c (by simp), rfl, rfl⟩
  have hfresh {l : String} (hl : l ∈ [c, b, p, a]) :
      ∀ l' ∈ (Terminator.jump l).targets, l' ∉ w1.state.used := by
    simpa [Terminator.targets] using forked.fresh l hl
  refine achieves_currentBlock (achieves_addBlock (hT _) (achieves_addBlock (hT _)
    (achieves_addBlock (hT _) (achieves_addBlock (hT _) ?_)))) hw1
  refine achieves_terminate hla (fun _ => hmay) ?_
  refine achieves_enter hinc ?_
  -- the condition
  refine Achieves.bind (hcondition w4 _ (inside4.ground hg1 live4))
    fun holds w5 hw5 ⟨h5, hholds⟩ => ?_
  have inside5 := inside4.onward h5 hw1 hw4 hw5
  have live5 := h5.live live4
  have open5 {l : String} (hl : l ∈ [c, b, p, a]) : w5.Open l :=
    forked.open hl h5.toExtends inside5.passed
  have hexit : MayEnd F w5 (loopExit b a holds) := by
    cases holds with
    | none => exact mayEnd_jump (open5 (by simp))
    | some o => exact mayEnd_branch (hholds o rfl) (open5 (by simp)) (open5 (by simp))
  have htargets : ∀ l ∈ (loopExit b a holds).targets, l ∉ w1.state.used := by
    intro l hl
    refine forked.fresh l ?_
    cases holds <;> simp [loopExit, Terminator.targets] at hl ⊢ <;> tauto
  have pass5 : Passed F w1 [p, a] w5 ((w5.ended (loopExit b a holds)).entered b) :=
    inside5.pass hw1 hw5 live5 hexit htargets (by simp) (by grind)
      (forked.pass (by simp) h5.toExtends)
  refine achieves_pass live5 hexit pass5 ?_
  set w6 := (w5.ended (loopExit b a holds)).entered b
  -- the body, and its value
  have ground6 := pass5.inside.ground hg1 pass5.live
  refine Achieves.bind (hbody w6 _ ground6) fun v w7 hw7 ⟨h7, hv⟩ => ?_
  have hkeep : Builds F True w7 (keepValue v.value) _ :=
    builds_keepValue (ground6.on h7).entry hv.value
  refine Achieves.bind hkeep fun cells w8 hw8 ⟨h8, hcells⟩ => ?_
  have inside8 := (pass5.inside.onward h7 hw1 pass5.proper hw7).onward h8 hw1 hw7 hw8
  have live8 := h8.live (h7.live pass5.live)
  have extends8 : Extends w4 w8 :=
    ((h5.toExtends.trans pass5.extends').trans h7.toExtends).trans h8.toExtends
  have hjump8 : MayEnd F w8 (.jump p) := mayEnd_jump (forked.open (by simp) extends8 inside8.passed)
  have pass8 : Passed F w1 [a] w8 ((w8.ended (.jump p)).entered p) :=
    inside8.pass hw1 hw8 live8 hjump8 (hfresh (by simp)) (by simp) (by grind)
      (forked.pass (by simp) extends8)
  refine achieves_pass live8 hjump8 pass8 ?_
  set w9 := (w8.ended (.jump p)).entered p
  -- the step, and the way back
  refine Achieves.bind (hstep w9 _ (pass8.inside.ground hg1 pass8.live)) fun _ w' hw' ⟨h', _⟩ => ?_
  have inside' := pass8.inside.onward h' hw1 pass8.proper hw'
  have live' := h'.live pass8.live
  have extends' : Extends w4 w' := (extends8.trans pass8.extends').trans h'.toExtends
  have hback : MayEnd F w' (.jump c) := mayEnd_jump (forked.open (by simp) extends' inside'.passed)
  refine achieves_terminate live' (fun _ => hback) ?_
  have ended' := extends_ended hw' live' (.jump c)
  have hleft : w1.Inside [a] (w'.ended (.jump c)) :=
    inside'.terminated hw1 hw' live' (hfresh (l := c) (by simp))
  have hpassed : w1.table w1.current ⊆ (w'.ended (.jump c)).table a :=
    forked.pass (by simp) (extends'.trans ended')
  exact achieves_finishLoop hw1 hleft (ended_current hw' _) hpassed
    fun k hk => ((hcells k hk).extend (pass8.extends'.trans h'.toExtends)).extend ended'

/-! ## Printing -/

theorem Scaffold.Reaches.mono (h : w.Reaches F l o) (hsub : w.table l ⊆ w.table l') :
    w.Reaches F l' o := by
  cases o with
  | register x type => exact h.imp_right fun ⟨b, hb, hmem, hi⟩ => ⟨b, hb, hsub hmem, hi⟩
  | _ => exact h

/-- The loop over the elements: its body and what follows it come after the test. -/
theorem builds_printArray {buffer : Operand} (hl : w.Live) (he : w.Settled F.entry)
    (hb : w.Has F buffer .ints) : Builds F True w (printArray buffer) fun _ _ => True := by
  have hwidth : 0 < Ty.width .i32 := by decide
  unfold printArray
  refine (builds_load hb (by decide) _).bind fun length w1 h1 hlength => ?_
  refine (builds_printText _).bind fun _ w2 h2 _ => ?_
  refine (builds_entryAlloca ((he.on h1).on h2) (by decide) _).bind fun index w3 h3 hindex hw3 => ?_
  refine (builds_store (has_int32 0) (hindex.has hw3) (by decide) _).bind
    (fun _ w4 h4 _ hw4 => ?_) hw3
  have live4 : w4.Live := h4.live (h3.live (h2.live (h1.live hl)))
  have hbuffer : w4.Has F buffer .ints := (((hb.on h1).on h2).on h3).on h4
  have hlength4 : w4.Has F length .i32 := ((hlength.on h2).on h3).on h4
  have hindex4 := (hindex.extend h4.toExtends).has hw4
  set c := w4.state.fresh "print.cond"
  let T : String → Set String := fun l => insert l (insert c (w4.table w4.current))
  have hT (l : String) : l ∈ T l ∧ F.entry ∈ T l :=
    ⟨Set.mem_insert _ _, Set.mem_insert_of_mem _ (mem_tableAfter hw4 c).2⟩
  have hpass (l : String) : w4.table w4.current ⊆ T l :=
    (Set.subset_insert _ _).trans (Set.subset_insert _ _)
  have hafter (l : String) : T c ⊆ T l :=
    Set.insert_subset (Set.mem_insert_of_mem _ (Set.mem_insert _ _)) (Set.subset_insert _ _)
  let wc := w4.opened T "print.cond"
  set b := wc.state.fresh "print.body"
  let wb := wc.opened T "print.body"
  set e := wb.state.fresh "print.end"
  let we := wb.opened T "print.end"
  have hwe : Proper F we := ((hw4.opened _ (hT _)).opened _ (hT _)).opened _ (hT _)
  have prepared : Prepared w4 T [c, b, e] we :=
    (((Prepared.refl w4 T).opened hw4 "print.cond").opened hw4 "print.body").opened hw4 "print.end"
  have hdistinct : (c ≠ b ∧ c ≠ e) ∧ b ≠ e := by simpa using prepared.distinct
  obtain ⟨⟨hcb, hce⟩, hbe⟩ := hdistinct
  have hmay : MayEnd F we (.jump c) := by
    refine mayEnd_jump (prepared.leads hw4 (by simp) fun d hd => ?_)
    exact hd.elim .inl id
  have hle := prepared.live live4
  let w5 := (we.ended (.jump c)).entered c
  have inside5 : w4.Inside [b, e] w5 :=
    prepared.fork hw4 hwe live4 (by simp [Terminator.targets]) (by simp) (by grind) (hpass c)
  have forked : Forked w4 T [c, b, e] w5 := prepared.forked hw4 fun l _ => hpass l
  have hinc : ∃ b ∈ (we.ended (.jump c)).blocks, b.label = c := ⟨_, forked.blocks c (by simp), rfl⟩
  have live5 : w5.Live := ⟨_, forked.blocks c (by simp), rfl, rfl⟩
  have hw5 : Proper F w5 := (hwe.ended hle hmay).entered hinc
  refine achieves_addBlock (hT _) (achieves_addBlock (hT _) (achieves_addBlock (hT _) ?_)) hw4
  refine achieves_terminate hle (fun _ => hmay) ?_
  refine achieves_enter hinc ?_
  -- the test
  have hload : Builds F False w5 (emit (.load index) "idx") _ :=
    builds_load (inside5.has hindex4) (by decide) _
  refine Achieves.bind hload fun i w6 hw6 ⟨h6, hi⟩ => ?_
  have htest : Builds F False w6 (emit (.icmp .slt i length) "more") _ :=
    builds_icmp hi ((inside5.has hlength4).on h6) hwidth _
  refine Achieves.bind htest fun more w7 hw7 ⟨h7, hmore⟩ => ?_
  have h57 := h6.trans h7 hw5 hw7
  have inside7 := inside5.onward h57 hw4 hw5 hw7
  have live7 := h57.live live5
  have hcurrent7 : w7.current = c := h57.current.resolve_right fun hm => hm.1
  have htable7 : w7.table w7.current = T c := by
    rw [hcurrent7, forked.table_eq (by simp) h57.toExtends]
  have open7 {l : String} (hl : l ∈ [c, b, e]) : w7.Open l := by
    refine forked.leads hl h57.toExtends fun d hd => hd.imp_right fun hd => ?_
    rw [htable7]
    exact Set.mem_insert_of_mem _ hd
  have hbranch : MayEnd F w7 (.branch more b e) :=
    mayEnd_branch hmore (open7 (by simp)) (open7 (by simp))
  have hfresh {l : String} (hl : l ∈ [c, b, e]) : l ∉ w4.state.used := forked.fresh l hl
  have pass7 : Passed F w4 [e] w7 ((w7.ended (.branch more b e)).entered b) :=
    inside7.pass hw4 hw7 live7 hbranch
      (by simpa [Terminator.targets] using ⟨hfresh (l := b) (by simp), hfresh (l := e) (by simp)⟩)
      (by simp) (by grind) (forked.pass (by simp) h57.toExtends)
  refine achieves_pass live7 hbranch pass7 ?_
  set w8 := (w7.ended (.branch more b e)).entered b
  have extends8 : Extends w5 w8 := h57.toExtends.trans pass7.extends'
  -- one element
  have hi8 : w8.Has F i .i32 := by
    have hreaches := pass7.extends'.reaches hw7.current (hi.on h7).1
    refine ⟨hreaches.mono ?_, hi.2⟩
    show w8.table w7.current ⊆ w8.table b
    rw [hcurrent7, forked.table_eq (by simp) extends8, forked.table_eq (by simp) extends8]
    exact hafter b
  have helement : Builds F False w8 (printElement buffer index i) fun _ _ => True :=
    builds_printElement (pass7.inside.has hbuffer) (pass7.inside.has hindex4) hi8
  refine Achieves.bind helement fun _ w9 hw9 ⟨h9, _⟩ => ?_
  have inside9 := pass7.inside.onward h9 hw4 pass7.proper hw9
  have live9 := h9.live pass7.live
  have extends9 : Extends w5 w9 := extends8.trans h9.toExtends
  have hcurrent9 : w9.current = b := h9.current.resolve_right fun hm => hm.1
  have hback : MayEnd F w9 (.jump c) := by
    refine mayEnd_jump (forked.leads (by simp) extends9 fun d hd => .inr ?_)
    rw [hcurrent9, forked.table_eq (by simp) extends9]
    exact hafter b hd
  have pass9 : Passed F w4 [] w9 ((w9.ended (.jump c)).entered e) :=
    inside9.pass hw4 hw9 live9 hback
      (by simpa [Terminator.targets] using hfresh (l := c) (by simp)) (by simp) (by simp)
      (forked.pass (by simp) extends9)
  refine achieves_pass live9 hback pass9 ?_
  have hend : Builds F True ((w9.ended (.jump c)).entered e) (printText "]\n") fun _ _ => True :=
    builds_printText _
  exact Achieves.imp hend fun _ w' hw' h =>
    ⟨(pass9.inside.done pass9.live).trans h.1 hw4 hw', trivial⟩

theorem builds_printValue (hl : w.Live) (he : w.Settled F.entry) (hv : Bears F w v) :
    Builds F True w (printValue v) fun _ _ => True := by
  unfold printValue
  split
  · exact builds_printArray hl he (hv _ rfl).1
  · refine (builds_formatted hv).bind fun p w1 h1 ⟨_, hp, _⟩ => ?_
    refine (builds_textConstant _ (by decide)).bind fun format w2 h2 hformat => ?_
    exact (builds_printf hformat (by simpa using (hp.on h2).1) _).bind fun _ _ _ _ =>
      builds_pure trivial

end DualEngine.Lowering
