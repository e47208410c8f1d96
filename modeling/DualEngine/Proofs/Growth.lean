import DualEngine.Proofs.Arrays
import DualEngine.Proofs.Inversion
import DualEngine.Proofs.Operators
import DualEngine.Proofs.Printing
import DualEngine.Proofs.Trees

/-! # How a function grows while a tree is lowered

Wherever lowering a tree succeeds, the function under construction only grows, the context only
gets slots that were made, and the result is an operand of its kind. The block before the outermost
branch gets code of its own only if a name that had a slot gets another one.
-/
namespace DualEngine.Lowering
open IR Machine

variable {earlier : Earlier} {scope : Scope} {s s' s'' : State} {new new' : List Slot}
  {held : List String} {code : List Instruction} {x : String} {s1 : State} {r : Lowered}
  {cells : Option LoopCells} {condition : Node} {k : Kind} {nodes : List Node} {os : List Operand}
  {left right : Node} {holds : Operand} {callee : Signature} {slot : Slot} {label name : String}

/-- The module may grow while the function under construction stays as it is. -/
theorem evolves_of_draft_eq (loose : String → Prop) (hd : s'.draft = s.draft)
    (hf : ∀ name signature, s.functions.get? name = some signature →
      s'.functions.get? name = some signature)
    (hg : s.globals ⊆ s'.globals) (ht : Tidy s → Tidy s') : Evolves loose s s' := by
  have hblock (k : String) : s'.block? k = s.block? k := by rw [State.block?, State.block?, hd]
  have hused : s'.used = s.used := by rw [State.used, State.used, hd]
  refine ⟨hused ▸ fun _ h => h, hf, hg, ht, ?_, ?_, ?_⟩
  · rw [State.entry, State.entry, hd]
  · intro h label hl
    rw [hused]
    exact h label (hblock label ▸ hl)
  · intro k b hb
    exact ⟨b, [], (hblock k).trans hb, .refl _ _ b, fun _ => ⟨rfl, by simp⟩⟩

/-- A state in which a tree may be lowered. -/
structure Poised (scope : Scope) (s : State) : Prop where
  active : Active s
  labelled : Labelled s
  tidy : Tidy s
  slotted : Slotted s.context s.nextSlot
  params : ∀ x o, scope.params.get? x = some o → Fits o .double s.used
  outermost : ∀ l, scope.outermost = some l → l ∈ s.used

/-- From `s` to `s'` the slots were made and the function grew. -/
structure Moves (scope : Scope) (s s' : State) (new : List Slot) : Prop where
  declares : Declares s s' new
  grows : ∀ held, held ⊆ s.used →
    (∀ l, scope.outermost = some l → l ∈ held ∨ Novel s new) → Grows held s s'

theorem Poised.outermost_used (hp : Poised scope s) : scope.outermost.toList ⊆ s.used :=
  fun l hl => hp.outermost l (by simpa using hl)

theorem Moves.grown (h : Moves scope s s' new) (hp : Poised scope s) :
    Grows scope.outermost.toList s s' :=
  h.grows _ hp.outermost_used fun l hl => .inl (by simp [hl])

theorem Moves.refl (scope : Scope) (ha : Active s) : Moves scope s s [] :=
  ⟨.refl s, fun _ _ _ => .refl ha⟩

theorem moves_appends (scope : Scope) (ha : Active s) (h : Appends code s s') :
    Moves scope s s' [] :=
  ⟨h.declares, fun _ _ _ => grows_appends ha h⟩

theorem Moves.poised (h : Moves scope s s' new) (hp : Poised scope s) : Poised scope s' := by
  have g := h.grown hp
  exact ⟨g.active, g.evolves.labelled hp.labelled, g.evolves.tidy hp.tidy,
    hp.slotted.declares h.declares, fun x o ho => (hp.params x o ho).mono g.evolves.used,
    fun l hl => g.evolves.used (hp.outermost l hl)⟩

theorem Moves.trans (h : Moves scope s s' new) (hp : Poised scope s)
    (h' : Moves scope s' s'' new') : Moves scope s s'' (new ++ new') := by
  refine ⟨h.declares.trans h'.declares, fun held hheld hl => ?_⟩
  have g := h.grows held hheld fun l hs => (hl l hs).imp id Novel.left
  have g' := h'.grows held (fun _ hk => g.evolves.used (hheld hk)) fun l hs =>
    (hl l hs).imp id fun hn => hn.right h.declares
  exact g.trans g' hp.labelled

theorem Moves.appends (h : Moves scope s s' new) (hp : Poised scope s) (ha : Appends code s' s'') :
    Moves scope s s'' new := by
  have := h.trans hp (moves_appends scope (h.poised hp).active ha)
  rwa [List.append_nil] at this

/-- The parts of a result are operands of their kinds. -/
structure Lowered.Fits (used : List String) (r : Lowered) : Prop where
  value : ResultFits used r.value
  kind : ∀ t, r.value = some t → t.kind ≠ .none
  ran : ∀ o, r.ran = some o → Lowering.Fits o (.pointer .i1) used

theorem fits_none (used : List String) : Lowered.Fits used {} := ⟨trivial, by simp, by simp⟩

theorem fits_some {used : List String} {t : Typed} (ht : TypedFits used t) (hk : t.kind ≠ .none) :
    Lowered.Fits used { value := some t } :=
  ⟨ht, fun u hu => by cases hu; exact hk, by simp⟩

/-- From `s` to `s'` nothing happened but that functions and other globals were added. -/
structure Imports (s s' : State) : Prop where
  draft : s'.draft = s.draft
  context : s'.context = s.context
  created : s'.created = s.created
  nextSlot : s'.nextSlot = s.nextSlot
  functions : ∀ name signature, s.functions.get? name = some signature →
    s'.functions.get? name = some signature
  globals : s.globals ⊆ s'.globals
  tidy : Tidy s → Tidy s'

theorem Imports.refl (s : State) : Imports s s :=
  ⟨rfl, rfl, rfl, rfl, fun _ _ h => h, fun _ h => h, id⟩

theorem Imports.moves (h : Imports s s') (scope : Scope) (ha : Active s) : Moves scope s s' [] := by
  refine ⟨declares_of_eq h.context h.created h.nextSlot, fun held _ _ => ?_⟩
  refine ⟨evolves_of_draft_eq _ h.draft h.functions h.globals h.tidy, .inl (by rw [h.draft]), ?_⟩
  simpa only [Active, State.block?, h.draft] using ha

/-- Lowering a function of an earlier submission only adds to the module. -/
def Dependable (earlier : Earlier) (definitions : Table Definition) : Prop :=
  ∀ name d s callee s', s.context.functions = definitions → Tidy s →
    Slotted s.context s.nextSlot → definitions.get? name = some d →
    s.functions.get? name = none → earlier name d s = .ok callee s' →
    Imports s s' ∧ s'.functions.get? name = some callee

/-- The calls in a tree can rely on the functions of earlier submissions. -/
def CallsDepend (earlier : Earlier) (definitions : Table Definition) (node : Node) : Prop :=
  ∀ name args, Node.call name args ∈ node.subtrees → Dependable earlier definitions

theorem CallsDepend.child {definitions : Table Definition} {node child : Node}
    (h : CallsDepend earlier definitions node) (hc : child ∈ node.children) :
    CallsDepend earlier definitions child :=
  fun name args hm => h name args (Node.subtrees_subset hc hm)

/-! ## Assignments -/

theorem grows_of_draft_eq (ha : Active s) (hd : s'.draft = s.draft) (hg : s'.globals = s.globals)
    (hn : s'.globalNames = s.globalNames) (hf : s'.functions = s.functions)
    (hc : s'.context.functions = s.context.functions) : Grows held s s' := by
  refine ⟨evolves_of_draft_eq _ hd (hf ▸ fun _ _ h => h) (hg ▸ fun _ h => h) ?_,
    .inl (by rw [hd]), ?_⟩
  · rintro ⟨h1, h2, h3, h4⟩
    refine ⟨hg ▸ h1, hg ▸ hn ▸ h2, hg ▸ h3, ?_⟩
    simpa only [Context.getFunction?, hc, hf] using h4
  · simpa only [Active, State.block?, hd] using ha

theorem grows_seeded (hp : Poised scope s) (h : Appends code ((s.withSlot slot).entered label) s1)
    (hl : label ∈ held) : Grows held s ((s1.entered s.draft.current).binding x slot k) := by
  have g1 : Grows held s (s.withSlot slot) := grows_of_draft_eq hp.active rfl rfl rfl rfl rfl
  have l1 := g1.evolves.labelled hp.labelled
  have g2 : Grows held (s.withSlot slot) (s1.entered s.draft.current) :=
    (within_late l1 h (.inl hl)).grows (active_late g1.active h)
  have g3 : Grows held (s1.entered s.draft.current)
      ((s1.entered s.draft.current).binding x slot k) :=
    grows_of_draft_eq g2.active rfl rfl rfl rfl rfl
  exact (g1.trans g2 hp.labelled).trans g3 hp.labelled

theorem slotFor_moves (hp : Poised scope s) (hk : k ≠ .none)
    (h : slotFor scope x k s = .ok slot s') : slot.kind = k ∧ ∃ new, Moves scope s s' new := by
  rcases slotFor_cases h with ⟨hx, rfl⟩ | ⟨hother, rfl, s1, h1, rfl⟩
  · exact ⟨hp.slotted.proper.kind x _ hx, [], .refl scope hp.active⟩
  refine ⟨rfl, [⟨x, s.nextSlot, k⟩], ?_⟩
  cases hl : scope.outermost with
  | none =>
    simp only [seedSlot, hl] at h1
    cases h1
    exact ⟨declares_binding s x hk hother (.refl _) s.draft.current,
      fun _ _ _ => grows_of_draft_eq hp.active rfl rfl rfl rfl rfl⟩
  | some label =>
    cases hx : s.context.get? x with
    | none =>
      simp only [seedSlot, hl, hx] at h1
      cases h1
      exact ⟨declares_binding s x hk hother (.refl _) s.draft.current,
        fun _ _ _ => grows_of_draft_eq hp.active rfl rfl rfl rfl rfl⟩
    | some sym =>
      -- the slot is given the former value before the outermost branch
      have hdiff : (⟨x, s.nextSlot, k⟩ : Slot).kind ≠ sym.kind := Ne.symm (hother sym hx)
      obtain ⟨s2, code, h2, A, -⟩ := seedSlot_spec (s := s.withSlot ⟨x, s.nextSlot, k⟩) hl
        (hp.slotted.proper.kind x sym hx) hk hdiff
      rw [hx, h2] at h1
      cases h1
      refine ⟨declares_binding s x hk hother A s.draft.current, fun held _ hheld => ?_⟩
      rcases hheld label hl with hl | hn
      · exact grows_seeded hp A hl
      · have := hn.unbound _ (List.mem_singleton_self _)
        simp [hx] at this

theorem assign_moves (hp : Poised scope s) {r : Option Typed} {t : Typed} (hr : ResultFits s.used r)
    (h : assign scope x r s = .ok t s') :
    TypedFits s'.used t ∧ t.kind ≠ .none ∧ ∃ new, Moves scope s s' new := by
  obtain ⟨slot, s1, rfl, hk, h1, h2⟩ := assign_inv h
  obtain ⟨hslot, new, m1⟩ := slotFor_moves hp hk h1
  have hused := (m1.grown hp).evolves.used
  obtain ⟨s2, code, h3, A, -⟩ := storeSlot_spec (Fits.mono hr hused) hslot
  rw [h3] at h2
  cases h2
  exact ⟨Fits.mono hr fun _ hx => A.used (hused hx), hk, new, m1.appends hp A⟩

/-! ## Inside branches and loops -/

/-- Lowering is inside a branch or a loop that started in `s`, has got to `t`, and blocks wait to be
entered. The block in which it started may still get code, and so may those that are held. -/
structure Inside (held : List String) (s : State) (pending : List String) (t : State) : Prop where
  origin : Active s
  labelled : Labelled s
  known : held ⊆ s.used
  active : Active t
  within : Within held s t
  waits : ∀ k ∈ pending, Waits t k
  fresh : ∀ k ∈ pending, k ∉ s.used
  distinct : pending.Nodup

variable {pending : List String} {t t' : State}

theorem Opens.inside {labels : List String} (h : Opens labels s t) (ha : Active s)
    (hs : Labelled s) (hheld : held ⊆ s.used) : Inside held s labels t :=
  ⟨ha, hs, hheld, h.active, h.within held, h.waits, h.fresh, h.distinct⟩

theorem Inside.not_held (h : Inside held s pending t) {k : String} (hk : k ∈ pending) :
    k ∉ s.draft.current :: held := by
  have hfresh := h.fresh k hk
  obtain ⟨b, hb, -⟩ := h.origin
  rw [List.mem_cons, not_or]
  exact ⟨fun h' => hfresh (h' ▸ labelled_of_block? h.labelled hb), fun h' => hfresh (h.known h')⟩

theorem Inside.labelled_here (h : Inside held s pending t) : Labelled t :=
  h.within.evolves.labelled h.labelled

theorem Inside.grows (h : Inside held s pending t) (g : Grows (s.draft.current :: held) t t') :
    Inside held s pending t' := by
  refine ⟨h.origin, h.labelled, h.known, g.active, ?_, ?_, h.fresh, h.distinct⟩
  · refine h.within.step h.labelled g.within fun k hk => ?_
    rcases List.mem_cons.mp hk with rfl | hk
    · exact .inl rfl
    · exact .inr (.inl hk)
  · exact fun k hk => (h.waits k hk).grows h.labelled_here g (h.not_held hk)

theorem Inside.passed (h : Inside held s (pending ++ [label]) t) (exit : Terminator) :
    Inside held s pending (t.passed exit label) := by
  have hl : label ∈ pending ++ [label] := by simp
  have hd := List.nodup_append.mp h.distinct
  have hp : ∀ k ∈ pending, k ∈ pending ++ [label] ∧ k ≠ label :=
    fun k hk => ⟨List.mem_append_left _ hk, hd.2.2 k hk label (by simp)⟩
  exact ⟨h.origin, h.labelled, h.known, (h.waits label hl).active_passed h.active exit,
    h.within.passed h.labelled h.active exit (h.fresh label hl),
    fun k hk => (h.waits k (hp k hk).1).passed h.active exit (hp k hk).2,
    fun k hk => h.fresh k (hp k hk).1, hd.1⟩

theorem Inside.ended (h : Inside held s pending t) : Grows held s t := h.within.grows h.active

theorem opens_branch (ha : Active s) (hs : Labelled s) :
    Opens [s.joinLabel, s.elseLabel, s.thenLabel] s
      (((s.opened "then").opened "else").opened "ifcont") :=
  (((Opens.refl ha hs).opened hs "then").opened hs "else").opened hs "ifcont"

theorem declares_forked (s : State) (holds : Operand) : Declares s (s.forked holds) [] :=
  (((declares_opened s "then").trans (declares_opened _ "else")).trans
    (declares_opened _ "ifcont")).trans (declares_passed _ _ s.thenLabel)

theorem inside_forked (ha : Active s) (hs : Labelled s) (hheld : held ⊆ s.used) (holds : Operand) :
    Inside held s [s.joinLabel, s.elseLabel] (s.forked holds) :=
  ((opens_branch ha hs).inside ha hs hheld).passed (.branch holds s.thenLabel s.elseLabel)

theorem Inside.turned (h : Inside held s [s.joinLabel, s.elseLabel] t) :
    Inside held s [s.joinLabel] (t.passed (.jump s.joinLabel) s.elseLabel) :=
  h.passed (.jump s.joinLabel)

theorem Inside.joined (h : Inside held s [s.joinLabel] t) :
    Inside held s [] (t.passed (.jump s.joinLabel) s.joinLabel) :=
  h.passed (.jump s.joinLabel)

/-- The ways through a branch are joined if both have a value of the same kind. -/
theorem merge_cases {t e : Option Typed} {thenEnd elseEnd : String}
    (h : merge t e thenEnd elseEnd s = .ok r s') :
    (r = {} ∧ s' = s ∧ (kindOf t = kindOf e → (∀ u, t = some u → u.kind ≠ .none) → t = none)) ∨
      ∃ u v x, t = some u ∧ e = some v ∧ u.kind = v.kind ∧ u.kind ≠ .none ∧
        Appends [⟨x, .phi (irType u.kind) [(u.operand, thenEnd), (v.operand, elseEnd)]⟩] s s' ∧
        x ∈ s'.used ∧ r = { value := some ⟨.register x (irType u.kind), u.kind⟩ } := by
  cases t with
  | none =>
    cases h
    exact .inl ⟨rfl, rfl, fun _ _ => rfl⟩
  | some u =>
    cases e with
    | none =>
      cases h
      exact .inl ⟨rfl, rfl, fun hk hn => absurd hk (hn u rfl)⟩
    | some v =>
      simp only [merge] at h
      split at h
      · rename_i hk
        obtain ⟨phi, s1, h1, h2⟩ := bind_eq_ok.mp h
        obtain ⟨x, rfl, A, hx⟩ := emit_adds h1
        cases h2
        exact .inr ⟨u, v, x, rfl, rfl, hk.1, hk.2, A, hx, rfl⟩
      · rename_i hk
        cases h
        exact .inl ⟨rfl, rfl, fun he hn => absurd ⟨he, hn u rfl⟩ hk⟩

theorem merge_fits {t e : Option Typed} {thenEnd elseEnd : String}
    (h : merge t e thenEnd elseEnd s = .ok r s') :
    r.Fits s'.used ∧ ∃ code, Appends code s s' := by
  rcases merge_cases h with ⟨rfl, rfl, -⟩ | ⟨u, v, x, rfl, rfl, hk, hne, A, hx, rfl⟩
  · exact ⟨fits_none _, [], .refl _⟩
  · exact ⟨fits_some ⟨rfl, hx⟩ hne, _, A⟩

/-! ## Loops -/

theorem opens_loop (ha : Active s) (hs : Labelled s) :
    Opens [s.afterLabel, s.stepLabel, s.bodyLabel, s.conditionLabel] s
      ((((s.opened "for.cond").opened "for.body").opened "for.step").opened "for.end") :=
  ((((Opens.refl ha hs).opened hs "for.cond").opened hs "for.body").opened hs "for.step").opened hs
    "for.end"

theorem declares_looped (s : State) : Declares s s.looped [] :=
  ((((declares_opened s "for.cond").trans (declares_opened _ "for.body")).trans
    (declares_opened _ "for.step")).trans (declares_opened _ "for.end")).trans
    (declares_passed _ _ s.conditionLabel)

theorem inside_looped (ha : Active s) (hs : Labelled s) (hheld : held ⊆ s.used) :
    Inside held s [s.afterLabel, s.stepLabel, s.bodyLabel] s.looped :=
  ((opens_loop ha hs).inside ha hs hheld).passed (.jump s.conditionLabel)

theorem Inside.toBody (h : Inside held s [s.afterLabel, s.stepLabel, s.bodyLabel] t)
    (exit : Terminator) : Inside held s [s.afterLabel, s.stepLabel] (t.passed exit s.bodyLabel) :=
  h.passed exit

theorem Inside.toStep (h : Inside held s [s.afterLabel, s.stepLabel] t) :
    Inside held s [s.afterLabel] (t.passed (.jump s.stepLabel) s.stepLabel) :=
  h.passed (.jump s.stepLabel)

/-! ### The stack cells of a loop -/

/-- The value of a loop's body is kept in two stack cells: one for it, one for that there is one. -/
theorem keepValue_spec (ha : Active s) {t : Typed} (ht : TypedFits s.used t) :
    ∃ x y first s1 s' code, keepValue (some t) s =
        .ok (some ⟨.register x (.pointer (irType t.kind)), .register y (.pointer .i1), t.kind⟩) s' ∧
      s.entry = some first ∧
      Appends [⟨x, .alloca (irType t.kind)⟩, ⟨y, .alloca .i1⟩] (s.entered first) s1 ∧
      Appends code (s1.entered s.draft.current) s' ∧
      ∀ image a w, Gives image a.frame t.operand w →
        a.frame.registers.get? x = some (.address (.stack x)) →
        a.frame.registers.get? y = some (.address (.stack y)) →
        Runs image code a ((a.setStack x w).setStack y (.bit true)) := by
  obtain ⟨x, first, s1, hentry, A1, h1, hx⟩ := entryAlloca_spec ha (irType t.kind) "for.value"
  obtain ⟨y, first', s2, hentry', A2, h2, hy⟩ :=
    entryAlloca_spec (active_late ha A1) .i1 "for.ran"
  have hfirst : first' = first := by
    have he : (s1.entered s.draft.current).entry = s.entry :=
      show s1.entry = (s.entered first).entry from entry_appends A1
    rw [he, hentry] at hentry'
    exact (Option.some.inj hentry').symm
  subst hfirst
  have A2' : Appends [⟨y, .alloca .i1⟩] s1 s2 := by
    have hs : (s1.entered s.draft.current).entered first' = s1 := by
      have hc : s1.draft.current = first' := A1.current
      rw [← hc]
      rfl
    rwa [hs] at A2
  obtain ⟨_, s3, h3, A3, -⟩ := emit_spec (s2.entered s.draft.current)
    (.store t.operand (.register x (.pointer (irType t.kind)))) ""
    (if_pos (by rw [ht.type]; rfl))
  obtain ⟨_, s4, h4, A4, -⟩ := emit_spec s3
    (.store (.int 1 .i1) (.register y (.pointer .i1))) "" rfl
  refine ⟨x, y, first', s2, s4, _, ?_, hentry, A1.trans A2', A3.trans A4, ?_⟩
  · exact (bind_ok h1).trans ((bind_ok h2).trans ((bind_ok h3).trans ((bind_ok h4).trans rfl)))
  · intro image a w hw hx hy
    exact (runs_store_stack hw (gives_register hx)).append
      (runs_store_stack (gives_bit 1) (gives_register hy))

/-- Before the loop the cells are cleared; after it the value is read. -/
theorem finishLoop_spec {y before after : String} (hk : k ≠ .none) :
    ∃ r s1 s' code, finishLoop before after
        (some ⟨.register x (.pointer (irType k)), .register y (.pointer .i1), k⟩) s =
          .ok ⟨some ⟨.register r (irType k), k⟩, some (.register y (.pointer .i1))⟩ s' ∧
      Appends code (s.entered before) s1 ∧
      Appends [⟨r, .load (.register x (.pointer (irType k)))⟩] (s1.entered after) s' ∧ r ∈ s'.used ∧
      ∀ image a, Serves image a.memory s1.globals → x ∈ s.used → y ∈ s.used →
        a.frame.registers.get? x = some (.address (.stack x)) →
        a.frame.registers.get? y = some (.address (.stack y)) →
        ∃ b, Quiet s.used a b ∧
          Runs image code a ((b.setStack x (zeroWord k)).setStack y (.bit false)) := by
  obtain ⟨o, s1, c₁, h1, A1, F1, run1⟩ := zero_spec (s.entered before) hk
  obtain ⟨_, s2, h2, A2, -⟩ := emit_spec s1
    (.store o (.register x (.pointer (irType k)))) "" (if_pos (by rw [F1.type]; rfl))
  obtain ⟨_, s3, h3, A3, -⟩ := emit_spec s2
    (.store (.int 0 .i1) (.register y (.pointer .i1))) "" rfl
  obtain ⟨r, s4, h4, A4, hr⟩ := emit_spec (s3.entered after)
    (.load (.register x (.pointer (irType k)))) "forval" rfl
  refine ⟨r, s3, s4, _, ?_, (A1.trans A2).trans A3, A4, hr, ?_⟩
  · have hclear : clearCells before
        ⟨.register x (.pointer (irType k)), .register y (.pointer .i1), k⟩ s =
          .ok ⟨⟩ (s3.entered s.draft.current) :=
      inBlock_run ((bind_ok h1).trans ((bind_ok h2).trans ((bind_ok h3).trans rfl)))
    exact (bind_ok hclear).trans ((bind_ok (enter_run _ _)).trans ((bind_ok h4).trans rfl))
  · intro image a hs hx hy hrx hry
    obtain ⟨b, C, g⟩ := run1 image a (A2.serves (A3.serves hs))
    refine ⟨b, C.quiet, ?_⟩
    refine (C.runs.append (runs_store_stack g (gives_register ?_))).append
      (runs_store_stack (gives_bit 0) (gives_register ?_))
    · exact (C.quiet.registers x hx).trans hrx
    · exact (C.quiet.registers y hy).trans hry

theorem grows_allocas {first : String} (ha : Active s) (hs : Labelled s)
    (hentry : s.entry = some first) (h : Appends code (s.entered first) s1)
    (hc : ∀ i ∈ code, i.isAlloca = true) : Grows held s (s1.entered s.draft.current) :=
  (within_late hs h (.inr fun i hi => ⟨hc i hi, hentry⟩)).grows (active_late ha h)

theorem keepValue_grows (hp : Poised scope s) {r : Option Typed} (hr : ResultFits s.used r)
    (h : keepValue r s = .ok cells s') :
    Declares s s' [] ∧ (∀ held, Grows held s s') ∧
      ((r = none ∧ cells = none) ∨ ∃ t x y, r = some t ∧ x ∈ s'.used ∧ y ∈ s'.used ∧
        cells = some ⟨.register x (.pointer (irType t.kind)), .register y (.pointer .i1),
          t.kind⟩) := by
  cases r with
  | none =>
    cases h
    exact ⟨.refl s, fun _ => .refl hp.active, .inl ⟨rfl, rfl⟩⟩
  | some t =>
    obtain ⟨x, y, first, s1, s2, code, h1, hentry, A1, A2, -⟩ := keepValue_spec hp.active hr
    rw [h1] at h
    cases h
    have g (held : List String) : Grows held s (s1.entered s.draft.current) :=
      grows_allocas hp.active hp.labelled hentry A1 (by simp [Instruction.isAlloca])
    have D1 : Declares s (s1.entered s.draft.current) [] :=
      ((declares_entered s first).trans A1.declares).trans (declares_entered s1 s.draft.current)
    refine ⟨D1.trans A2.declares, fun held => ?_, .inr ⟨t, x, y, rfl, ?_, ?_, rfl⟩⟩
    · exact (g held).trans (grows_appends (g held).active A2) hp.labelled
    · exact A2.used (A1.fresh _ List.mem_cons_self).2
    · exact A2.used (A1.fresh _ (List.mem_cons_of_mem _ List.mem_cons_self)).2

theorem Waits.late {k : String} (h : Waits s k) (ha : Appends code (s.entered label) s1)
    (hne : k ≠ label) {back : String} (hb : k ≠ back) : Waits (s1.entered back) k := by
  refine ⟨?_, hb, ?_⟩
  · rw [block?_entered, block?_appends ha]
    exact (if_neg hne).trans h.block
  · exact (entry_appends ha).trans_ne h.entry

/-- The end of a loop: the block before it gets the code that clears its cells. -/
theorem Inside.finished (h : Inside held s [s.afterLabel] t)
    (hcells : cells = none ∨ ∃ x y k, k ≠ .none ∧ x ∈ t.used ∧ y ∈ t.used ∧
      cells = some ⟨.register x (.pointer (irType k)), .register y (.pointer .i1), k⟩)
    (hf : finishLoop s.draft.current s.afterLabel cells (t.ended (.jump s.conditionLabel)) =
      .ok r s') :
    Grows held s s' ∧ Declares t s' [] ∧ r.Fits s'.used := by
  rcases hcells with rfl | ⟨x, y, k, hk, hx, hy, rfl⟩
  · cases hf
    have hend : Inside held s [] (t.passed (.jump s.conditionLabel) s.afterLabel) := h.passed _
    exact ⟨hend.ended, declares_passed t _ _, fits_none _⟩
  · obtain ⟨z, s1, s2, code, h1, A1, A2, hz, -⟩ := finishLoop_spec (x := x) (y := y)
      (s := t.ended (.jump s.conditionLabel)) hk
    rw [h1] at hf
    cases hf
    have hwait := h.waits s.afterLabel (by simp)
    have hlabel : s.afterLabel ≠ s.draft.current := fun he =>
      h.not_held (List.mem_singleton_self _) (List.mem_cons.mpr (.inl he))
    have w1 := h.within.ended h.labelled h.active (.jump s.conditionLabel)
    have W : Waits (s1.entered t.draft.current) s.afterLabel :=
      (hwait.ended h.active (.jump s.conditionLabel)).late A1 hlabel hwait.current
    have e1 : Evolves (fun k => k = s.draft.current ∨ k ∈ held) s s1 := by
      have hlate : Evolves (· = s.draft.current) _ s1 := evolves_appends A1 (.inl rfl)
      refine w1.then h.labelled ((evolves_entered _ _ s.draft.current).trans hlate
        fun _ _ _ hk => hk) ?_
      rintro k rfl
      exact .inr (.inl rfl)
    have w2 : Within held s (s1.entered s.afterLabel) :=
      ⟨e1.trans (evolves_entered (fun _ => False) s1 s.afterLabel) (by simp),
        .inr (h.fresh _ (List.mem_singleton_self _))⟩
    have a2 : Active (s1.entered s.afterLabel) := W.active
    have hused : t.used ⊆ s'.used := fun z hz =>
      A2.used (A1.used (used_passed t (.jump s.conditionLabel) s.draft.current hz))
    refine ⟨(w2.appends h.labelled A2).grows (a2.appends A2), ?_, ?_⟩
    · exact ((declares_passed t _ _).trans A1.declares).trans
        ((declares_entered s1 s.afterLabel).trans A2.declares)
    · refine ⟨⟨rfl, hz⟩, ?_, ?_⟩
      · rintro t' ⟨⟩
        exact hk
      · rintro o ⟨⟩
        exact ⟨rfl, hused hy⟩

/-! ## Trees -/

/-- A tree as the parser gives it, without draws and definitions. -/
structure Regular (earlier : Earlier) (definitions : Table Definition) (node : Node) : Prop where
  statement : node.isStatement = true
  avoids : node.Avoids ["Random", "FunctionDef"]
  calls : CallsDepend earlier definitions node

variable {definitions : Table Definition} {node part : Node}

theorem Regular.child (h : Regular earlier definitions node) (hc : part ∈ node.children)
    (hs : part.isStatement = true) : Regular earlier definitions part :=
  ⟨hs, h.avoids.child hc, h.calls.child hc⟩

theorem Regular.operand (h : Regular earlier definitions node) (hf : node.isStatementForm = false)
    (hc : part ∈ node.children) :
    part.isExpression = true ∧ Regular earlier definitions part := by
  have he := Node.isExpression_child (Node.isExpression_of_isStatement h.statement hf) hc
  exact ⟨he, h.child hc (Node.isStatement_of_isExpression he)⟩

theorem Regular.statements {nodes : List Node} (h : Regular earlier definitions (.sequence nodes)) :
    ∀ node ∈ nodes, Regular earlier definitions node := by
  have hst := (Node.areStatements_iff _).mp (by simpa [Node.isStatement] using h.statement)
  exact fun node hn => h.child hn (hst node hn)

theorem Regular.assigned (h : Regular earlier definitions (.assign x node)) :
    node.isExpression = true ∧ Regular earlier definitions node := by
  have he : node.isExpression = true := by simpa [Node.isStatement] using h.statement
  exact ⟨he, h.child (by simp [Node.children]) (Node.isStatement_of_isExpression he)⟩

/-- Wherever the tree is lowered, the function grows. -/
def Lowers (earlier : Earlier) (node : Node) : Prop :=
  ∀ scope s r s', Regular earlier s.context.functions node → Poised scope s →
    lower earlier scope node s = .ok r s' →
    ∃ new, Moves scope s s' new ∧ r.Fits s'.used ∧
      (node.isExpression = true → new = [] ∧ r.ran = none)

theorem Lowers.expression (h : Lowers earlier node) (he : node.isExpression = true)
    (hr : Regular earlier s.context.functions node) (hp : Poised scope s)
    (hl : lower earlier scope node s = .ok r s') :
    Moves scope s s' [] ∧ r.Fits s'.used ∧ r.ran = none := by
  obtain ⟨new, m, f, hnew⟩ := h scope s r s' hr hp hl
  obtain ⟨rfl, hran⟩ := hnew he
  exact ⟨m, f, hran⟩

/-- Two operands are lowered one after the other. -/
theorem Lowers.operands {l : Lowered} {s2 : State} (ihl : Lowers earlier left)
    (ihr : Lowers earlier right)
    (hl : left.isExpression = true ∧ Regular earlier s.context.functions left)
    (hr : right.isExpression = true ∧ Regular earlier s.context.functions right)
    (hp : Poised scope s) (h1 : lower earlier scope left s = .ok l s1)
    (h2 : lower earlier scope right s1 = .ok r s2) :
    Moves scope s s1 [] ∧ Moves scope s1 s2 [] ∧ ResultFits s1.used l.value ∧
      ResultFits s2.used l.value ∧ ResultFits s2.used r.value := by
  obtain ⟨m1, f1, -⟩ := ihl.expression hl.1 hl.2 hp h1
  obtain ⟨m2, f2, -⟩ := ihr.expression hr.1 (m1.declares.functions ▸ hr.2) (m1.poised hp) h2
  have hused := (m2.grown (m1.poised hp)).evolves.used
  exact ⟨m1, m2, f1.value, f1.value.mono hused, f2.value⟩

theorem lowerElements_moves (ih : ∀ node ∈ nodes, Lowers earlier node)
    (hr : ∀ node ∈ nodes, node.isExpression = true ∧ Regular earlier s.context.functions node)
    (hp : Poised scope s) (h : lowerElements earlier scope nodes s = .ok os s') :
    Moves scope s s' [] ∧ ∀ o ∈ os, Fits o .i32 s'.used := by
  induction nodes generalizing s os with
  | nil =>
    cases h
    exact ⟨.refl scope hp.active, by simp⟩
  | cons node rest ihr =>
    obtain ⟨l, s1, o, os', h1, hv, h2, rfl⟩ := lowerElements_cons h
    obtain ⟨he, hreg⟩ := hr node List.mem_cons_self
    obtain ⟨m1, f1, -⟩ := (ih node List.mem_cons_self).expression he hreg hp h1
    have hfun := m1.declares.functions
    obtain ⟨m2, f2⟩ := ihr (fun n hn => ih n (List.mem_cons_of_mem _ hn))
      (fun n hn => hfun ▸ hr n (List.mem_cons_of_mem _ hn)) (m1.poised hp) h2
    refine ⟨m1.trans hp m2, ?_⟩
    intro o' ho'
    rcases List.mem_cons.mp ho' with rfl | ho'
    · have := f1.value
      rw [hv] at this
      exact Fits.mono this (m2.grown (m1.poised hp)).evolves.used
    · exact f2 o' ho'

theorem numeric_cases (h : k.isNumeric = true) : k = .int ∨ k = .float ∨ k = .bool := by
  cases k <;> simp_all [Kind.isNumeric]

theorem lowerArguments_moves {function : String} {params : List String}
    (ih : ∀ node ∈ nodes, Lowers earlier node)
    (hr : ∀ node ∈ nodes, node.isExpression = true ∧ Regular earlier s.context.functions node)
    (hp : Poised scope s) (h : lowerArguments earlier scope function params nodes s = .ok os s') :
    Moves scope s s' [] ∧ ∀ o ∈ os, Fits o .double s'.used := by
  induction nodes generalizing s os params with
  | nil =>
    cases params <;> cases h <;> exact ⟨.refl scope hp.active, by simp⟩
  | cons node rest ihr =>
    cases params with
    | nil =>
      cases h
      exact ⟨.refl scope hp.active, by simp⟩
    | cons param params =>
      obtain ⟨l, s1, t, o, s2, os', h1, hv, hk, h2, h3, rfl⟩ := lowerArguments_cons h
      obtain ⟨he, hreg⟩ := hr node List.mem_cons_self
      obtain ⟨m1, f1, -⟩ := (ih node List.mem_cons_self).expression he hreg hp h1
      have ht := f1.value
      rw [hv] at ht
      obtain ⟨o', s2', code, h2', A2, F2, -⟩ := toFloat_spec ht (numeric_cases hk)
      rw [h2'] at h2
      cases h2
      have m2 := m1.appends hp A2
      have hfun := m2.declares.functions
      obtain ⟨m3, f3⟩ := ihr (fun n hn => ih n (List.mem_cons_of_mem _ hn))
        (fun n hn => hfun ▸ hr n (List.mem_cons_of_mem _ hn)) (m2.poised hp) h3
      refine ⟨m2.trans hp m3, ?_⟩
      intro u hu
      rcases List.mem_cons.mp hu with rfl | hu
      · exact F2.mono (m3.grown (m2.poised hp)).evolves.used
      · exact f3 u hu

theorem lowerAll_moves {last : Lowered} (ih : ∀ node ∈ nodes, Lowers earlier node)
    (hr : ∀ node ∈ nodes, Regular earlier s.context.functions node) (hp : Poised scope s)
    (hlast : last.Fits s.used) (h : lowerAll earlier scope nodes last s = .ok r s') :
    ∃ new, Moves scope s s' new ∧ r.Fits s'.used := by
  induction nodes generalizing s last with
  | nil =>
    cases h
    exact ⟨[], .refl scope hp.active, hlast⟩
  | cons node rest ihr =>
    obtain ⟨l, s1, h1, h2⟩ := lowerAll_cons h
    obtain ⟨new1, m1, f1, -⟩ := ih node List.mem_cons_self scope s l s1 (hr node List.mem_cons_self)
      hp h1
    have hfun := m1.declares.functions
    obtain ⟨new2, m2, f2⟩ := ihr (fun n hn => ih n (List.mem_cons_of_mem _ hn))
      (fun n hn => hfun ▸ hr n (List.mem_cons_of_mem _ hn)) (m1.poised hp) f1 h2
    exact ⟨_, m1.trans hp m2, f2⟩

/-! ### Branches and loops -/

theorem Poised.inside {pending : List String} {t : State} (hp : Poised scope s)
    (h : Inside held s pending t) (hd : Declares s t new) :
    Poised (scope.branching s.draft.current) t := by
  have hused := h.within.evolves.used
  refine ⟨h.active, h.labelled_here, h.within.evolves.tidy hp.tidy, hp.slotted.declares hd,
    fun x o ho => (hp.params x o ho).mono hused, ?_⟩
  intro l hl
  obtain ⟨b, hb, -⟩ := hp.active
  cases ho : scope.outermost with
  | none =>
    simp only [Scope.branching, ho, Option.none_or, Option.some.injEq] at hl
    exact hused (hl ▸ labelled_of_block? hp.labelled hb)
  | some label =>
    simp only [Scope.branching, ho, Option.some_or, Option.some.injEq] at hl
    exact hused (hl ▸ hp.outermost label ho)

/-- The parts of a branch or a loop may add to the block in which it started. -/
theorem Moves.grows_inside {pending : List String} {t t' : State}
    (m : Moves (scope.branching s.draft.current) t t' new) (h : Inside held s pending t)
    (hl : ∀ l, scope.outermost = some l → l ∈ held ∨ Novel t new) : Grows (s.draft.current :: held) t t' := by
  refine m.grows _ ?_ ?_
  · obtain ⟨b, hb, -⟩ := h.origin
    intro k hk
    rcases List.mem_cons.mp hk with rfl | hk
    · exact h.within.evolves.used (labelled_of_block? h.labelled hb)
    · exact h.within.evolves.used (h.known hk)
  · intro l ho
    cases hs : scope.outermost with
    | none =>
      simp only [Scope.branching, hs, Option.none_or, Option.some.injEq] at ho
      exact .inl (List.mem_cons.mpr (.inl ho.symm))
    | some label =>
      simp only [Scope.branching, hs, Option.some_or, Option.some.injEq] at ho
      subst ho
      exact (hl label hs).imp (List.mem_cons_of_mem _) id

theorem Moves.grows_outermost {pending : List String} {t t' : State}
    (m : Moves (scope.branching s.draft.current) t t' new)
    (h : Inside scope.outermost.toList s pending t) :
    Grows (s.draft.current :: scope.outermost.toList) t t' :=
  m.grows_inside h fun l hl => .inl (by simp [hl])

theorem branch_moves {s3 s4 : State} (hp : Poised scope s)
    (m1 : Moves (scope.branching s.draft.current) (s.forked holds) s3 new)
    (m2 : Moves (scope.branching s.draft.current) (s3.passed (.jump s.joinLabel) s.elseLabel) s4
      new') : Moves scope s (s4.passed (.jump s.joinLabel) s.joinLabel) (new ++ new') := by
  have D1 : Declares s (s3.passed (.jump s.joinLabel) s.elseLabel) new := by
    simpa using ((declares_forked s holds).trans m1.declares).trans
      (declares_passed s3 (.jump s.joinLabel) s.elseLabel)
  refine ⟨?_, fun held hheld hl => ?_⟩
  · simpa using (D1.trans m2.declares).trans
      (declares_passed s4 (.jump s.joinLabel) s.joinLabel)
  · have i₁ := inside_forked hp.active hp.labelled hheld holds
    have i3 := i₁.grows (m1.grows_inside i₁ fun l ho =>
      (hl l ho).imp id fun h => h.left.right (declares_forked s holds))
    have i4 := i3.turned.grows (m2.grows_inside i3.turned fun l ho =>
      (hl l ho).imp id fun h => h.right D1)
    exact i4.joined.ended

section LoopMoves
variable {s2 s3 s4 s5 : State} {exit : Terminator}

/-- Lowering is still inside the loop after its step. -/
theorem loop_inside (hp : Poised scope s)
    (m2 : Moves (scope.branching s.draft.current) s.looped s2 [])
    (m3 : Moves (scope.branching s.draft.current) (s2.passed exit s.bodyLabel) s3 new)
    (d4 : Declares s3 s4 []) (g4 : ∀ held, Grows held s3 s4)
    (m5 : Moves (scope.branching s.draft.current) (s4.passed (.jump s.stepLabel) s.stepLabel) s5
      new') (hheld : held ⊆ s.used)
    (hl : ∀ l, scope.outermost = some l → l ∈ held ∨ Novel s (new ++ new')) :
    Inside held s [s.afterLabel] s5 ∧ Declares s s5 (new ++ new') := by
  have D2 : Declares s (s2.passed exit s.bodyLabel) [] :=
    ((declares_looped s).trans m2.declares).trans (declares_passed s2 exit s.bodyLabel)
  have D4 : Declares s (s4.passed (.jump s.stepLabel) s.stepLabel) new := by
    simpa using ((D2.trans m3.declares).trans d4).trans
      (declares_passed s4 (.jump s.stepLabel) s.stepLabel)
  have i₁ := inside_looped hp.active hp.labelled hheld
  have i2 := (i₁.grows (m2.grows_inside i₁ fun l ho =>
    (hl l ho).imp id fun _ => ⟨by simp, by simp⟩)).toBody exit
  have i3 := i2.grows (m3.grows_inside i2 fun l ho =>
    (hl l ho).imp id fun h => h.left.right D2)
  have i4 := (i3.grows (g4 _)).toStep
  exact ⟨i4.grows (m5.grows_inside i4 fun l ho => (hl l ho).imp id fun h => h.right D4),
    D4.trans m5.declares⟩

theorem loop_moves (hp : Poised scope s)
    (m2 : Moves (scope.branching s.draft.current) s.looped s2 [])
    (m3 : Moves (scope.branching s.draft.current) (s2.passed exit s.bodyLabel) s3 new)
    (d4 : Declares s3 s4 []) (g4 : ∀ held, Grows held s3 s4)
    (m5 : Moves (scope.branching s.draft.current) (s4.passed (.jump s.stepLabel) s.stepLabel) s5
      new')
    (hcells : cells = none ∨ ∃ x y k, k ≠ .none ∧ x ∈ s5.used ∧ y ∈ s5.used ∧
      cells = some ⟨.register x (.pointer (irType k)), .register y (.pointer .i1), k⟩)
    (hf : finishLoop s.draft.current s.afterLabel cells (s5.ended (.jump s.conditionLabel)) =
      .ok r s') : Moves scope s s' (new ++ new') ∧ r.Fits s'.used := by
  obtain ⟨i5, D5⟩ := loop_inside hp m2 m3 d4 g4 m5 hp.outermost_used fun l hl => .inl (by simp [hl])
  obtain ⟨-, D6, F⟩ := i5.finished hcells hf
  refine ⟨⟨by simpa using D5.trans D6, fun held hheld hl => ?_⟩, F⟩
  exact ((loop_inside hp m2 m3 d4 g4 m5 hheld hl).1.finished hcells hf).1

end LoopMoves

/-- A part that may be left out. -/
def lowerPart (earlier : Earlier) (scope : Scope) (node : Node) : Lower Lowered :=
  if node.isMissing then pure {} else lower earlier scope node

/-- The condition of a loop; there is no operand for one that is left out. -/
def lowerCondition (earlier : Earlier) (scope : Scope) (condition : Node) :
    Lower (Option Operand) :=
  if condition.isMissing then pure none
  else do return some (← truth (← lower earlier scope condition).value)

theorem lowerPart_moves (ih : Lowers earlier node) (hr : Regular earlier s.context.functions node)
    (hp : Poised scope s) (h : lowerPart earlier scope node s = .ok r s') :
    ∃ new, Moves scope s s' new ∧ r.Fits s'.used := by
  unfold lowerPart at h
  split at h
  · cases h
    exact ⟨[], .refl scope hp.active, fits_none _⟩
  · obtain ⟨new, m, f, -⟩ := ih scope s r s' hr hp h
    exact ⟨new, m, f⟩

theorem truth_fits {r : Option Typed} {o : Operand} (hr : ResultFits s.used r)
    (h : truth r s = .ok o s') : Fits o .i1 s'.used ∧ ∃ code, Appends code s s' := by
  obtain ⟨t, rfl, hk⟩ := truth_inv h
  obtain ⟨o', s1, code, h1, A, F, -⟩ := truth_spec hr hk
  rw [h1] at h
  cases h
  exact ⟨F, code, A⟩

/-- The first way of a branch may be lowered. -/
theorem Poised.forked (hp : Poised scope s) (holds : Operand) :
    Poised (scope.branching s.draft.current) (s.forked holds) :=
  hp.inside (inside_forked hp.active hp.labelled hp.outermost_used holds) (declares_forked s holds)

/-- After the first way of a branch, the second may be lowered. -/
theorem Poised.turned (hp : Poised scope s) {s3 : State}
    (m : Moves (scope.branching s.draft.current) (s.forked holds) s3 new) :
    Poised (scope.branching s.draft.current) (s3.passed (.jump s.joinLabel) s.elseLabel) := by
  have i := inside_forked hp.active hp.labelled hp.outermost_used holds
  exact hp.inside (i.grows (m.grows_outermost i)).turned
    (((declares_forked s holds).trans m.declares).trans
      (declares_passed s3 (.jump s.joinLabel) s.elseLabel))

/-- What lowering the condition and the two ways of a branch did. -/
structure BranchParts (scope : Scope) (s : State) (holds : Operand) (s2 s3 s4 : State)
    (t e : Lowered) (new new' : List Slot) : Prop where
  condition : Moves scope s s2 []
  start : Poised (scope.branching s2.draft.current) (s2.forked holds)
  yes : Moves (scope.branching s2.draft.current) (s2.forked holds) s3 new
  turn : Poised (scope.branching s2.draft.current) (s3.passed (.jump s2.joinLabel) s2.elseLabel)
  no : Moves (scope.branching s2.draft.current) (s3.passed (.jump s2.joinLabel) s2.elseLabel) s4
    new'
  fits : t.Fits s3.used
  fits' : e.Fits s4.used
  functions : (s2.forked holds).context.functions = s.context.functions
  functions' : (s3.passed (.jump s2.joinLabel) s2.elseLabel).context.functions = s.context.functions

theorem branch_parts {thenPart elsePart : Node} {c t e : Lowered} {s2 s3 s4 : State}
    (ih : ∀ child ∈ (Node.branch condition thenPart elsePart).children, Lowers earlier child)
    (hr : Regular earlier s.context.functions (.branch condition thenPart elsePart))
    (hp : Poised scope s) (h1 : lower earlier scope condition s = .ok c s1)
    (h2 : truth c.value s1 = .ok holds s2)
    (h3 : lower earlier (scope.branching s2.draft.current) thenPart (s2.forked holds) = .ok t s3)
    (h4 : lowerPart earlier (scope.branching s2.draft.current) elsePart
      (s3.passed (.jump s2.joinLabel) s2.elseLabel) = .ok e s4) :
    ∃ new new', BranchParts scope s holds s2 s3 s4 t e new new' := by
  simp only [Node.children, List.forall_mem_cons] at ih
  obtain ⟨ihc, iht, ihe, -⟩ := ih
  have hst := hr.statement
  simp only [Node.isStatement, Bool.and_eq_true] at hst
  obtain ⟨⟨hc, ht⟩, he⟩ := hst
  obtain ⟨m1, f1, -⟩ := ihc.expression hc
    (hr.child (by simp [Node.children]) (Node.isStatement_of_isExpression hc)) hp h1
  obtain ⟨-, _, A2⟩ := truth_fits f1.value h2
  have m2 := m1.appends hp A2
  have p2 := m2.poised hp
  have D2 := m2.declares.functions
  have D2' := (declares_forked s2 holds).functions.trans D2
  have start := p2.forked holds
  obtain ⟨new, m3, f3, -⟩ := iht _ _ t s3 (D2' ▸ hr.child (by simp [Node.children]) ht) start h3
  have D3 := ((declares_forked s2 holds).trans m3.declares).trans
    (declares_passed s3 (.jump s2.joinLabel) s2.elseLabel)
  have turn := p2.turned m3
  obtain ⟨new', m4, f4⟩ := lowerPart_moves ihe
    ((D3.functions.trans D2) ▸ hr.child (by simp [Node.children]) he) turn h4
  exact ⟨new, new', m2, start, m3, turn, m4, f3, f4, D2', D3.functions.trans D2⟩

theorem lowers_branch {thenPart elsePart : Node}
    (ih : ∀ child ∈ (Node.branch condition thenPart elsePart).children, Lowers earlier child) :
    Lowers earlier (.branch condition thenPart elsePart) := by
  intro scope s r s' hr hp h
  obtain ⟨c, s1, holds, s2, t, s3, e, s4, h1, h2, h3, h4, h5⟩ := lowerBranch_inv h
  obtain ⟨new, new', parts⟩ := branch_parts ih hr hp h1 h2 h3 h4
  obtain ⟨f5, _, A5⟩ := merge_fits h5
  have m := parts.condition.trans hp (branch_moves (parts.condition.poised hp) parts.yes parts.no)
  exact ⟨_, m.appends hp A5, f5, fun hx => absurd hx (Node.not_isExpression rfl)⟩

/-- What lowering the start, the condition, the body and the step of a loop did. -/
structure LoopParts (scope : Scope) (s s1 : State) (holds : Option Operand) (s2 : State)
    (b : Lowered) (s3 : State) (cells : Option LoopCells) (s4 s5 : State)
    (first new new' : List Slot) : Prop where
  start : Moves scope s s1 first
  turn : Poised (scope.branching s1.draft.current) s1.looped
  condition : Moves (scope.branching s1.draft.current) s1.looped s2 []
  round : Poised (scope.branching s1.draft.current)
    (s2.passed (loopExit s1.bodyLabel s1.afterLabel holds) s1.bodyLabel)
  body : Moves (scope.branching s1.draft.current)
    (s2.passed (loopExit s1.bodyLabel s1.afterLabel holds) s1.bodyLabel) s3 new
  fits : b.Fits s3.used
  keep : Declares s3 s4 []
  grows : ∀ held, Grows held s3 s4
  cells : cells = none ∨ ∃ x y k, k ≠ .none ∧ x ∈ s5.used ∧ y ∈ s5.used ∧
    cells = some ⟨.register x (.pointer (irType k)), .register y (.pointer .i1), k⟩
  next : Poised (scope.branching s1.draft.current) (s4.passed (.jump s1.stepLabel) s1.stepLabel)
  step : Moves (scope.branching s1.draft.current) (s4.passed (.jump s1.stepLabel) s1.stepLabel) s5
    new'
  functions : s1.looped.context.functions = s.context.functions
  functions' : (s2.passed (loopExit s1.bodyLabel s1.afterLabel holds) s1.bodyLabel).context.functions =
    s.context.functions
  functions'' : (s4.passed (.jump s1.stepLabel) s1.stepLabel).context.functions = s.context.functions

theorem loop_parts {start step body : Node} {u b w : Lowered} {holds : Option Operand}
    {s2 s3 s4 s5 : State}
    (ih : ∀ child ∈ (Node.loop start condition step body).children, Lowers earlier child)
    (hr : Regular earlier s.context.functions (.loop start condition step body))
    (hp : Poised scope s) (h1 : lowerPart earlier scope start s = .ok u s1)
    (h2 : lowerCondition earlier (scope.branching s1.draft.current) condition s1.looped =
      .ok holds s2)
    (h3 : lower earlier (scope.branching s1.draft.current) body
      (s2.passed (loopExit s1.bodyLabel s1.afterLabel holds) s1.bodyLabel) = .ok b s3)
    (h4 : keepValue b.value s3 = .ok cells s4)
    (h5 : lowerPart earlier (scope.branching s1.draft.current) step
      (s4.passed (.jump s1.stepLabel) s1.stepLabel) = .ok w s5) :
    ∃ first new new', LoopParts scope s s1 holds s2 b s3 cells s4 s5 first new new' := by
  simp only [Node.children, List.forall_mem_cons] at ih
  obtain ⟨ihs, ihc, iht, ihb, -⟩ := ih
  have hst := hr.statement
  simp only [Node.isStatement, Bool.and_eq_true] at hst
  obtain ⟨⟨⟨hs, hc⟩, ht⟩, hb⟩ := hst
  obtain ⟨first, m1, -⟩ := lowerPart_moves ihs (hr.child (by simp [Node.children]) hs) hp h1
  have p1 := m1.poised hp
  have i₁ := inside_looped p1.active p1.labelled p1.outermost_used
  have D1 := declares_looped s1
  have turn := p1.inside i₁ D1
  have hfun := D1.functions.trans m1.declares.functions
  have hcr := hr.child (by simp [Node.children]) (Node.isStatement_of_isExpression hc)
  have m2 : Moves (scope.branching s1.draft.current) s1.looped s2 [] := by
    unfold lowerCondition at h2
    split at h2
    · cases h2
      exact .refl _ i₁.active
    · obtain ⟨c, t, hlow, h2⟩ := bind_eq_ok.mp h2
      obtain ⟨o, t', htruth, h2⟩ := bind_eq_ok.mp h2
      cases h2
      obtain ⟨m, f, -⟩ := ihc.expression hc (hfun ▸ hcr) turn hlow
      obtain ⟨-, _, A⟩ := truth_fits f.value htruth
      exact m.appends turn A
  have i2 := (i₁.grows (m2.grows_outermost i₁)).toBody (loopExit s1.bodyLabel s1.afterLabel holds)
  have D2 := (D1.trans m2.declares).trans
    (declares_passed s2 (loopExit s1.bodyLabel s1.afterLabel holds) s1.bodyLabel)
  have round := p1.inside i2 D2
  have hfun' := D2.functions.trans m1.declares.functions
  obtain ⟨new, m3, f3, -⟩ := ihb _ _ b s3 (hfun' ▸ hr.child (by simp [Node.children]) hb) round h3
  have i3 := i2.grows (m3.grows_outermost i2)
  have D3 := D2.trans m3.declares
  obtain ⟨D4, g4, hcells⟩ := keepValue_grows (p1.inside i3 D3) f3.value h4
  have i4 := (i3.grows (g4 _)).toStep
  have D4' := (D3.trans D4).trans (declares_passed s4 (.jump s1.stepLabel) s1.stepLabel)
  have next := p1.inside i4 D4'
  have hfun'' := D4'.functions.trans m1.declares.functions
  obtain ⟨new', m5, -⟩ := lowerPart_moves iht (hfun'' ▸ hr.child (by simp [Node.children]) ht) next h5
  have hused : s4.used ⊆ s5.used := fun x hx =>
    (m5.grows_outermost i4).evolves.used (used_passed s4 _ _ hx)
  refine ⟨first, new, new', m1, turn, m2, round, m3, f3, D4, g4, ?_, next, m5, hfun, hfun', hfun''⟩
  rcases hcells with ⟨-, hn⟩ | ⟨t, x, y, hb, hx, hy, hn⟩
  · exact .inl hn
  · exact .inr ⟨x, y, t.kind, f3.kind t hb, hused hx, hused hy, hn⟩

theorem lowers_loop {start step body : Node}
    (ih : ∀ child ∈ (Node.loop start condition step body).children, Lowers earlier child) :
    Lowers earlier (.loop start condition step body) := by
  intro scope s r s' hr hp h
  obtain ⟨u, s1, holds, s2, b, s3, cells, s4, w, s5, h1, h2, h3, h4, h5, h6⟩ := lowerLoop_inv h
  obtain ⟨first, new, new', parts⟩ := loop_parts ih hr hp h1 h2 h3 h4 h5
  obtain ⟨m, f⟩ := loop_moves (parts.start.poised hp) parts.condition parts.body parts.keep parts.grows
    parts.step parts.cells h6
  exact ⟨_, parts.start.trans hp m, f, fun hx => absurd hx (Node.not_isExpression rfl)⟩

/-! ### Calls -/

/-- The function that a call goes to is in the module. -/
theorem callee_moves {d : Definition} (hd : Dependable earlier s.context.functions)
    (hp : Poised scope s) (hname : s.context.getFunction? name = some d)
    (h : Callee earlier name d s callee s') :
    Imports s s' ∧ s'.functions.get? name = some callee ∧
      ∃ irName, callee = Definition.signature d irName := by
  have hadds : Imports s s' ∧ s'.functions.get? name = some callee := by
    rcases h with ⟨hf, rfl⟩ | ⟨hf, h⟩
    · exact ⟨.refl _, hf⟩
    · exact hd name d s callee s' rfl hp.tidy hp.slotted hname hf h
  refine ⟨hadds.1, hadds.2, (hadds.1.tidy hp.tidy).linked name d callee ?_ hadds.2⟩
  rwa [hadds.1.context]

theorem callFunction_fits {returns : Kind} {value : Option Typed}
    (hc : callee.returns = irType returns) (h : callFunction callee returns os s = .ok value s') :
    Lowered.Fits s'.used { value } ∧ ∃ code, Appends code s s' := by
  unfold callFunction at h
  split at h
  · obtain ⟨o, s1, h1, h2⟩ := bind_eq_ok.mp h
    obtain ⟨x, -, A, -⟩ := emit_adds h1
    cases h2
    exact ⟨fits_none _, _, A⟩
  · rename_i hk
    obtain ⟨o, s1, h1, h2⟩ := bind_eq_ok.mp h
    obtain ⟨x, rfl, A, hx⟩ := emit_adds h1
    cases h2
    exact ⟨fits_some ⟨hc, hx⟩ hk, _, A⟩

theorem lowers_call {args : List Node}
    (ih : ∀ child ∈ (Node.call name args).children, Lowers earlier child) :
    Lowers earlier (.call name args) := by
  intro scope s r s' hr hp h
  have he : (Node.call name args).isExpression = true := by simpa [Node.isStatement] using hr.statement
  obtain ⟨d, os, s1, callee, s2, hname, -, h1, h2, value, h3, rfl⟩ := lower_call h
  obtain ⟨m1, -⟩ := lowerArguments_moves ih (fun child hc =>
    have hce := Node.isExpression_child he hc
    ⟨hce, hr.child hc (Node.isStatement_of_isExpression hce)⟩) hp h1
  have hfun := m1.declares.functions
  have hd := hr.calls name args (Node.mem_subtrees_self _)
  have p1 := m1.poised hp
  obtain ⟨I2, -, irName, hcallee⟩ := callee_moves (hfun ▸ hd) p1
    (show s1.context.functions.get? name = some d from hfun ▸ hname) h2
  obtain ⟨f3, _, A3⟩ := callFunction_fits (by rw [hcallee]; rfl) h3
  exact ⟨[], (m1.trans hp (I2.moves scope p1.active)).appends hp A3, f3, fun _ => ⟨rfl, rfl⟩⟩

/-! ### All trees -/

theorem printValue_moves {r : Option Typed} (hp : Poised scope s) (hr : ResultFits s.used r)
    (h : printValue r s = .ok ⟨⟩ s') : Moves scope s s' [] := by
  by_cases hk : kindOf r = .intArray
  · obtain ⟨⟨buffer, kind⟩, rfl⟩ := kindOf_eq_some (r := r) (by simp [hk])
    obtain rfl : kind = .intArray := hk
    have hnone : Grows [] s s' ∧ Declares s s' [] := printArray_grows hp.active hp.labelled h
    exact ⟨hnone.2,
      fun held _ _ => (printArray_grows hp.active hp.labelled h).1⟩
  · obtain ⟨s1, code, h1, A, -⟩ := printValue_spec hr hk
    rw [h1] at h
    cases h
    exact moves_appends scope hp.active A

theorem loadName_moves {t : Typed} (hp : Poised scope s) (h : loadName scope x s = .ok t s') :
    Moves scope s s' [] ∧ TypedFits s'.used t ∧ t.kind ≠ .none := by
  cases ho : scope.params.get? x with
  | some o =>
    rw [loadName_param ho] at h
    cases h
    exact ⟨.refl scope hp.active, hp.params x o ho, by simp⟩
  | none =>
    rcases loadName_inv h with ⟨o, hpar⟩ | ⟨sym, hx⟩
    · simp [ho] at hpar
    · obtain ⟨r, s1, code, h1, A, hr, -⟩ := loadName_spec ho hx (hp.slotted.proper.kind x sym hx)
      rw [h1] at h
      cases h
      exact ⟨moves_appends scope hp.active A, ⟨rfl, hr⟩, hp.slotted.proper.kind_ne x sym hx⟩

theorem stepVariable_moves {op : BinaryOp} {t : Typed} (hp : Poised scope s)
    (h : stepVariable scope x op s = .ok t s') :
    Moves scope s s' [] ∧ TypedFits s'.used t ∧ t.kind = .int := by
  obtain ⟨hpar, sym, hx, hint⟩ := stepVariable_inv h
  obtain ⟨r, s1, code, h1, A, hr, -⟩ :=
    stepVariable_spec op hpar hx (hp.slotted.proper.kind x sym hx) hint
  rw [h1] at h
  cases h
  exact ⟨moves_appends scope hp.active A, ⟨rfl, hr⟩, rfl⟩

theorem lowers_binary {op : ArithOp}
    (ih : ∀ child ∈ (Node.binary left op right).children, Lowers earlier child) :
    Lowers earlier (.binary left op right) := by
  intro scope s r s' hr hp h
  obtain ⟨-, l, s1, r', s2, t, h1, h2, h3, rfl⟩ := lower_binary h
  have hl : left ∈ (Node.binary left op right).children := by simp [Node.children]
  have hr' : right ∈ (Node.binary left op right).children := by simp [Node.children]
  obtain ⟨m1, m2, -, f1, f2⟩ :=
    (ih left hl).operands (ih right hr') (hr.operand rfl hl) (hr.operand rfl hr') hp h1 h2
  obtain ⟨k, hk⟩ := arithmetic_inv h3
  obtain ⟨t', s3, code, h3', A, F, hkind, -⟩ := arithmetic_spec f1 f2 hk
  rw [h3'] at h3
  cases h3
  refine ⟨[], (m1.trans hp m2).appends hp A, fits_some F ?_, fun _ => ⟨rfl, rfl⟩⟩
  rw [hkind]
  rintro rfl
  exact arithmetic?_ne_none hk

theorem lowers_comparison {op : CompareOp}
    (ih : ∀ child ∈ (Node.comparison left op right).children, Lowers earlier child) :
    Lowers earlier (.comparison left op right) := by
  intro scope s r s' hr hp h
  obtain ⟨hop, l, s1, r', s2, t, h1, h2, h3, rfl⟩ := lower_comparison h
  have hl : left ∈ (Node.comparison left op right).children := by simp [Node.children]
  have hr' : right ∈ (Node.comparison left op right).children := by simp [Node.children]
  obtain ⟨m1, m2, -, f1, f2⟩ :=
    (ih left hl).operands (ih right hr') (hr.operand rfl hl) (hr.operand rfl hr') hp h1 h2
  obtain ⟨tl, tr, hvl, hvr, hk⟩ := comparison_inv h3
  rw [hvl] at f1 h3
  rw [hvr] at f2 h3
  obtain ⟨o, s3, code, h3', A, F, -⟩ := comparison_spec hop f1 f2 hk
  rw [h3'] at h3
  cases h3
  exact ⟨[], (m1.trans hp m2).appends hp A, fits_some F (by simp), fun _ => ⟨rfl, rfl⟩⟩

/-- Wherever lowering a regular tree succeeds, the function grows. -/
theorem lowers (earlier : Earlier) (node : Node) : Lowers earlier node := by
  refine Node.induction (fun node ih => ?_) node
  cases node with
  | sequence statements =>
    intro scope s r s' hr hp h
    obtain ⟨new, m, f⟩ := lowerAll_moves ih hr.statements hp (fits_none _) h
    exact ⟨new, m, f, fun hx => absurd hx (Node.not_isExpression rfl)⟩
  | number n | float x | boolean b =>
    intro scope s r s' hr hp h
    cases h
    exact ⟨[], .refl scope hp.active, fits_some ⟨rfl, trivial⟩ (by simp), fun _ => ⟨rfl, rfl⟩⟩
  | string t =>
    intro scope s r s' hr hp h
    obtain ⟨o, h1, rfl⟩ := lower_string h
    obtain ⟨o', s1, code, h1', A, F, -⟩ := textConstant_spec s t "str" (by decide)
    rw [h1'] at h1
    cases h1
    exact ⟨[], moves_appends scope hp.active A, fits_some F (by simp), fun _ => ⟨rfl, rfl⟩⟩
  | identifier x =>
    intro scope s r s' hr hp h
    obtain ⟨t, h1, rfl⟩ := lower_identifier h
    obtain ⟨m, F, hk⟩ := loadName_moves hp h1
    exact ⟨[], m, fits_some F hk, fun _ => ⟨rfl, rfl⟩⟩
  | binary left op right => exact lowers_binary ih
  | comparison left op right => exact lowers_comparison ih
  | assign x e =>
    intro scope s r s' hr hp h
    obtain ⟨-, l, s1, t, h1, h2, rfl⟩ := lower_assign h
    obtain ⟨he, hre⟩ := hr.assigned
    obtain ⟨m1, f1, -⟩ := (ih e (by simp [Node.children])).expression he hre hp h1
    obtain ⟨F, hk, new, m2⟩ := assign_moves (m1.poised hp) f1.value h2
    exact ⟨_, m1.trans hp m2, fits_some F hk, fun hx => absurd hx (Node.not_isExpression rfl)⟩
  | increment x =>
    intro scope s r s' hr hp h
    obtain ⟨t, h1, rfl⟩ := lower_increment h
    obtain ⟨m, F, hk⟩ := stepVariable_moves hp h1
    exact ⟨[], m, fits_some F (by simp [hk]), fun _ => ⟨rfl, rfl⟩⟩
  | decrement x =>
    intro scope s r s' hr hp h
    obtain ⟨t, h1, rfl⟩ := lower_decrement h
    obtain ⟨m, F, hk⟩ := stepVariable_moves hp h1
    exact ⟨[], m, fits_some F (by simp [hk]), fun _ => ⟨rfl, rfl⟩⟩
  | branch condition thenPart elsePart => exact lowers_branch ih
  | loop start condition step body => exact lowers_loop ih
  | print e =>
    intro scope s r s' hr hp h
    obtain ⟨l, s1, h1, h2, rfl⟩ := lower_print h
    have he : (Node.print e).isExpression = true := by simpa [Node.isStatement] using hr.statement
    have hee : e.isExpression = true := Node.isExpression_child he (by simp [Node.children])
    obtain ⟨m1, f1, -⟩ := (ih e (by simp [Node.children])).expression hee
      (hr.child (by simp [Node.children]) (Node.isStatement_of_isExpression hee)) hp h1
    have m2 := printValue_moves (m1.poised hp) f1.value h2
    have hused := (m2.grown (m1.poised hp)).evolves.used
    exact ⟨[], m1.trans hp m2, ⟨f1.value.mono hused, f1.kind, by simp⟩, fun _ => ⟨rfl, rfl⟩⟩
  | random low high | define name params body =>
    intro scope s r s' hr
    exact absurd hr.avoids.self (by simp [Node.shape])
  | call name args => exact lowers_call ih
  | array elements =>
    intro scope s r s' hr hp h
    have he : (Node.array elements).isExpression = true := by
      simpa [Node.isStatement] using hr.statement
    obtain ⟨os, s1, t, h1, h2, rfl⟩ := lower_array h
    obtain ⟨m1, f1⟩ := lowerElements_moves ih (fun child hc =>
      have hce := Node.isExpression_child he hc
      ⟨hce, hr.child hc (Node.isStatement_of_isExpression hce)⟩) hp h1
    obtain ⟨o, s2, code, h2', A, F, -⟩ := buildArray_spec f1
    rw [h2'] at h2
    cases h2
    exact ⟨[], m1.appends hp A, fits_some F (by simp), fun _ => ⟨rfl, rfl⟩⟩
  | missing | bare =>
    intro scope s r s' hr hp h
    simp [lower, fail, throw_run] at h

end DualEngine.Lowering
