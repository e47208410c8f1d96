import DualEngine.Proofs.Simulation

/-! # Branches in code

A branch takes one of two ways from the block before it to the block after it. Where both ways have
a value of the same kind, a phi there picks that of the way taken.
-/
namespace DualEngine.Lowering
open IR Machine

variable {image : Image} {f : Function} {whole : State} {gs : List Global} {D : Bindings}
  {F : Table Definition} {M : Table Signature} {fuel : Nat} {node : Node} {earlier : Earlier}
  {scope : Scope} {s s' s1 t j : State} {r : Lowered} {held held' : List String}
  {frame : Evaluator.Frame} {st st' : Evaluator.State} {v : Value} {previous before : String}
  {a b : Snap} {code : List Instruction} {new new' : List Slot} {o : Operand}

/-! ## From the end of one block to the start of another -/

theorem follows_jump (image : Image) (hf : f.blocks = whole.draft.blocks)
    (h : Leaves s (.jump j.draft.current) t) (hset : Settles held t whole)
    (hl : s.draft.current ∉ held) (hh : Housed s) (hp : Places whole s a) (hstart : Starts j)
    (hj : Settles held' j whole) (previous : String) :
    ∃ b, Follows image f whole s previous a j s.draft.current b ∧ Quiet s.used a b ∧
      Placed whole b := by
  obtain ⟨b, hleads, hquiet, hplaced⟩ := leads_exit image f h hset hl hh hp previous
  exact ⟨b, ⟨hleads.trans (leads_jump_here hf hstart hj _ _ _), hquiet.keeps _,
    hplaced.places j⟩, hquiet, hplaced⟩

theorem follows_branch (hf : f.blocks = whole.draft.blocks) (holds : Bool) {yes no : String}
    (h : Leaves s (.branch o yes no) t) (hset : Settles held t whole)
    (hl : s.draft.current ∉ held) (hh : Housed s) (hp : Places whole s a)
    (ho : Gives image a.frame o (.bit holds)) (hk : o.Known s.used) (hstart : Starts j)
    (hj : Settles held' j whole) (hcurrent : j.draft.current = if holds then yes else no)
    (previous : String) :
    ∃ b, Follows image f whole s previous a j s.draft.current b ∧ Quiet s.used a b ∧
      Placed whole b := by
  obtain ⟨b, hleads, hquiet, hplaced⟩ := leads_exit image f h hset hl hh hp previous
  have ho' := ho.keep hk hquiet.registers
  exact ⟨b, ⟨hleads.trans (leads_branch_here hf hstart hj ho' hcurrent _ _), hquiet.keeps _,
    hplaced.places j⟩, hquiet, hplaced⟩

/-! ## Branches -/

/-- Where the ways through a branch meet, the value is that of the way taken. -/
theorem follows_merge (f : Function) {yes no value : Option Typed} {thenEnd elseEnd p : String} {u : Value}
    (h : merge yes no thenEnd elseEnd j = .ok r s') (ha : Active j) (hh : Housed j)
    (hset : Settles held s' whole) (hp : Places whole j a)
    (hway : (p = thenEnd ∧ value = yes) ∨ (p = elseEnd ∧ thenEnd ≠ elseEnd ∧ value = no))
    (hv : CarriesResult image a value u) :
    ∃ b u', Follows image f whole j p a s' p b ∧ Quiet j.used a b ∧ Returned image b r u' true ∧
      (r.value.isSome = true → u' = u) := by
  rcases merge_cases h with ⟨rfl, rfl, -⟩ | ⟨y, n, x, rfl, rfl, hkind, -, A, -, rfl⟩
  · exact ⟨a, .none, .refl p hp, .refl _ _, returned_value rfl, by simp⟩
  · have hentry : ∃ entry w, ([(y.operand, thenEnd), (n.operand, elseEnd)].find? fun i => i.2 == p) =
        some entry ∧ Gives image a.frame entry.1 w ∧ Stands image a.memory u w ∧
        y.kind = u.kind := by
      rcases hway with ⟨rfl, rfl⟩ | ⟨rfl, hne, rfl⟩
      · obtain ⟨hk, w, hg, hs⟩ := hv
        exact ⟨(y.operand, p), w, by simp, hg, hs, hk⟩
      · obtain ⟨hk, w, hg, hs⟩ := hv
        exact ⟨(n.operand, p), w, by simp [hne], hg, hs, hkind.trans hk⟩
    obtain ⟨entry, w, hfind, hg, hs, hk⟩ := hentry
    have hx := A.name_fresh
    have hq : Quiet j.used a (a.set x w) := quiet_set hx a w
    refine ⟨a.set x w, u, ⟨leads_phi_here A ha hset hfind hg, hq.keeps _, ?_⟩, hq, ?_, fun _ => rfl⟩
    · refine hp.appended A hset hh (fun z hz => ?_) ?_
      · rw [Snap.register_set, if_neg]
        rintro rfl
        exact hz (by simp)
      · intro i hi hcell
        rw [List.mem_singleton] at hi
        subst hi
        cases hcell
    · exact returned_value ⟨hk, w, gives_set _ _ _ _, hs⟩

/-- One way through a branch: a part, and on to where the ways meet. -/
theorem simulated_way (hw : World f whole gs D M) {yes no : Option Typed}
    {thenEnd elseEnd : String} {part : Node} {s2 s3 : State} {l : Lowered} {t : State}
    (hpart : Simulated image f whole gs D F scope.params before frame part s2 previous a s3 l st' v)
    (hp3 : Poised scope s3) (hh3 : Housed s3)
    (hleaves : Leaves s3 (.jump j.draft.current) t) (hset : Settles held t whole)
    (hl : s3.draft.current ∉ held) (hstart : Starts j) (haj : Active j) (hhj : Housed j)
    (hj : Settles held j whole) (hfits : l.Fits s3.used)
    (hmerge : merge yes no thenEnd elseEnd j = .ok r s') (hs' : Settles held s' whole)
    (hway : (s3.draft.current = thenEnd ∧ l.value = yes) ∨
      (s3.draft.current = elseEnd ∧ thenEnd ≠ elseEnd ∧ l.value = no))
    (hu : s2.used ⊆ s3.used) (hu' : s3.used ⊆ j.used) :
    ∃ q b u, Follows image f whole s2 previous a s' q b ∧
      Accords image gs D F scope.params before frame st' b ∧ Returned image b r u true ∧
      (part.plain = true → r.value.isSome = true → v = u) := by
  obtain ⟨p, b1, u1, ran, F1, G1, R1, T1⟩ := hpart
  obtain ⟨b2, F2, Q2, P2⟩ := follows_jump image hw.blocks hleaves hset hl hh3 F1.places hstart hj p
  obtain ⟨b3, u2, F3, Q3, R3, hvalue⟩ := follows_merge f hmerge haj hhj hs' F2.places hway
    (R1.value.keep hfits.value Q2)
  have known : ∀ x o, scope.params.get? x = some o → o.Known s3.used := hp3.known
  refine ⟨s3.draft.current, b3, u2, ?_, ?_, R3, fun hplain hsome => ?_⟩
  · obtain ⟨code, A⟩ := (merge_fits hmerge).2
    exact (F1.trans F2 hu hu').trans F3 (fun _ h => hu' (hu h)) A.used
  · exact (G1.quiet Q2 known).quiet Q3 fun x o ho => (known x o ho).mono hu'
  · have hsome' : l.value.isSome = true := by
      rcases merge_cases hmerge with ⟨rfl, -, -⟩ | ⟨y, n, x, rfl, rfl, -⟩
      · simp at hsome
      · rcases hway with ⟨-, h⟩ | ⟨-, -, h⟩ <;> simp [h]
    rw [T1.value (Node.telling_of_plain hplain) (.inl hsome'), T1.plain hplain, if_pos rfl,
      hvalue hsome]

theorem aside_fresh (h : ∀ k ∈ held, k ∈ s.used ∧ k ≠ s.draft.current) (hu : s.used ⊆ t.used)
    (hc : t.draft.current ∉ s.used) : ∀ k ∈ held, k ∈ t.used ∧ k ≠ t.draft.current := by
  intro k hk
  obtain ⟨hused, -⟩ := h k hk
  refine ⟨hu hused, ?_⟩
  rintro rfl
  exact hc hused

/-- The parts of lowering a branch after its condition. -/
structure Fork (held : List String) (scope : Scope) (s : State) (o : Operand) (s3 s4 whole : State)
    (D : Bindings) : Prop where
  yes : Path held (scope.branching s.draft.current) (s.forked o) s3 whole D
  no : Path held (scope.branching s.draft.current)
    (s3.passed (.jump s.joinLabel) s.elseLabel) s4 whole D
  inside : Inside held s [s.joinLabel, s.elseLabel] s3
  inside' : Inside held s [s.joinLabel] s4
  distinct : s3.draft.current ≠ s4.draft.current
  join : Settles held (s4.passed (.jump s.joinLabel) s.joinLabel) whole

theorem Path.fork (hp : Path held scope s s' whole D) {s3 s4 : State}
    (m3 : Moves (scope.branching s.draft.current) (s.forked o) s3 new)
    (m4 : Moves (scope.branching s.draft.current) (s3.passed (.jump s.joinLabel) s.elseLabel) s4
      new') (A : Appends code (s4.passed (.jump s.joinLabel) s.joinLabel) s') :
    Fork held scope s o s3 s4 whole D := by
  have pp := hp.poised
  have dfork := declares_forked s o
  have D3 : Declares s (s3.passed (.jump s.joinLabel) s.elseLabel) new := by
    simpa using (dfork.trans m3.declares).trans
      (declares_passed s3 (.jump s.joinLabel) s.elseLabel)
  have hn : Novel s (new ++ new') := hp.novel (by
    simpa using ((D3.trans m4.declares).trans
      (declares_passed s4 (.jump s.joinLabel) s.joinLabel)).trans A.declares)
  have n3 : Novel (s.forked o) new := hn.left.right dfork
  have n4 := hn.right D3
  have i2 := inside_forked pp.active pp.labelled hp.known o
  have i3 := i2.grows (m3.grows_inside i2 fun _ _ => .inr n3)
  have i4 := i3.turned.grows (m4.grows_inside i3.turned fun _ _ => .inr n4)
  have Sj := Settles.of_appends i4.joined.active A hp.settles
  have S4 := Sj.of_passed i4.active
  have g4 : Grows held (s3.passed (.jump s.joinLabel) s.elseLabel) s4 :=
    m4.grows held (fun k hk => i3.turned.within.evolves.used (hp.known hk)) fun _ _ => .inr n4
  have S3 := (Settles.of_grows i3.turned.active g4 S4).of_passed i3.active
  have hcontext : s'.context = s4.context := A.context
  refine ⟨⟨pp.inside i2 dfork, i2.within.evolves.housed hp.housed, ⟨new, m3, n3⟩, ?_, S3, ?_⟩,
    ⟨pp.inside i3.turned D3, i3.turned.within.evolves.housed hp.housed, ⟨new', m4, n4⟩, ?_, S4, ?_⟩,
    i3, i4, ?_, Sj⟩
  · intro x sym hx
    refine hp.bound x sym ?_
    rw [hcontext]
    exact n4.keeps m4.declares hx
  · exact aside_fresh hp.aside i2.within.evolves.used
      ((opens_branch pp.active pp.labelled).fresh s.thenLabel (by simp))
  · intro x sym hx
    exact hp.bound x sym (by rw [hcontext]; exact hx)
  · exact aside_fresh hp.aside i3.turned.within.evolves.used (i3.fresh s.elseLabel (by simp))
  · -- the second way ends in its own block or in a new one
    have hthen : s3.draft.current ∈ (s3.passed (.jump s.joinLabel) s.elseLabel).used := by
      obtain ⟨b, hb, -⟩ := i3.active
      exact used_passed s3 _ _ (labelled_of_block? i3.labelled_here hb)
    rcases g4.current with hc | hc
    · rw [hc]
      exact ((i3.waits s.elseLabel (by simp)).current).symm
    · exact fun he => hc (he ▸ hthen)

/-- The condition of a branch or a loop. -/
theorem simulated_condition (ih : ∀ node, Simulates image f whole gs D F M fuel node)
    {condition : Node} {c : Lowered} {s1 s2 : State} {holds : Bool}
    (he : condition.isExpression = true) (hr : Regular earlier s.context.functions condition)
    (hc : ∀ name args, Node.call name args ∈ condition.subtrees →
      CallsAnswer image gs D F s.context.functions M fuel)
    (h1 : lower earlier scope condition s = .ok c s1) (h2 : truth c.value s1 = .ok o s2)
    (hp : Path held scope s s2 whole D)
    (hev : Evaluator.eval fuel frame condition st = .ok (.bool holds) st')
    (hport : Evaluator.Portably fuel frame condition st)
    (hag : Accords image gs D F scope.params before frame st a) (hpl : Places whole s a)
    (previous : String) :
    ∃ p b, Follows image f whole s previous a s2 p b ∧
      Accords image gs D F scope.params before frame st' b ∧ Gives image b.frame o (.bit holds) ∧
      o.Known s2.used := by
  obtain ⟨m1, f1, -⟩ := (lowers earlier condition).expression he hr hp.poised h1
  have p1 := m1.poised hp.poised
  obtain ⟨t, hvalue, hk⟩ := truth_inv h2
  have K1 := f1.value
  rw [hvalue] at K1 h2
  obtain ⟨o', s3, code, h3, A, hfits, run⟩ := truth_spec K1 hk
  rw [h3] at h2
  cases h2
  have m2 := moves_appends scope p1.active A
  obtain ⟨p, b1, F1, G1, C₁⟩ := (ih condition).expression he previous h1 hr hc (hp.first m1 m2) hev
    hport hag hpl
  rw [hvalue] at C₁
  obtain ⟨b2, C, hg⟩ := run image b1 holds C₁
  refine ⟨p, b2, ?_, G1.quiet C.quiet p1.known, hg, hfits.known⟩
  exact F1.appends (m1.grown hp.poised).evolves.used A p1.active (hp.second m1 m2).housed hp.settles
    C.runs (C.quiet.keeps _)

/-- A part that may be left out. -/
theorem simulated_part (ih : ∀ node, Simulates image f whole gs D F M fuel node)
    (h : lowerPart earlier scope node s = .ok r s')
    (hr : Regular earlier s.context.functions node)
    (hc : ∀ name args, Node.call name args ∈ node.subtrees →
      CallsAnswer image gs D F s.context.functions M fuel)
    (hp : Path held scope s s' whole D) (hev : Evaluator.evalPart fuel frame node st = .ok v st')
    (hport : Evaluator.Portably fuel frame node st)
    (hag : Accords image gs D F scope.params before frame st a) (hpl : Places whole s a)
    (previous : String) :
    Simulated image f whole gs D F scope.params before frame node s previous a s' r st' v := by
  rcases Evaluator.evalPart_ok hev with ⟨hm, rfl, rfl⟩ | ⟨hm, hev⟩
  · rw [lowerPart, if_pos hm] at h
    cases h
    exact ⟨previous, a, .none, true, .refl previous hpl, hag, returned_value rfl, tells_same _ _ _⟩
  · rw [lowerPart, if_neg (by simp [hm])] at h
    exact ih node previous h hr hc hp hev hport hag hpl

theorem simulates_branch (hw : World f whole gs D M)
    (ih : ∀ node, Simulates image f whole gs D F M fuel node) (condition thenPart elsePart : Node) :
    Simulates image f whole gs D F M (fuel + 1) (.branch condition thenPart elsePart) := by
  intro previous earlier scope s r s' held frame st v st' a before hl hr hc hp hev hport hag hpl
  have hmc : condition ∈ (Node.branch condition thenPart elsePart).children := by
    simp [Node.children]
  have hmt : thenPart ∈ (Node.branch condition thenPart elsePart).children := by
    simp [Node.children]
  have hme : elsePart ∈ (Node.branch condition thenPart elsePart).children := by
    simp [Node.children]
  have hst := hr.statement
  simp only [Node.isStatement, Bool.and_eq_true] at hst
  obtain ⟨⟨hce, hts⟩, hes⟩ := hst
  have hcr := hr.child hmc (Node.isStatement_of_isExpression hce)
  obtain ⟨c, s1, o, s2, t, s3, e, s4, h1, h2, h3, h4, h5⟩ := lowerBranch_inv hl
  obtain ⟨holds, st1, e1, e2⟩ := Evaluator.eval_branch_ok hev
  obtain ⟨port1, port2⟩ := hport.branch e1
  -- what lowering did
  obtain ⟨new, new', m2, -, m3, -, m4, f3, f4, hfun, hfun'⟩ :=
    branch_parts (fun child _ => lowers earlier child) hr hp.poised h1 h2 h3 h4
  have p2 := m2.poised hp.poised
  have hrt := hfun ▸ hr.child hmt hts
  have hre := hfun' ▸ hr.child hme hes
  obtain ⟨-, _, A5⟩ := merge_fits h5
  have mR := (branch_moves p2 m3 m4).appends p2 A5
  have rest := hp.second m2 mR
  have fork := rest.fork m3 m4 A5
  have hl2 : s2.draft.current ∉ held := fun hk => (rest.aside _ hk).2 rfl
  have u1 := (m2.grown hp.poised).evolves.used
  have ufork := (inside_forked p2.active p2.labelled rest.known o).within.evolves.used
  have hstart := (fork.inside'.waits s2.joinLabel (by simp)).starts fork.inside'.active
    (.jump s2.joinLabel)
  have hjoined := fork.inside'.joined
  have hhj := hjoined.within.evolves.housed rest.housed
  have u3 := fork.yes.grows.evolves.used
  have u4 := fork.no.grows.evolves.used
  have u5 := used_passed s4 (.jump s2.joinLabel) s2.joinLabel
  have u3' := used_passed s3 (.jump s2.joinLabel) s2.elseLabel
  -- the condition, and the way that it takes
  obtain ⟨p, b1, F1, G1, hg, hknown⟩ := simulated_condition ih hce hcr
    (CallsAnswer.child rfl hc hmc) h1 h2 (hp.first m2 mR) e1 port1 hag hpl previous
  have hleaves := leaves_forked p2.labelled p2.active o
  suffices hway : ∃ q b u, Follows image f whole s2 p b1 s' q b ∧
      Accords image gs D F scope.params before frame st' b ∧ Returned image b r u true ∧
      (thenPart.plain = true → elsePart.plain = true → r.value.isSome = true → v = u) by
    obtain ⟨q, b, u, F2, G2, R2, hvalue⟩ := hway
    refine ⟨q, b, u, true, F1.trans F2 u1 (mR.grown p2).evolves.used, G2, R2, fun _ => rfl, ?_⟩
    intro htell hor
    simp only [Node.telling, Bool.and_eq_true] at htell
    rw [if_pos rfl]
    exact hvalue htell.1 htell.2 (hor.resolve_right (by simp [Node.exact]))
  cases holds with
  | true =>
    obtain ⟨b2, F2, Q2, -⟩ := follows_branch (j := s2.forked o) hw.blocks true hleaves
      fork.yes.start hl2 rest.housed F1.places hg hknown (starts_forked p2.labelled p2.active o) fork.yes.start rfl p
    have part := ih thenPart s2.draft.current h3 hrt (CallsAnswer.child hfun hc hmt) fork.yes e2 port2
      (G1.quiet Q2 p2.known) F2.places
    obtain ⟨q, b, u, F3, G3, R3, hvalue⟩ := simulated_way
      (j := s4.passed (.jump s2.joinLabel) s2.joinLabel) hw part fork.yes.poised_end
      fork.yes.housed_end (leaves_passed fork.inside.active _ _) fork.no.start fork.yes.not_held
      hstart hjoined.active hhj fork.join f3 h5 hp.settles (.inl ⟨rfl, rfl⟩) u3
      (fun _ h => u5 (u4 (u3' h)))
    exact ⟨q, b, u, F2.trans F3 ufork (fun _ h => A5.used (u5 (u4 (u3' (u3 h))))), G3, R3,
      fun hy _ => hvalue hy⟩
  | false =>
    have hstart' := (fork.inside.waits s2.elseLabel (by simp)).starts fork.inside.active
      (.jump s2.joinLabel)
    obtain ⟨b2, F2, Q2, -⟩ := follows_branch
      (j := s3.passed (.jump s2.joinLabel) s2.elseLabel) hw.blocks false hleaves fork.yes.start hl2
      rest.housed F1.places hg hknown hstart' fork.no.start rfl p
    have part := simulated_part ih h4 hre (CallsAnswer.child hfun' hc hme) fork.no e2 port2
      (G1.quiet Q2 p2.known) F2.places s2.draft.current
    obtain ⟨q, b, u, F3, G3, R3, hvalue⟩ := simulated_way
      (j := s4.passed (.jump s2.joinLabel) s2.joinLabel) hw part fork.no.poised_end
      fork.no.housed_end (leaves_passed fork.inside'.active _ _) fork.join fork.no.not_held
      hstart hjoined.active hhj fork.join f4 h5 hp.settles (.inr ⟨rfl, fork.distinct, rfl⟩) u4 u5
    exact ⟨q, b, u, F2.trans F3 (fun _ h => u3' (u3 (ufork h))) (fun _ h => A5.used (u5 (u4 h))),
      G3, R3, fun _ hn => hvalue hn⟩

end DualEngine.Lowering
