import DualEngine.Proofs.Branches

/-! # Loops in code

A loop goes round as often as the evaluation does. Its last value is in a stack cell, and a flag
beside it says whether there was a round. Both are cleared before the loop, by code that lowering
adds to the block before it once the body is known to have a value.
-/
namespace DualEngine.Lowering
open IR Machine

variable {image : Image} {f : Function} {whole : State} {gs : List Global} {D : Bindings}
  {F : Table Definition} {M : Table Signature} {fuel : Nat} {node : Node} {earlier : Earlier}
  {scope : Scope} {s s' s1 t j : State} {r : Lowered} {held held' rim : List String}
  {frame : Evaluator.Frame} {st st' : Evaluator.State} {v : Value} {previous before : String}
  {a b : Snap} {code : List Instruction} {new new' : List Slot} {x y : String}
  {loose : String → Prop}

/-! ## The parts of a loop -/

/-- The state in which the body of a loop is lowered. -/
def State.rounded (s s2 : State) (holds : Option Operand) : State :=
  s2.passed (loopExit s.bodyLabel s.afterLabel holds) s.bodyLabel

/-- The state in which the step of a loop is lowered. -/
def State.stepping (s s4 : State) : State := s4.passed (.jump s.stepLabel) s.stepLabel

/-- The parts of lowering a loop after its start. The blocks in `rim` may get code after the loop. -/
structure Ring (earlier : Earlier) (held rim : List String) (scope : Scope) (D : Bindings)
    (condition step body : Node) (whole s : State) (holds : Option Operand) (s2 : State)
    (b : Lowered) (s3 : State) (cells : Option LoopCells) (s4 s5 : State) : Prop where
  poised : Poised scope s
  lowCondition : lowerCondition earlier (scope.branching s.draft.current) condition s.looped =
    .ok holds s2
  lowBody : lower earlier (scope.branching s.draft.current) body (s.rounded s2 holds) = .ok b s3
  keep : keepValue b.value s3 = .ok cells s4
  lowStep : ∃ w, lowerPart earlier (scope.branching s.draft.current) step (s.stepping s4) = .ok w s5
  condition : Path rim (scope.branching s.draft.current) s.looped s2 whole D
  body : Path rim (scope.branching s.draft.current) (s.rounded s2 holds) s3
    whole D
  step : Path rim (scope.branching s.draft.current) (s.stepping s4) s5 whole D
  fits : b.Fits s3.used
  inside2 : Inside held s [s.afterLabel, s.stepLabel, s.bodyLabel] s2
  inside3 : Inside held s [s.afterLabel, s.stepLabel] s3
  inside4 : Inside held s [s.afterLabel, s.stepLabel] s4
  inside5 : Inside held s [s.afterLabel] s5
  settles : Settles rim (s5.ended (.jump s.conditionLabel)) whole
  grows4 : ∀ held, Grows held s3 s4
  functions2 : (s.rounded s2 holds).context.functions = s.context.functions
  functions4 : (s.stepping s4).context.functions = s.context.functions

theorem Settles.mono (h : Settles held s whole) (hs : held ⊆ held') : Settles held' s whole :=
  Evolves.mono h fun _ _ _ hk => hk.imp (fun hm => hs hm) id

theorem Settles.of_ended (ha : Active s) {exit : Terminator} (h : Settles held (s.ended exit) whole) :
    Settles held s whole := by
  refine Settles.of_evolves (evolves_ended ha exit) h ?_
  rintro k b hb rfl
  obtain ⟨now, hnow, hopen⟩ := ha
  obtain rfl := Option.some.inj (hnow.symm.trans hb)
  exact .inr hopen

theorem Path.ring (hp : Path held scope s s' whole D) {condition step body : Node}
    {holds : Option Operand} {s2 s3 s4 s5 : State} {b w : Lowered} {cells : Option LoopCells}
    (h2 : lowerCondition earlier (scope.branching s.draft.current) condition s.looped = .ok holds s2)
    (h3 : lower earlier (scope.branching s.draft.current) body (s.rounded s2 holds) = .ok b s3)
    (h4 : keepValue b.value s3 = .ok cells s4)
    (h5 : lowerPart earlier (scope.branching s.draft.current) step (s.stepping s4) = .ok w s5)
    (m2 : Moves (scope.branching s.draft.current) s.looped s2 [])
    (m3 : Moves (scope.branching s.draft.current) (s.rounded s2 holds) s3 new)
    (d4 : Declares s3 s4 []) (g4 : ∀ held, Grows held s3 s4)
    (m5 : Moves (scope.branching s.draft.current) (s.stepping s4) s5 new')
    (d6 : Declares s5 s' []) (hfits : b.Fits s3.used)
    (hrim : rim ⊆ s.draft.current :: held)
    (hset : Settles rim (s5.ended (.jump s.conditionLabel)) whole) :
    Ring earlier held rim scope D condition step body whole s holds s2 b s3 cells s4 s5 := by
  have pp := hp.poised
  have D1 := declares_looped s
  have D2 : Declares s (s.rounded s2 holds) [] := (D1.trans m2.declares).trans (declares_passed s2 _ _)
  have D3 : Declares s s3 new := D2.trans m3.declares
  have D4 : Declares s (s.stepping s4) new := by
    simpa [State.stepping] using
      (D3.trans d4).trans (declares_passed s4 (.jump s.stepLabel) s.stepLabel)
  have hn : Novel s (new ++ new') := hp.novel (by simpa using (D4.trans m5.declares).trans d6)
  have n2 : Novel s.looped [] := ⟨by simp, by simp⟩
  have n3 : Novel (s.rounded s2 holds) new := hn.left.right D2
  have n5 : Novel (s.stepping s4) new' := hn.right D4
  have i₁ := inside_looped pp.active pp.labelled hp.known
  have i2 := i₁.grows (m2.grows_inside i₁ fun _ _ => .inr n2)
  have i2' := i2.toBody (loopExit s.bodyLabel s.afterLabel holds)
  have i3 := i2'.grows (m3.grows_inside i2' fun _ _ => .inr n3)
  have i4 := i3.grows (g4 _)
  have i5 := i4.toStep.grows (m5.grows_inside i4.toStep fun _ _ => .inr n5)
  have hcurrent : s.draft.current ∈ s.used := by
    obtain ⟨now, hb, -⟩ := pp.active
    exact labelled_of_block? pp.labelled hb
  have haside (t : State) (hu : s.used ⊆ t.used) (hc : t.draft.current ∉ s.used) :
      ∀ k ∈ rim, k ∈ t.used ∧ k ≠ t.draft.current := by
    intro k hk
    rcases List.mem_cons.mp (hrim hk) with rfl | hk
    · exact ⟨hu hcurrent, fun he => hc (he ▸ hcurrent)⟩
    · exact aside_fresh hp.aside hu hc k hk
  have hknown (t : State) (hu : s.used ⊆ t.used) : rim ⊆ t.used := by
    intro k hk
    rcases List.mem_cons.mp (hrim hk) with rfl | hk
    · exact hu hcurrent
    · exact hu (hp.known hk)
  -- back from the end
  have S5 := Settles.of_ended i5.active hset
  have S4' := Settles.of_grows i4.toStep.active
    (m5.grows _ (hknown _ i4.toStep.within.evolves.used) fun _ _ => .inr n5) S5
  have S4 := S4'.of_passed i4.active
  have S3 := Settles.of_grows i3.active (g4 _) S4
  have S2' := Settles.of_grows i2'.active
    (m3.grows _ (hknown _ i2'.within.evolves.used) fun _ _ => .inr n3) S3
  have S2 := S2'.of_passed i2.active
  -- the bindings
  have B5 : ∀ x sym, s5.context.get? x = some sym → D x sym := by
    intro x sym hx
    refine hp.bound x sym ?_
    rcases d6.bound x with hb | ⟨slot, hslot, -⟩
    · rw [hb, hx]
    · simp at hslot
  have B4 : ∀ x sym, s4.context.get? x = some sym → D x sym :=
    fun x sym hx => B5 x sym (n5.keeps m5.declares hx)
  have B3 : ∀ x sym, s3.context.get? x = some sym → D x sym := by
    intro x sym hx
    refine B4 x sym ?_
    rcases d4.bound x with hb | ⟨slot, hslot, -⟩
    · rw [hb, hx]
    · simp at hslot
  have B2 : ∀ x sym, s2.context.get? x = some sym → D x sym :=
    fun x sym hx => B3 x sym (n3.keeps m3.declares hx)
  have hlabel := (opens_loop pp.active pp.labelled).fresh
  refine ⟨pp, h2, h3, h4, ⟨w, h5⟩, ⟨pp.inside i₁ D1, i₁.within.evolves.housed hp.housed, ⟨_, m2, n2⟩, B2, S2,
      haside _ i₁.within.evolves.used (hlabel s.conditionLabel (by simp))⟩,
    ⟨pp.inside i2' D2, i2'.within.evolves.housed hp.housed, ⟨_, m3, n3⟩, B3, S3,
      haside _ i2'.within.evolves.used (hlabel s.bodyLabel (by simp))⟩,
    ⟨pp.inside i4.toStep D4, i4.toStep.within.evolves.housed hp.housed, ⟨_, m5, n5⟩, B5, S5,
      haside _ i4.toStep.within.evolves.used (hlabel s.stepLabel (by simp))⟩,
    hfits, i2, i3, i4, i5, hset, g4, D2.functions, D4.functions⟩

/-- The tree may be lowered, and the functions that it calls answer. -/
structure Ready (image : Image) (gs : List Global) (D : Bindings) (F : Table Definition)
    (M : Table Signature) (fuel : Nat) (earlier : Earlier) (G : Table Definition) (node : Node) :
    Prop where
  regular : Regular earlier G node
  calls : ∀ name args, Node.call name args ∈ node.subtrees → CallsAnswer image gs D F G M fuel

section Rounds
variable {condition step body : Node} {holds : Option Operand} {s2 s3 s4 s5 : State} {l : Lowered}
  {cells : Option LoopCells} {k : Kind} {s6 : State} {first z : String}
  (ring : Ring earlier held rim scope D condition step body whole s holds s2 l s3 cells s4 s5)

include ring in
theorem Ring.not_entry : s3.entry ≠ some s3.draft.current := by
  have i := ring.inside3
  have hentry : s3.entry = s.entry := i.within.evolves.entry
  have hcurrent : s3.draft.current ∉ s.used := by
    have i2 := ring.inside2.toBody (loopExit s.bodyLabel s.afterLabel holds)
    rcases ring.body.grows.current with hc | hc
    · rw [hc]
      exact ring.inside2.fresh s.bodyLabel (by simp)
    · exact fun hm => hc (i2.within.evolves.used hm)
  rw [hentry]
  intro he
  obtain ⟨now, hb⟩ := block?_entry he
  exact hcurrent (labelled_of_block? i.labelled hb)

/-- The value that a loop has kept in its cells so far. -/
inductive Kept (image : Image) (body : Node) (last : Value) (a : Snap) : Option LoopCells → Prop
  | nothing (h : body.plain = true → body.exact = true → last = .none) : Kept image body last a none
  | word {x y : String} {k : Kind} {u : Value} {w : Word} {ran : Bool}
      (value : a.frame.stack.get? x = some w) (stands : Stands image a.memory u w)
      (kind : u.kind = k) (flag : a.frame.stack.get? y = some (.bit ran))
      (tells : body.plain = true → last = if ran then u else .none) :
      Kept image body last a
        (some ⟨.register x (.pointer (irType k)), .register y (.pointer .i1), k⟩)

/-- Names that the stack cells of a loop have. -/
def LoopCells.names (cells : LoopCells) : List String :=
  [cells.value, cells.ran].filterMap fun
    | .register x _ => some x
    | _ => none

theorem Kept.keep {body : Node} {cells : Option LoopCells} (h : Kept image body v a cells)
    (hs : ∀ k, cells = some k → ∀ x ∈ k.names, b.frame.stack.get? x = a.frame.stack.get? x)
    (hm : a.memory.Extends b.memory) : Kept image body v b cells := by
  cases h with
  | nothing h => exact .nothing h
  | word value stands kind flag tells =>
    refine .word ?_ (stands.extend hm) kind ?_ tells
    · rw [hs _ rfl _ (by simp [LoopCells.names])]
      exact value
    · rw [hs _ rfl _ (by simp [LoopCells.names])]
      exact flag

theorem Kept.words {body : Node} {cells : Option LoopCells} (h : Kept image body v a cells)
    (hc : cells = some ⟨.register x (.pointer (irType k)), .register y (.pointer .i1), k⟩) :
    ∃ u w ran, a.frame.stack.get? x = some w ∧ Stands image a.memory u w ∧ u.kind = k ∧
      a.frame.stack.get? y = some (.bit ran) ∧
      (body.plain = true → v = if ran then u else .none) := by
  cases h with
  | nothing => cases hc
  | word value stands kind flag tells =>
    simp only [Option.some.injEq, LoopCells.mk.injEq, Operand.register.injEq] at hc
    obtain ⟨⟨rfl, -⟩, ⟨rfl, -⟩, rfl⟩ := hc
    exact ⟨_, _, _, value, stands, kind, flag, tells⟩

/-- The first block makes a stack cell of this name. -/
def Celled (s : State) (x : String) : Prop :=
  ∃ k now, s.entry = some k ∧ s.block? k = some now ∧
    ∃ i ∈ now.body, i.isAlloca = true ∧ i.name = x

theorem celled_appends (A : Appends code (s.entered first) s1) (hentry : s.entry = some first)
    {i : Instruction} (hi : i ∈ code) (hc : i.isAlloca = true) : Celled s1 i.name := by
  obtain ⟨now, hb⟩ := block?_entry hentry
  refine ⟨first, now.extend code, (entry_appends A).trans hentry, ?_, i,
    List.mem_append_right _ hi, hc, rfl⟩
  refine ((block?_appends A first).trans (if_pos rfl)).trans ?_
  exact congrArg (Option.map (Block.extend code)) hb

theorem Evolves.celled (he : Evolves loose s t) (h : Celled s x) : Celled t x := by
  obtain ⟨k, now, hk, hb, i, hi, hc, rfl⟩ := h
  obtain ⟨done, more, hdone, hgrown, -⟩ := he.blocks _ _ hb
  refine ⟨k, done, he.entry.trans hk, hdone, i, ?_, hc, rfl⟩
  rw [hgrown.body]
  exact List.mem_append_left _ hi

theorem Evolves.of_entered (h : Evolves loose s t) (label : String) :
    Evolves loose (s.entered label) t :=
  ⟨h.used, h.functions, h.globals, fun ⟨h1, h2, h3, h4⟩ => h.tidy ⟨h1, h2, h3, h4⟩, h.entry,
    h.labelled, h.blocks⟩

/-- A cell that the code so far makes has its address. -/
theorem Places.cell (hp : Places whole s a) (he : Evolves loose s whole) (h : Celled s x) :
    a.frame.registers.get? x = some (.address (.stack x)) := by
  obtain ⟨k, now, hk, hb, i, hi, hc, rfl⟩ := h
  obtain ⟨done, more, hdone, hgrown, -⟩ := he.blocks _ _ hb
  refine hp k done i (he.entry.trans hk) hdone ?_ hc fun _ => ⟨now, hb, hi⟩
  rw [hgrown.body]
  exact List.mem_append_left _ hi

theorem stack_cells (a : Snap) (x y : String) (w w' : Word) (z : String) :
    ((a.setStack x w).setStack y w').frame.stack.get? z =
      if y = z then some w' else if x = z then some w else a.frame.stack.get? z := by
  show ((a.frame.stack.insert x w).insert y w').get? z = _
  rw [Table.get?_insert, Table.get?_insert]

theorem keeps_cells {used used' : List String} (a : Snap) (w w' : Word) (hx : x ∉ used ∧ x ∈ used')
    (hy : y ∉ used ∧ y ∈ used') :
    Keeps used used' a ((a.setStack x w).setStack y w') := by
  refine ⟨fun _ _ => rfl, fun z hz => ?_, .refl _⟩
  have hzx : x ≠ z := by
    rintro rfl
    exact hz.elim hx.1 fun hn => hn hx.2
  have hzy : y ≠ z := by
    rintro rfl
    exact hz.elim hy.1 fun hn => hn hy.2
  rw [stack_cells, if_neg hzy, if_neg hzx]

theorem here_late (A : Appends code (s.entered first) s1) (hne : s.draft.current ≠ first)
    (previous : String) (a : Snap) :
    here whole (s1.entered s.draft.current) previous a = here whole s previous a := by
  have hb : (s1.entered s.draft.current).block? s.draft.current = s.block? s.draft.current :=
    (block?_appends A _).trans (if_neg hne)
  have hc : (s1.entered s.draft.current).draft.current = s.draft.current := rfl
  simp only [here, hc, hb]

/-- The value of a round is put into the cells. -/
theorem follows_keep (f : Function) {body : Node} {l : Lowered} {cells : Option LoopCells}
    {u : Value} {ran : Bool} {p : String} (h : keepValue l.value s = .ok cells s') (ha : Active s)
    (hfits : l.Fits s.used) (hne : s.entry ≠ some s.draft.current) (hs : Housed s')
    (hset : Settles held s' whole) (hp : Placed whole a) (hret : Returned image a l u ran)
    (htells : Tells body l u v ran) :
    ∃ b, Follows image f whole s p a s' p b ∧ b.state = a.state ∧ Placed whole b ∧
      Kept image body v b cells := by
  have hv := hret.value
  cases hvalue : l.value with
  | none =>
    rw [hvalue] at h hv
    cases h
    refine ⟨a, .refl p (hp.places s), rfl, hp, .nothing fun hplain hexact => ?_⟩
    have hu : u = .none := hv
    rw [htells.value (Node.telling_of_plain hplain) (.inr hexact), hu]
    split <;> rfl
  | some t =>
    have ht := hfits.value
    rw [hvalue] at h hv ht
    obtain ⟨x, y, first, s1, s2, code, h1, hentry, A1, A2, run⟩ := keepValue_spec ha ht
    rw [h1] at h
    cases h
    obtain ⟨hkind, w, hg, hstands⟩ := hv
    have hcurrent : s.draft.current ≠ first := fun he => hne (he ▸ hentry)
    have ha1 : Active (s1.entered s.draft.current) := active_late ha A1
    have hS1 := Settles.of_appends ha1 A2 hset
    have e1 : Evolves _ s1 whole := (evolves_entered _ s1 s.draft.current).trans hS1 fun _ _ _ h => h
    have hx : a.frame.registers.get? x = some (.address (.stack x)) :=
      (hp.places s1).cell e1
        (celled_appends (i := ⟨x, .alloca (irType t.kind)⟩) A1 hentry (by simp) rfl)
    have hy : a.frame.registers.get? y = some (.address (.stack y)) :=
      (hp.places s1).cell e1 (celled_appends (i := ⟨y, .alloca .i1⟩) A1 hentry (by simp) rfl)
    have hruns := run image a w hg hx hy
    have hnames := A1.distinct
    simp only [List.map_cons, List.map_nil, List.nodup_cons, List.mem_cons, List.not_mem_nil,
      or_false] at hnames
    have hfx := A1.fresh _ (show (⟨x, .alloca (irType t.kind)⟩ : Instruction) ∈ _ by simp)
    have hfy := A1.fresh _ (show (⟨y, .alloca .i1⟩ : Instruction) ∈ _ by simp)
    let b : Snap := (a.setStack x w).setStack y (.bit true)
    have hkeeps : Keeps s.used s'.used a b := keeps_cells a w (.bit true) ⟨hfx.1, A2.used hfx.2⟩ ⟨hfy.1, A2.used hfy.2⟩
    have hplaced : Placed whole b := fun k block i hk hb hi hc => hp k block i hk hb hi hc
    refine ⟨b, ⟨?_, hkeeps, hplaced.places _⟩, rfl, hplaced, ?_⟩
    · rw [← here_late A1 hcurrent]
      exact leads_appends A2 ha1 hset hruns p
    · have hflag : b.frame.stack.get? y = some (.bit true) := by rw [stack_cells, if_pos rfl]
      refine .word (u := u) (w := w) ?_ hstands hkind.symm hflag fun hplain => ?_
      · rw [stack_cells, if_neg (Ne.symm hnames.1), if_pos rfl]
      · rw [htells.value (Node.telling_of_plain hplain) (.inl (by simp [hvalue])), htells.plain hplain]

/-- The cells of a loop are new stack cells. -/
theorem keepValue_cells (ha : Active s) (hfits : l.Fits s.used)
    (h : keepValue l.value s = .ok cells s') :
    cells = none ∨ ∃ x y k, k ≠ .none ∧
      cells = some ⟨.register x (.pointer (irType k)), .register y (.pointer .i1), k⟩ ∧ x ≠ y ∧
      ∀ z ∈ [x, y], z ∉ s.used ∧ z ∈ s'.used ∧ Celled s' z := by
  cases hvalue : l.value with
  | none =>
    rw [hvalue] at h
    cases h
    exact .inl rfl
  | some t =>
    have ht := hfits.value
    rw [hvalue] at h ht
    obtain ⟨x, y, first, s1, s2, code, h1, hentry, A1, A2, -⟩ := keepValue_spec ha ht
    rw [h1] at h
    cases h
    have hnew : ∀ i ∈ [(⟨x, .alloca (irType t.kind)⟩ : Instruction), ⟨y, .alloca .i1⟩],
        i.name ∉ s.used ∧ i.name ∈ s'.used ∧ Celled s' i.name := by
      intro i hi
      have hcell : i.isAlloca = true := by
        rcases List.mem_cons.mp hi with rfl | hi
        · rfl
        · rw [List.mem_singleton.mp hi]
          rfl
      refine ⟨(A1.fresh i hi).1, A2.used (A1.fresh i hi).2, ?_⟩
      have e : Evolves (fun _ => True) s1 s' :=
        (evolves_entered _ s1 s.draft.current).trans (evolves_appends A2 (.inl trivial))
          fun _ _ _ h => h
      exact e.celled (celled_appends A1 hentry hi hcell)
    refine .inr ⟨x, y, t.kind, hfits.kind t hvalue, rfl, ?_, ?_⟩
    · have hd := A1.distinct
      simp only [List.map_cons, List.map_nil, List.nodup_cons, List.mem_singleton] at hd
      exact hd.1
    · simpa using hnew

theorem keepValue_names (ha : Active s) (hfits : l.Fits s.used)
    (h : keepValue l.value s = .ok cells s') {k : LoopCells} (hk : cells = some k)
    (hz : z ∈ k.names) : z ∉ s.used ∧ z ∈ s'.used := by
  rcases keepValue_cells ha hfits h with rfl | ⟨x, y, kind, -, rfl, -, hcells⟩
  · cases hk
  · cases hk
    obtain ⟨h1, h2, -⟩ := hcells z hz
    exact ⟨h1, h2⟩

include ring in
/-- The condition of a loop decides between the body and what follows the loop. -/
theorem Ring.turn
    (hw : World f whole gs D M) (ih : ∀ node, Simulates image f whole gs D F M fuel node)
    (hce : condition.isExpression = true)
    (hr : Ready image gs D F M fuel earlier s.context.functions condition) (hstart : Starts j)
    (hcurrent : j.draft.current = s.afterLabel) (haft : Settles held' j whole) {go : Bool}
    (hev : Evaluator.evalCondition fuel frame condition st = .ok go st')
    (hport : Evaluator.Portably fuel frame condition st)
    (hag : Accords image gs D F scope.params before frame st a) (hp : Placed whole a)
    (previous : String) :
    ∃ b, Leads image f (here whole s.looped previous a)
        (here whole (if go then s.rounded s2 holds else j) s2.draft.current b) ∧
      Keeps s.looped.used s2.used a b ∧ Placed whole b ∧
      Accords image gs D F scope.params before frame st' b := by
  have hactive := ring.inside2.active
  have hstart2 : Starts (s.rounded s2 holds) :=
    (ring.inside2.waits s.bodyLabel (by simp)).starts hactive _
  have hleaves : Leaves s2 (loopExit s.bodyLabel s.afterLabel holds) (s.rounded s2 holds) :=
    leaves_passed hactive _ _
  have hlow := ring.lowCondition
  rcases Evaluator.evalCondition_ok hev with ⟨hm, rfl, rfl⟩ | ⟨hm, hev⟩
  · rw [lowerCondition, if_pos hm] at hlow
    cases hlow
    obtain ⟨b, F1, Q1, P1⟩ := follows_jump (j := s.rounded s.looped none) image hw.blocks hleaves
      ring.body.start ring.condition.not_held ring.condition.housed (hp.places _) hstart2
      ring.body.start previous
    exact ⟨b, F1.leads, Q1.keeps _, P1, hag.quiet Q1 ring.condition.poised.known⟩
  · rw [lowerCondition, if_neg (by simp [hm])] at hlow
    obtain ⟨c, t1, h1, hlow⟩ := bind_eq_ok.mp hlow
    obtain ⟨o, t2, h2, hlow⟩ := bind_eq_ok.mp hlow
    cases hlow
    have hfun := (declares_looped s).functions
    obtain ⟨p, b1, F1, G1, hg, hknown⟩ := simulated_condition (s := s.looped) ih hce
      (hfun ▸ hr.regular) (hfun ▸ hr.calls) h1 h2 ring.condition hev hport hag (hp.places _) previous
    have hused := ring.condition.grows.evolves.used
    obtain ⟨b2, F2, Q2, P2⟩ : ∃ b2, Follows image f whole s2 p b1
        (if go then s.rounded s2 (some o) else j) s2.draft.current b2 ∧ Quiet s2.used b1 b2 ∧
        Placed whole b2 := by
      cases go with
      | true =>
        exact follows_branch (j := s.rounded s2 (some o)) hw.blocks true hleaves ring.body.start
          ring.condition.not_held ring.condition.housed_end F1.places hg hknown hstart2
          ring.body.start rfl p
      | false =>
        exact follows_branch (j := j) hw.blocks false hleaves ring.body.start ring.condition.not_held
          ring.condition.housed_end F1.places hg hknown hstart haft hcurrent p
    exact ⟨b2, F1.leads.trans F2.leads, F1.keeps.trans (Q2.keeps s2.used) hused fun _ h => h, P2,
      G1.quiet Q2 ring.condition.poised_end.known⟩

include ring in
theorem Ring.used :
    s.used ⊆ s.looped.used ∧ s.looped.used ⊆ s2.used ∧ s2.used ⊆ s3.used ∧ s3.used ⊆ s4.used ∧
      s4.used ⊆ s5.used := by
  refine ⟨?_, ring.condition.grows.evolves.used, ?_, (ring.grows4 []).evolves.used, ?_⟩
  · exact (leaves_looped ring.poised.labelled ring.poised.active).used
  · exact fun _ h => ring.body.grows.evolves.used (used_passed s2 _ _ h)
  · exact fun _ h => ring.step.grows.evolves.used (used_passed s4 _ _ h)

include ring in
/-- A round leads from the body back to the condition, with the value of the body in the cells. -/
theorem Ring.round
    (hw : World f whole gs D M) (ih : ∀ node, Simulates image f whole gs D F M fuel node)
    (hrb : Ready image gs D F M fuel earlier s.context.functions body)
    (hrs : Ready image gs D F M fuel earlier s.context.functions step) {st1 : Evaluator.State} {w : Value}
    (hbody : Evaluator.eval fuel frame body st = .ok v st1)
    (hstep : Evaluator.evalPart fuel frame step st1 = .ok w st')
    (portb : Evaluator.Portably fuel frame body st) (ports : Evaluator.Portably fuel frame step st1)
    (hag : Accords image gs D F scope.params before frame st a) (hp : Placed whole a)
    (previous : String) :
    ∃ q b, Leads image f (here whole (s.rounded s2 holds) previous a) (here whole s.looped q b) ∧
      Keeps s2.used s5.used a b ∧ Placed whole b ∧
      Accords image gs D F scope.params before frame st' b ∧ Kept image body v b cells := by
  obtain ⟨u1, u2, u3, u4, u5⟩ := ring.used
  have hactive4 := ring.inside4.active
  have hstart4 : Starts (s.stepping s4) :=
    (ring.inside4.waits s.stepLabel (by simp)).starts hactive4 _
  have hhoused4 := (ring.grows4 []).evolves.housed ring.body.housed_end
  have hset4 := Settles.of_passed hactive4 ring.step.start
  have hl4 : s4.draft.current ∉ rim := fun hk =>
    (aside_grows (aside_grows ring.body.aside ring.body.grows) (ring.grows4 []) _ hk).2 rfl
  -- the body, and its value into the cells
  obtain ⟨p1, b1, x1, ran, F1, G1, R1, T1⟩ := ih body previous ring.lowBody
    (ring.functions2 ▸ hrb.regular) (ring.functions2 ▸ hrb.calls) ring.body hbody portb hag (hp.places _)
  have P1 : Placed whole b1 := by
    refine F1.places.placed ?_
    rw [ring.body.settles.entry]
    exact ring.not_entry
  obtain ⟨b2, F2, hs2, P2, K2⟩ := follows_keep (p := p1) f ring.keep ring.inside3.active ring.fits
    ring.not_entry hhoused4 hset4 P1 R1 T1
  have G2 : Accords image gs D F scope.params before frame st1 b2 :=
    G1.keeps F2.keeps ring.body.poised_end.known (congrArg (·.memory.cells) hs2)
      (congrArg State.out hs2)
  have known4 : ∀ x o, scope.params.get? x = some o → o.Known s4.used :=
    fun x o ho => (ring.body.poised_end.known x o ho).mono u4
  -- on to the step
  obtain ⟨b3, F3, Q3, P3⟩ := follows_jump (j := s.stepping s4) image hw.blocks
    (leaves_passed hactive4 _ _) ring.step.start hl4 hhoused4 F2.places hstart4 ring.step.start p1
  obtain ⟨r, hlow⟩ := ring.lowStep
  obtain ⟨p4, b4, x4, ran4, F4, G4, -, -⟩ := simulated_part ih hlow
    (ring.functions4 ▸ hrs.regular) (ring.functions4 ▸ hrs.calls) ring.step hstep ports (G2.quiet Q3 known4) F3.places s4.draft.current
  -- and back to the condition
  obtain ⟨b5, F5, Q5, P5⟩ := follows_jump (j := s.looped) image hw.blocks
    (leaves_ended ring.inside5.active _) ring.settles ring.step.not_held ring.step.housed_end F4.places
    (starts_looped ring.poised.labelled ring.poised.active) ring.condition.start p4
  have hkeeps : Keeps s3.used s5.used b2 b5 := by
    have k3 : Keeps s3.used s5.used b2 b3 := (Q3.keeps s4.used).mono u4 u5
    have k4 : Keeps s3.used s5.used b3 b4 :=
      F4.keeps.mono (fun _ h => used_passed s4 _ _ (u4 h)) fun _ h => h
    exact (k3.next k4).next ((Q5.keeps s5.used).mono (fun _ h => u5 (u4 h)) fun _ h => h)
  refine ⟨s5.draft.current, b5, ?_, ?_, P5, G4.quiet Q5 ring.step.poised_end.known, ?_⟩
  · exact (((F1.leads.trans F2.leads).trans F3.leads).trans F4.leads).trans F5.leads
  · have k1 : Keeps s2.used s5.used a b1 :=
      F1.keeps.mono (used_passed s2 _ _) fun _ h => u5 (u4 h)
    have k2 : Keeps s2.used s5.used b1 b2 := F2.keeps.mono u3 u5
    exact (k1.next k2).next (hkeeps.mono u3 fun _ h => h)
  · refine K2.keep (fun k hk x hx => ?_) hkeeps.heap
    obtain ⟨-, hused⟩ := keepValue_names ring.inside3.active ring.fits ring.keep hk hx
    rw [Q5.stack, F4.keeps.stack x (.inl (used_passed s4 _ _ hused)), Q3.stack]

include ring in
/-- A loop goes round as often as evaluation does. -/
theorem Ring.rounds
    (hw : World f whole gs D M) (ih : ∀ node, Simulates image f whole gs D F M fuel node)
    (hce : condition.isExpression = true)
    (hready : ∀ part ∈ [condition, step, body],
      Ready image gs D F M fuel earlier s.context.functions part)
    (hstart : Starts j) (hcurrent : j.draft.current = s.afterLabel)
    (haft : Settles held' j whole) {n : Nat} {last : Value}
    (hev : Evaluator.repeatWhile (Evaluator.evalCondition fuel frame condition)
      (Evaluator.evalRound fuel frame step body) n last st = .ok v st')
    (hport : Evaluator.PortablyWhile fuel frame condition step body n st)
    (hag : Accords image gs D F scope.params before frame st a) (hp : Placed whole a)
    (hkept : Kept image body last a cells) (previous : String) :
    ∃ q b, Leads image f (here whole s.looped previous a) (here whole j q b) ∧
      Keeps s.looped.used s5.used a b ∧ Placed whole b ∧
      Accords image gs D F scope.params before frame st' b ∧ Kept image body v b cells := by
  obtain ⟨u1, u2, u3, u4, u5⟩ := ring.used
  induction n generalizing last st a previous with
  | zero => cases hev
  | succ n ihn =>
    obtain ⟨go, st1, e1, hrest⟩ := Evaluator.repeatWhile_ok hev
    obtain ⟨b1, L1, k1, P1, G1⟩ := ring.turn hw ih hce (hready condition (by simp)) hstart hcurrent haft e1 hport.condition
      hag hp previous
    have k1' : Keeps s.looped.used s5.used a b1 := k1.mono (fun _ h => h) fun _ h => u5 (u4 (u3 h))
    rcases hrest with ⟨rfl, w, st2, e2, e3⟩ | ⟨rfl, rfl, rfl⟩
    · obtain ⟨st3, x, eb, es⟩ := Evaluator.evalRound_ok e2
      obtain ⟨portb, ports, portn⟩ := hport.round e1 eb es
      obtain ⟨q2, b2, L2, k2, P2, G2, K2⟩ := ring.round hw ih (hready body (by simp))
        (hready step (by simp)) eb es portb ports G1 P1 s2.draft.current
      obtain ⟨q, b, L3, k3, P3, G3, K3⟩ := ihn e3 portn G2 P2 K2 q2
      exact ⟨q, b, (L1.trans L2).trans L3, (k1'.next (k2.mono u2 fun _ h => h)).next k3, P3, G3, K3⟩
    · refine ⟨s2.draft.current, b1, L1, k1', P1, G1, hkept.keep (fun k hk x hx => ?_) k1.heap⟩
      obtain ⟨hnew, -⟩ := keepValue_names ring.inside3.active ring.fits ring.keep hk hx
      exact k1.stack x (.inr fun h => hnew (u3 h))

/-! ## Into a loop and out of it -/

theorem Grows.spares {k : String} (g : Grows [] s s') (hk : s.draft.current ≠ k) :
    Evolves (· ≠ k) s s' := by
  refine g.evolves.mono ?_
  rintro l now - (rfl | hl)
  · exact hk
  · cases hl

theorem Path.spares {k : String} (h : Path rim scope s s' whole D) (hk : s.draft.current ≠ k) :
    Evolves (· ≠ k) s s' := by
  obtain ⟨new, m, hn⟩ := h.stable
  exact (m.grows [] (by simp) fun _ _ => .inr hn).spares hk

theorem spares_ended {k : String} (ha : Active s) (hk : s.draft.current ≠ k) (exit : Terminator) :
    Evolves (· ≠ k) s (s.ended exit) :=
  (evolves_ended ha exit).mono fun l _ _ hl => by
    rw [hl]
    exact hk

include ring in
/-- A loop leaves the block before it as it is. -/
theorem Ring.spares (hin : s.draft.current ∈ rim) :
    Evolves (· ≠ s.draft.current) s.looped (s5.ended (.jump s.conditionLabel)) := by
  have hne {t : State} (ht : t.draft.current ∉ rim) : t.draft.current ≠ s.draft.current :=
    fun he => ht (he ▸ hin)
  have hc4 : s4.draft.current ∉ rim := fun hk =>
    (aside_grows (aside_grows ring.body.aside ring.body.grows) (ring.grows4 []) _ hk).2 rfl
  have e2 := ring.condition.spares (ring.condition.aside _ hin).2.symm
  have e2' := spares_ended ring.inside2.active (hne ring.condition.not_held)
    (loopExit s.bodyLabel s.afterLabel holds)
  have e3 := ring.body.spares (ring.body.aside _ hin).2.symm
  have e4 := (ring.grows4 []).spares (hne ring.body.not_held)
  have e4' := spares_ended ring.inside4.active (hne hc4) (.jump s.stepLabel)
  have e5 := ring.step.spares (ring.step.aside _ hin).2.symm
  have e5' := spares_ended ring.inside5.active (hne ring.step.not_held) (.jump s.conditionLabel)
  have same {loose : String → Prop} {t : State} :
      ∀ k b, t.block? k = some b → loose k → loose k := fun _ _ _ h => h
  have t2 := (e2.trans e2' same).trans (evolves_entered _ _ s.bodyLabel) same
  have t4 := ((t2.trans e3 same).trans e4 same).trans e4' same
  exact ((t4.trans (evolves_entered _ _ s.stepLabel) same).trans e5 same).trans e5' same

include ring in
theorem Ring.celled (h : Celled s4 z) : Celled (s5.ended (.jump s.conditionLabel)) z := by
  have h4 := (evolves_ended ring.inside4.active (.jump s.stepLabel)).celled h
  have h5 := ring.step.grows.evolves.celled (s := s.stepping s4) h4
  exact (evolves_ended ring.inside5.active (.jump s.conditionLabel)).celled h5

/-- The block before a loop gets code that clears the cells `x` and `y`. -/
structure Clears (x y : String) (k : Kind) (s s3 s4 s5 : State) (code : List Instruction)
    (s6 : State) : Prop where
  kind : k ≠ .none
  distinct : x ≠ y
  fresh : ∀ z ∈ [x, y], z ∉ s3.used ∧ z ∈ s4.used ∧ Celled s4 z
  appends : Appends code ((s5.ended (.jump s.conditionLabel)).entered s.draft.current) s6
  runs : ∀ image a, Serves image a.memory s6.globals →
    x ∈ (s5.ended (.jump s.conditionLabel)).used → y ∈ (s5.ended (.jump s.conditionLabel)).used →
    a.frame.registers.get? x = some (.address (.stack x)) →
    a.frame.registers.get? y = some (.address (.stack y)) →
    ∃ b, Quiet (s5.ended (.jump s.conditionLabel)).used a b ∧
      Runs image code a ((b.setStack x (zeroWord k)).setStack y (.bit false))

include ring in
theorem Ring.housed (clears : Clears x y k s s3 s4 s5 code s6) : Housed s6 := by
  have hended : Housed (s5.ended (.jump s.conditionLabel)) :=
    (evolves_ended ring.inside5.active _).housed ring.step.housed_end
  exact Evolves.housed (s := (s5.ended (.jump s.conditionLabel)).entered s.draft.current)
    (evolves_appends clears.appends (.inl trivial) : Evolves (fun _ => True) _ _) hended

include ring in
/-- Before the first round the cells are cleared, by code that comes after the stack cells. -/
theorem Ring.enter
    (hw : World f whole gs D M) (hin : s.draft.current ∈ rim) (hout : s.draft.current ∉ held)
    (hcells : cells = some ⟨.register x (.pointer (irType k)), .register y (.pointer .i1), k⟩)
    (clears : Clears x y k s s3 s4 s5 code s6) (hset : Settles held s6 whole) (hh : Housed s)
    (hp : Places whole s a) (hag : Accords image gs D F scope.params before frame st a)
    (previous : String) :
    ∃ b, Leads image f (here whole s previous a) (here whole s.looped s.draft.current b) ∧
      Keeps s.used s6.used a b ∧ Placed whole b ∧
      Accords image gs D F scope.params before frame st b ∧ Kept image body .none b cells := by
  obtain ⟨u1, u2, u3, u4, u5⟩ := ring.used
  have known := ring.poised.known
  have hleaves := leaves_looped ring.poised.labelled ring.poised.active
  have e5 := ring.spares hin
  have u6 : s.used ⊆ (s5.ended (.jump s.conditionLabel)).used := fun _ h => e5.used (u1 h)
  have u5' : s5.used ⊆ (s5.ended (.jump s.conditionLabel)).used :=
    (leaves_ended ring.inside5.active (.jump s.conditionLabel)).used
  have A := clears.appends
  have hused (z : String) (hz : z ∈ [x, y]) : z ∈ (s5.ended (.jump s.conditionLabel)).used :=
    u5' (u5 (clears.fresh z hz).2.1)
  have hfresh (z : String) (hz : z ∈ [x, y]) : z ∉ s.used ∧ z ∈ s6.used :=
    ⟨fun h => (clears.fresh z hz).1 (u3 (u2 (u1 h))), A.used (hused z hz)⟩
  -- the stack cells, then the code that clears two of them
  obtain ⟨b1, L1, Q1, P1⟩ := leads_late image f hleaves e5 (by simp) ring.settles hh hp previous
  have haddress (z : String) (hz : z ∈ [x, y]) :
      b1.frame.registers.get? z = some (.address (.stack z)) :=
    P1.cell (ring.settles.of_entered _) (ring.celled (clears.fresh z hz).2.2)
  obtain ⟨b2, Q2, hruns⟩ := clears.runs image b1 (hw.serves hset (hag.serves.extend Q1.heap))
    (hused x (by simp)) (hused y (by simp)) (haddress x (by simp)) (haddress y (by simp))
  obtain ⟨now, hnow, hended⟩ := hleaves.block
  obtain ⟨late, more, hlate, -, hkept⟩ := e5.blocks _ _ hended
  have hexit : late.terminator = some (.jump s.conditionLabel) := (hkept (by simp)).1
  have hblock : s6.block? s6.draft.current = some (late.extend code) := by
    rw [A.current, block?_appends A, if_pos rfl]
    exact congrArg (Option.map (Block.extend code)) hlate
  have hleaves6 : Leaves s6 (.jump s.conditionLabel) s6 := by
    refine ⟨⟨late.extend code, hblock, ?_⟩, fun _ h => h, rfl⟩
    rw [hblock, ← hexit]
    rfl
  have L2 := leads_extended (f := f) A hlate hset hruns previous
  -- and to the condition
  have hhoused : Housed (s5.ended (.jump s.conditionLabel)) :=
    (evolves_ended ring.inside5.active _).housed ring.step.housed_end
  have P2 := P1.appends A hset hhoused hruns
  have hcurrent : s6.draft.current = s.draft.current := A.current
  obtain ⟨b3, F3, Q3, P3⟩ := follows_jump (j := s.looped) image hw.blocks hleaves6 hset (hcurrent ▸ hout)
    (ring.housed clears) P2 (starts_looped ring.poised.labelled ring.poised.active) ring.condition.start previous
  have hkeeps : Keeps s.used s6.used a b3 := by
    have k1 : Keeps s.used s6.used a b2 := (Q1.trans Q2 u6).keeps s6.used
    have k2 := keeps_cells b2 (zeroWord k) (.bit false) (hfresh x (by simp)) (hfresh y (by simp))
    exact (k1.next k2).next ((Q3.keeps s6.used).mono (fun _ h => A.used (u6 h)) fun _ h => h)
  refine ⟨b3, ?_, hkeeps, P3, ?_, ?_⟩
  · rw [← hcurrent]
    exact (L1.trans L2).trans F3.leads
  · refine hag.keeps hkeeps known ?_ ?_
    · exact Q3.cells.trans (Q2.cells.trans Q1.cells)
    · exact Q3.out.trans (Q2.out.trans Q1.out)
  · subst hcells
    have hflag : b3.frame.stack.get? y = some (.bit false) := by
      rw [Q3.stack, stack_cells, if_pos rfl]
    refine .word (u := Value.zero k) (w := zeroWord k) ?_
      ((hag.grounded.extend hkeeps.heap).stands_zero clears.kind) (by cases k <;> rfl) hflag fun _ => rfl
    rw [Q3.stack, stack_cells, if_neg (Ne.symm clears.distinct), if_pos rfl]

/-- A loop after its start, without a value. -/
theorem Ring.simulated_bare
    (ring : Ring earlier held held scope D condition step body whole s holds s2 l s3 none s4 s5)
    (hw : World f whole gs D M) (ih : ∀ node, Simulates image f whole gs D F M fuel node)
    (hce : condition.isExpression = true)
    (hready : ∀ part ∈ [condition, step, body],
      Ready image gs D F M fuel earlier s.context.functions part)
    (hp : Path held scope s (s5.passed (.jump s.conditionLabel) s.afterLabel) whole D)
    (hev : Evaluator.repeatWhile (Evaluator.evalCondition fuel frame condition)
      (Evaluator.evalRound fuel frame step body) fuel .none st = .ok v st')
    (hport : Evaluator.PortablyWhile fuel frame condition step body fuel st)
    (hag : Accords image gs D F scope.params before frame st a) (hpl : Places whole s a)
    (previous : String) (start : Node) :
    Simulated image f whole gs D F scope.params before frame (.loop start condition step body) s
      previous a (s5.passed (.jump s.conditionLabel) s.afterLabel) {} st' v := by
  obtain ⟨u1, u2, u3, u4, u5⟩ := ring.used
  have hout : s.draft.current ∉ held := fun hk => (hp.aside _ hk).2 rfl
  have u6 := used_passed s5 (.jump s.conditionLabel) s.afterLabel
  have pp := hp.poised
  obtain ⟨b1, F1, Q1, P1⟩ := follows_jump (j := s.looped) image hw.blocks
    (leaves_looped pp.labelled pp.active) ring.condition.start hout hp.housed hpl
    (starts_looped pp.labelled pp.active) ring.condition.start previous
  obtain ⟨q, b2, L2, k2, P2, G2, K2⟩ := ring.rounds
    (j := s5.passed (.jump s.conditionLabel) s.afterLabel) hw ih hce hready
    ((ring.inside5.waits s.afterLabel (by simp)).starts ring.inside5.active _) rfl hp.settles hev hport
    (hag.quiet Q1 pp.known) P1 (.nothing fun _ _ => rfl) s.draft.current
  refine ⟨q, b2, .none, true, ⟨F1.leads.trans L2, ?_, P2.places _⟩, G2, returned_value rfl, ?_⟩
  · exact (Q1.keeps _).next (k2.mono u1 u6)
  · refine ⟨fun _ => rfl, fun htell hor => ?_⟩
    cases K2 with
    | nothing h => exact h htell (hor.resolve_left (by simp))

/-- A loop after its start, with a value in its cells. -/
theorem Ring.simulated_cells
    (ring : Ring earlier held (s.draft.current :: held) scope D condition step body whole s holds s2 l
      s3 cells s4 s5) (hw : World f whole gs D M)
    (ih : ∀ node, Simulates image f whole gs D F M fuel node)
    (hce : condition.isExpression = true)
    (hready : ∀ part ∈ [condition, step, body],
      Ready image gs D F M fuel earlier s.context.functions part)
    (hp : Path held scope s s' whole D)
    (hcells : cells = some ⟨.register x (.pointer (irType k)), .register y (.pointer .i1), k⟩)
    (clears : Clears x y k s s3 s4 s5 code s6)
    (A : Appends [⟨z, .load (.register x (.pointer (irType k)))⟩] (s6.entered s.afterLabel) s')
    (hset : Settles held (s6.entered s.afterLabel) whole)
    (hstart : Starts (s6.entered s.afterLabel))
    (hev : Evaluator.repeatWhile (Evaluator.evalCondition fuel frame condition)
      (Evaluator.evalRound fuel frame step body) fuel .none st = .ok v st')
    (hport : Evaluator.PortablyWhile fuel frame condition step body fuel st)
    (hag : Accords image gs D F scope.params before frame st a) (hpl : Places whole s a)
    (previous : String) (start : Node) :
    Simulated image f whole gs D F scope.params before frame (.loop start condition step body) s
      previous a s' ⟨some ⟨.register z (irType k), k⟩, some (.register y (.pointer .i1))⟩ st' v := by
  obtain ⟨u1, u2, u3, u4, u5⟩ := ring.used
  have hout : s.draft.current ∉ held := fun hk => (hp.aside _ hk).2 rfl
  have hset6 : Settles held s6 whole := (evolves_entered _ s6 s.afterLabel).trans hset fun _ _ _ h => h
  have u6 : s5.used ⊆ s6.used := fun _ h =>
    clears.appends.used ((leaves_ended ring.inside5.active (.jump s.conditionLabel)).used h)
  have hactive : Active (s6.entered s.afterLabel) := ⟨_, hstart, rfl⟩
  obtain ⟨b1, L1, k1, P1, G1, K1⟩ := ring.enter hw (by simp) hout hcells clears hset6 hp.housed hpl hag
    previous
  obtain ⟨q, b2, L2, k2, P2, G2, K2⟩ := ring.rounds (j := s6.entered s.afterLabel) hw ih hce hready
    hstart rfl hset hev hport G1 P1 K1 s.draft.current
  have haddress (z : String) (hz : z ∈ [x, y]) :
      b2.frame.registers.get? z = some (.address (.stack z)) := by
    have e : Evolves (fun _ => True) _ s6 := evolves_appends clears.appends (.inl trivial)
    exact (P2.places s6).cell hset6 (e.celled (ring.celled (clears.fresh z hz).2.2))
  obtain ⟨u, w, ran, hword, hstands, hkind, hflag, htells⟩ := K2.words hcells
  -- the value is loaded after the loop
  have hruns : Runs image [⟨z, .load (.register x (.pointer (irType k)))⟩] b2 (b2.set z w) :=
    runs_load_stack (gives_register (haddress x (by simp))) hword
  have hz := A.name_fresh
  have Q3 : Quiet s6.used b2 (b2.set z w) := quiet_set hz b2 w
  have known : ∀ x o, scope.params.get? x = some o → o.Known s6.used :=
    fun x o ho => (hp.poised.known x o ho).mono fun _ h => u6 (u5 (u4 (u3 (u2 (u1 h)))))
  refine ⟨q, b2.set z w, u, ran, ⟨?_, ?_, ?_⟩, G2.quiet Q3 known, ⟨?_, ?_, by simp⟩, ?_, ?_⟩
  · exact (L1.trans L2).trans (leads_appends A hactive hp.settles hruns q)
  · have k1' : Keeps s.used s'.used a b1 := k1.mono (fun _ h => h) A.used
    have k2' : Keeps s.used s'.used b1 b2 := k2.mono u1 fun _ h => A.used (u6 h)
    exact (k1'.next k2').next ((Q3.keeps s'.used).mono
      (fun _ h => u6 (u5 (u4 (u3 (u2 (u1 h)))))) fun _ h => h)
  · have hhoused := ring.housed clears
    exact (P2.places (s6.entered s.afterLabel)).appends A hp.settles hhoused hruns
  · exact ⟨hkind.symm, w, gives_set _ _ _ _, hstands⟩
  · rintro o ⟨⟩
    have hy : y ∈ s6.used := u6 (u5 (clears.fresh y (by simp)).2.1)
    exact ⟨y, gives_register ((Q3.registers y hy).trans (haddress y (by simp))), hflag⟩
  · exact fun hplain => by cases hplain
  · exact fun htell _ => htells htell

end Rounds

theorem Inside.starts_after (h : Inside held s [s.afterLabel] t)
    (A : Appends code ((t.ended (.jump s.conditionLabel)).entered s.draft.current) s1) :
    Starts (s1.entered s.afterLabel) := by
  have hwait := h.waits s.afterLabel (by simp)
  have hlabel : s.afterLabel ≠ s.draft.current := fun he =>
    h.not_held (List.mem_singleton_self _) (List.mem_cons.mpr (.inl he))
  exact ((hwait.ended h.active (.jump s.conditionLabel)).late A hlabel hwait.current).block

theorem simulates_loop (hw : World f whole gs D M)
    (ih : ∀ node, Simulates image f whole gs D F M fuel node) (start condition step body : Node) :
    Simulates image f whole gs D F M (fuel + 1) (.loop start condition step body) := by
  intro previous earlier scope s r s' held frame st v st' a before hl hr hc hp hev hport hag hpl
  have hst := hr.statement
  simp only [Node.isStatement, Bool.and_eq_true] at hst
  obtain ⟨⟨⟨hss, hce⟩, hts⟩, hbs⟩ := hst
  obtain ⟨u, s1, holds, s2, l, s3, cells, s4, w, s5, h1, h2, h3, h4, h5, h6⟩ := lowerLoop_inv hl
  obtain ⟨first, new, new', m1, -, m2, -, m3, f3, d4, g4, hcells, -, m5, -⟩ :=
    loop_parts (fun child _ => lowers earlier child) hr hp.poised h1 h2 h3 h4 h5
  obtain ⟨mR, -⟩ := loop_moves (m1.poised hp.poised) m2 m3 d4 g4 m5 hcells h6
  obtain ⟨x1, st1, e1, e2⟩ := Evaluator.eval_loop_ok hev
  obtain ⟨port1, port2⟩ := hport.loop e1
  have hms : start ∈ (Node.loop start condition step body).children := by simp [Node.children]
  have hready : ∀ part ∈ [condition, step, body],
      Ready image gs D F M fuel earlier s1.context.functions part := by
    have hfun := m1.declares.functions
    have hpart {part : Node} (hm : part ∈ (Node.loop start condition step body).children)
        (hs : part.isStatement = true) :
        Ready image gs D F M fuel earlier s1.context.functions part :=
      ⟨hfun ▸ hr.child hm hs, CallsAnswer.child hfun hc hm⟩
    simp only [List.forall_mem_cons]
    exact ⟨hpart (by simp [Node.children]) (Node.isStatement_of_isExpression hce),
      hpart (by simp [Node.children]) hts, hpart (by simp [Node.children]) hbs, by simp⟩
  -- the start
  obtain ⟨p, b1, u1, ran1, F1, G1, -, -⟩ := simulated_part ih h1 (hr.child hms hss)
    (CallsAnswer.child rfl hc hms) (hp.first m1 mR) e1 port1 hag hpl previous
  have rest := hp.second m1 mR
  suffices hrest : Simulated image f whole gs D F scope.params before frame
      (.loop start condition step body) s1 p b1 s' r st' v by
    obtain ⟨q, b, x, ran, F2, G2, R2, T2⟩ := hrest
    exact ⟨q, b, x, ran, F1.trans F2 (m1.grown hp.poised).evolves.used
      (mR.grown rest.poised).evolves.used, G2, R2, T2⟩
  rcases hcells with rfl | ⟨x, y, k, hk, -, -, hcells⟩
  · cases h6
    have hset : Settles held (s5.ended (.jump s1.conditionLabel)) whole :=
      (evolves_entered _ _ s1.afterLabel).trans rest.settles fun _ _ _ h => h
    have ring := rest.ring h2 h3 h4 h5 m2 m3 d4 g4 m5 (declares_passed s5 _ _) f3
      (List.subset_cons_self _ _) hset
    exact ring.simulated_bare hw ih hce hready rest e2 port2 G1 F1.places p start
  · obtain ⟨z, s6, s7, code, h7, A1, A2, -, run⟩ := finishLoop_spec (x := x) (y := y)
      (s := s5.ended (.jump s1.conditionLabel)) hk
    rw [hcells, h7] at h6
    cases h6
    have hstart := (loop_inside rest.poised m2 m3 d4 g4 m5 rest.poised.outermost_used
      fun l hl => .inl (by simp [hl])).1.starts_after A1
    have haft : Settles held (s6.entered s1.afterLabel) whole :=
      Settles.of_appends ⟨_, hstart, rfl⟩ A2 rest.settles
    have hset : Settles (s1.draft.current :: held) (s5.ended (.jump s1.conditionLabel)) whole := by
      have e : Evolves (· = s1.draft.current) (s5.ended (.jump s1.conditionLabel)) s6 :=
        (evolves_entered _ _ s1.draft.current).trans
          (evolves_appends A1 (.inl rfl) : Evolves (· = s1.draft.current) _ s6) fun _ _ _ h => h
      have hset6 : Settles held s6 whole :=
        (evolves_entered _ s6 s1.afterLabel).trans haft fun _ _ _ h => h
      refine Settles.of_evolves e (hset6.mono (List.subset_cons_self _ _)) ?_
      rintro k b - rfl
      exact .inl List.mem_cons_self
    have d6 : Declares s5 s' [] := ((declares_passed s5 _ _).trans A1.declares).trans
      ((declares_entered s6 s1.afterLabel).trans A2.declares)
    have ring := rest.ring h2 h3 h4 h5 m2 m3 d4 g4 m5 d6 f3 (fun _ h => h) hset
    rcases keepValue_cells ring.inside3.active f3 h4 with hnone | ⟨x', y', k', -, hsome, hxy, hnew⟩
    · rw [hnone] at hcells
      cases hcells
    · rw [hsome] at hcells
      simp only [Option.some.injEq, LoopCells.mk.injEq, Operand.register.injEq] at hcells
      obtain ⟨⟨rfl, -⟩, ⟨rfl, -⟩, rfl⟩ := hcells
      exact ring.simulated_cells hw ih hce hready rest hsome ⟨hk, hxy, hnew, A1, run⟩ A2 haft hstart e2
        port2 G1 F1.places p start

end DualEngine.Lowering
