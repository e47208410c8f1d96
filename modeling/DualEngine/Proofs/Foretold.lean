import DualEngine.Proofs.Growth
import DualEngine.Proofs.KindAgreement

/-! # Kinds inside functions

Within a function the parameters are floats and all other names have the kinds of their symbols.
A prediction that starts from these kinds foretells the kind of every tree that is lowered there.
-/
namespace DualEngine.Lowering
open IR Prediction Machine

variable {c : Context Slot} {p : Prediction.State} {earlier : Earlier} {scope : Scope}
  {s s' s1 : State} {k : Context Slot} {node : Node} {r : Lowered} {kind : Kind}

/-- The prediction knows the kinds that lowering in this scope does. -/
structure Knows (c : Context Slot) (p : Prediction.State) (scope : Scope) (k : Context Slot) :
    Prop where
  name : ∀ x, name? c p x =
    if (scope.params.get? x).isSome then some .float else (k.get? x).map Symbol.kind
  function : ∀ f, function? c p f = (k.functions.get? f).map Definition.returns

theorem Knows.declares (h : Knows c p scope s.context) (hd : Declares s s' []) :
    Knows c p scope s'.context := by
  refine ⟨fun x => ?_, fun f => ?_⟩
  · rcases hd.bound x with hb | ⟨slot, hs, -⟩
    · rw [hb]
      exact h.name x
    · simp at hs
  · rw [hd.functions]
    exact h.function f

theorem Knows.branching (h : Knows c p scope k) (label : String) :
    Knows c p (scope.branching label) k := ⟨h.name, h.function⟩

/-- The former value of a slot is taken without binding anything. -/
theorem seedSlot_context (hp : Poised scope s) {x : String} (hk : kind ≠ .none)
    (hother : ∀ sym, s.context.get? x = some sym → sym.kind ≠ kind)
    (h : seedSlot scope ⟨x, s.nextSlot, kind⟩ (s.context.get? x)
      (s.withSlot ⟨x, s.nextSlot, kind⟩) = .ok ⟨⟩ s') : s'.context = s.context := by
  cases hl : scope.outermost with
  | none =>
    simp only [seedSlot, hl] at h
    cases h
    rfl
  | some label =>
    cases hx : s.context.get? x with
    | none =>
      simp only [seedSlot, hl, hx] at h
      cases h
      rfl
    | some sym =>
      obtain ⟨s1, code, h1, A, -⟩ := seedSlot_spec (s := s.withSlot ⟨x, s.nextSlot, kind⟩)
        hl (hp.slotted.proper.kind x sym hx) (show (⟨x, s.nextSlot, kind⟩ : Slot).kind ≠ .none from hk)
        (Ne.symm (hother sym hx))
      rw [hx, h1] at h
      cases h
      exact A.context

theorem name?_declare (c : Context Slot) (p : Prediction.State) (x y : String) (hk : kind ≠ .none) :
    name? c (Prediction.declare p x kind) y = if x = y then some kind else name? c p y := by
  rw [Prediction.declare, if_neg hk, name?, Table.get?_insert]
  split
  · rfl
  · rfl

theorem Knows.assign (h : Knows c p scope s.context) (hp : Poised scope s) {x : String}
    {value : Option Typed} {t : Typed} (hfree : scope.params.get? x = none)
    (hfits : ResultFits s.used value) (ha : assign scope x value s = .ok t s') :
    kindOf value = t.kind ∧ Knows c (Prediction.declare p x (kindOf value)) scope s'.context := by
  obtain ⟨slot, s1, rfl, hk, h1, h2⟩ := assign_inv ha
  obtain ⟨hslot, new, m1⟩ := slotFor_moves hp hk h1
  obtain ⟨s2, code, h3, A, -⟩ :=
    storeSlot_spec (Fits.mono hfits (m1.grown hp).evolves.used) hslot
  rw [h3] at h2
  cases h2
  refine ⟨rfl, fun y => ?_, fun f => ?_⟩
  · have hcontext : (s'.context.get? y).map Symbol.kind =
        if x = y then some t.kind else (s.context.get? y).map Symbol.kind := by
      rw [A.context]
      rcases slotFor_cases h1 with ⟨hx, rfl⟩ | ⟨hother, rfl, s3, h4, rfl⟩
      · split
        · rename_i heq
          rw [← heq, hx]
          rfl
        · rfl
      · have hc := seedSlot_context hp hk hother h4
        simp only [State.binding, Context.get?, Context.add, Table.get?_insert, hc]
        split <;> rfl
    rw [hcontext, show kindOf (some t) = t.kind from rfl, name?_declare c p x y hk, h.name y]
    by_cases hxy : x = y
    · subst hxy
      simp [hfree]
    · simp only [if_neg hxy]
  · rw [A.context, m1.declares.functions, show kindOf (some t) = t.kind from rfl, ← h.function f,
      Prediction.declare, if_neg hk]
    rfl

/-! ## All trees -/

/-- Lowering a tree gives the predicted kind, and goes on knowing what the prediction knows. -/
def Foretells (earlier : Earlier) (node : Node) : Prop :=
  ∀ (c : Context Slot) (p : Prediction.State) (scope : Scope) (s s' : State) (r : Lowered),
    Regular earlier s.context.functions node → Poised scope s → Knows c p scope s.context →
    lower earlier scope node s = .ok r s' →
    kindOf r.value = (predict c node p).1 ∧ Knows c (predict c node p).2 scope s'.context

/-- An expression binds nothing, so only its kind has to be told. -/
theorem foretells_expression (he : node.isExpression = true)
    (h : ∀ (c : Context Slot) (p : Prediction.State) (scope : Scope) (s s' : State) (r : Lowered),
      Regular earlier s.context.functions node → Poised scope s → Knows c p scope s.context →
      lower earlier scope node s = .ok r s' → kindOf r.value = (predict c node p).1) :
    Foretells earlier node := by
  intro c p scope s s' r hr hp hk hl
  obtain ⟨m, -, -⟩ := (lowers earlier node).expression he hr hp hl
  refine ⟨h c p scope s s' r hr hp hk hl, ?_⟩
  rw [predict_expression he]
  exact hk.declares m.declares

theorem foretells_binary {left right : Node} {op : ArithOp}
    (he : (Node.binary left op right).isExpression = true) (hl : Foretells earlier left)
    (hr : Foretells earlier right) : Foretells earlier (.binary left op right) := by
  refine foretells_expression he fun c p scope s s' r hreg hp hk h => ?_
  obtain ⟨-, l, s1, r', s2, t, h1, h2, h3, rfl⟩ := lower_binary h
  have hle : left.isExpression = true := Node.isExpression_child he (by simp [Node.children])
  have hleft := hreg.child (by simp [Node.children]) (Node.isStatement_of_isExpression hle)
  have hre : right.isExpression = true := Node.isExpression_child he (by simp [Node.children])
  have hright := hreg.child (by simp [Node.children]) (Node.isStatement_of_isExpression hre)
  obtain ⟨m1, -, -⟩ := (lowers earlier left).expression hle hleft hp h1
  obtain ⟨k1, hk1⟩ := hl c p scope s s1 l hleft hp hk h1
  rw [predict_expression hle] at hk1
  obtain ⟨k2, -⟩ := hr c p scope s1 s2 r' (m1.declares.functions ▸ hright) (m1.poised hp) hk1 h2
  have hkind := arithmetic_kind _ _ _ _ _ _ h3
  rw [k1, k2] at hkind
  simp only [predict, predict_expression hle, hkind, kindOf, Option.getD_some]

theorem Foretells.part (hf : Foretells earlier node)
    (hr : Regular earlier s.context.functions node) (hp : Poised scope s)
    (hk : Knows c p scope s.context) (h : lowerPart earlier scope node s = .ok r s') :
    kindOf r.value = (predict c node p).1 ∧ Knows c (predict c node p).2 scope s'.context := by
  unfold lowerPart at h
  split at h
  · rename_i hm
    obtain rfl := Node.eq_missing hm
    cases h
    exact ⟨rfl, hk⟩
  · exact hf _ _ _ _ _ _ hr hp hk h

theorem foretells_all {nodes : List Node} (hf : ∀ node ∈ nodes, Foretells earlier node)
    (hr : ∀ node ∈ nodes, Regular earlier s.context.functions node) (hp : Poised scope s)
    {last : Lowered} (hl : kindOf last.value = kind) (hk : Knows c p scope s.context)
    (h : lowerAll earlier scope nodes last s = .ok r s') :
    kindOf r.value = (predictAll c nodes kind p).1 ∧
      Knows c (predictAll c nodes kind p).2 scope s'.context := by
  induction nodes generalizing p s last kind with
  | nil =>
    cases h
    exact ⟨hl, hk⟩
  | cons node rest ih =>
    obtain ⟨l, s1, h1, h2⟩ := lowerAll_cons h
    have hreg := hr node List.mem_cons_self
    obtain ⟨k1, hk1⟩ := hf node List.mem_cons_self _ _ _ _ _ _ hreg hp hk h1
    obtain ⟨new, m1, -, -⟩ := lowers earlier node _ _ l s1 hreg hp h1
    exact ih (fun n hm => hf n (List.mem_cons_of_mem _ hm))
      (fun n hm => m1.declares.functions ▸ hr n (List.mem_cons_of_mem _ hm)) (m1.poised hp) k1 hk1 h2

theorem foretells_branch {condition thenPart elsePart : Node} (hc : Foretells earlier condition)
    (ht : Foretells earlier thenPart) (he : Foretells earlier elsePart) :
    Foretells earlier (.branch condition thenPart elsePart) := by
  intro c p scope s s' r hr hp hk h
  have hst := hr.statement
  simp only [Node.isStatement, Bool.and_eq_true] at hst
  obtain ⟨⟨hcs, hts⟩, hes⟩ := hst
  obtain ⟨v, s1, holds, s2, t, s3, e, s4, h1, h2, h3, h4, h5⟩ := lowerBranch_inv h
  obtain ⟨new, new', parts⟩ := branch_parts (fun child _ => lowers earlier child) hr hp h1 h2 h3 h4
  have hcr := hr.child (by simp [Node.children]) (Node.isStatement_of_isExpression hcs)
  obtain ⟨-, f1, -⟩ := (lowers earlier condition).expression hcs hcr hp h1
  obtain ⟨-, _, A2⟩ := truth_fits f1.value h2
  obtain ⟨-, hk1⟩ := hc _ _ _ _ _ _ hcr hp hk h1
  have hk2 : Knows c (predict c condition p).2 (scope.branching s2.draft.current)
      (s2.forked holds).context :=
    ((hk1.declares A2.declares).declares (declares_forked s2 holds)).branching _
  obtain ⟨kt, hk3⟩ := ht _ _ _ _ _ _ (parts.functions ▸ hr.child (by simp [Node.children]) hts)
    parts.start hk2 h3
  obtain ⟨ke, hk4⟩ := he.part (parts.functions' ▸ hr.child (by simp [Node.children]) hes) parts.turn
    (hk3.declares (declares_passed s3 _ _)) h4
  obtain ⟨-, _, A⟩ := merge_fits h5
  simp only [predict]
  refine ⟨?_, ?_⟩
  · rw [merge_kind h5, ← kt, ← ke]
    refine joined_kind _ fun hm => ?_
    obtain rfl := Node.eq_missing hm
    exact ke
  · have hk5 := (hk4.declares (declares_passed s4 (.jump s2.joinLabel) s2.joinLabel)).declares A.declares
    exact ⟨hk5.name, hk5.function⟩

theorem foretells_loop {start condition step body : Node} (hs : Foretells earlier start)
    (hc : Foretells earlier condition) (ht : Foretells earlier step)
    (hb : Foretells earlier body) : Foretells earlier (.loop start condition step body) := by
  intro c p scope s s' r hr hp hk h
  have hst := hr.statement
  simp only [Node.isStatement, Bool.and_eq_true] at hst
  obtain ⟨⟨⟨hss, hcs⟩, hts⟩, hbs⟩ := hst
  obtain ⟨u, s1, holds, s2, b, s3, cells, s4, w, s5, h1, h2, h3, h4, h5, h6⟩ := lowerLoop_inv h
  obtain ⟨first, new, new', parts⟩ :=
    loop_parts (fun child _ => lowers earlier child) hr hp h1 h2 h3 h4 h5
  obtain ⟨-, hk1⟩ := hs.part (hr.child (by simp [Node.children]) hss) hp hk h1
  have hk1' := (hk1.declares (declares_looped s1)).branching s1.draft.current
  have hk2 : Knows c (predict c condition (predict c start p).2).2
      (scope.branching s1.draft.current) s2.context := by
    have hcr := parts.functions ▸
      hr.child (by simp [Node.children]) (Node.isStatement_of_isExpression hcs)
    split at h2
    · rename_i hm
      obtain rfl := Node.eq_missing hm
      cases h2
      simp only [predict]
      exact hk1'
    · obtain ⟨v, t, hlow, h2⟩ := bind_eq_ok.mp h2
      obtain ⟨o, t', htruth, h2⟩ := bind_eq_ok.mp h2
      cases h2
      obtain ⟨-, f, -⟩ := (lowers earlier condition).expression hcs hcr parts.turn hlow
      obtain ⟨-, _, A⟩ := truth_fits f.value htruth
      obtain ⟨-, hk'⟩ := hc _ _ _ _ _ _ hcr parts.turn hk1' hlow
      exact hk'.declares A.declares
  obtain ⟨kb, hk3⟩ := hb _ _ _ _ _ _ (parts.functions' ▸ hr.child (by simp [Node.children]) hbs)
    parts.round (hk2.declares (declares_passed s2 _ _)) h3
  obtain ⟨-, hk5⟩ := ht.part (parts.functions'' ▸ hr.child (by simp [Node.children]) hts) parts.next
    ((hk3.declares parts.keep).declares (declares_passed s4 _ _)) h5
  obtain ⟨i5, -⟩ := loop_inside (parts.start.poised hp) parts.condition parts.body parts.keep parts.grows
    parts.step (parts.start.poised hp).outermost_used fun l hl => .inl (by simp [hl])
  obtain ⟨-, d6, -⟩ := i5.finished parts.cells h6
  have hk6 := hk5.declares d6
  simp only [predict]
  exact ⟨(finishLoop_kind h4 h6).trans kb, hk6.name, hk6.function⟩

theorem foretells_identifier (x : String) : Foretells earlier (.identifier x) := by
  refine foretells_expression rfl fun c p scope s s' r hr hp hk h => ?_
  obtain ⟨t, h1, rfl⟩ := lower_identifier h
  have hname := hk.name x
  simp only [predict, nameKind_eq]
  cases ho : scope.params.get? x with
  | some o =>
    rw [loadName_param ho] at h1
    cases h1
    simp only [ho, Option.isSome_some, if_true] at hname
    rw [hname]
    rfl
  | none =>
    simp only [ho, Option.isSome_none, Bool.false_eq_true, if_false, loadName_kind ho h1] at hname
    rw [hname]
    rfl

theorem foretells_call {name : String} {args : List Node}
    (he : (Node.call name args).isExpression = true) : Foretells earlier (.call name args) := by
  refine foretells_expression he fun c p scope s s' r hr hp hk h => ?_
  obtain ⟨d, os, s1, callee, s2, hd, -, -, -, value, h3, rfl⟩ := lower_call h
  have hargs := predictAll_expressions (c := c)
    (fun n hm => predict_expression (Node.isExpression_child he hm)) .none p
  simp only [Node.children] at hargs
  have hfunction := hk.function name
  rw [show s.context.functions.get? name = some d from hd] at hfunction
  simp only [predict, hargs, functionKind_eq, hfunction, Option.map_some, Option.getD_some]
  exact callFunction_kind _ _ _ _ _ _ h3

/-- A prediction that knows the kinds foretells those of all trees. -/
theorem foretells (earlier : Earlier) (node : Node) : Foretells earlier node := by
  induction node using Node.induction with
  | h node ih =>
  intro c p scope s s' r hr hp hk h
  have hexpr (hform : node.isStatementForm = false) : node.isExpression = true :=
    Node.isExpression_of_isStatement hr.statement hform
  suffices hf : Foretells earlier node from hf c p scope s s' r hr hp hk h
  cases node with
  | sequence statements =>
    intro c p scope s s' r hr hp hk h
    simp only [predict]
    exact foretells_all ih hr.statements hp rfl hk h
  | assign x e =>
    intro c p scope s s' r hr hp hk h
    obtain ⟨hes, her⟩ := hr.assigned
    obtain ⟨hfree, l, s1, t, h1, h2, rfl⟩ := lower_assign h
    obtain ⟨m1, f1, -⟩ := (lowers earlier e).expression hes her hp h1
    obtain ⟨k1, hk1⟩ := ih e (by simp [Node.children]) _ _ _ _ _ _ her hp hk h1
    have hparam : scope.params.get? x = none := by simpa [Table.contains] using hfree
    obtain ⟨kt, hk2⟩ := hk1.assign (m1.poised hp) hparam f1.value h2
    simp only [predict]
    rw [← k1]
    exact ⟨kt.symm, hk2⟩
  | branch condition thenPart elsePart =>
    exact foretells_branch (ih condition (by simp [Node.children]))
      (ih thenPart (by simp [Node.children])) (ih elsePart (by simp [Node.children]))
  | loop start condition step body =>
    exact foretells_loop (ih start (by simp [Node.children])) (ih condition (by simp [Node.children]))
      (ih step (by simp [Node.children])) (ih body (by simp [Node.children]))
  | define name params body | random low high => exact absurd hr.avoids.self (by simp [Node.shape])
  | number | float | boolean =>
    refine foretells_expression rfl fun c p scope s s' r hr hp hk h => ?_
    cases h
    rfl
  | string t =>
    refine foretells_expression rfl fun c p scope s s' r hr hp hk h => ?_
    obtain ⟨o, -, rfl⟩ := lower_string h
    rfl
  | identifier x => exact foretells_identifier x
  | binary left op right =>
    exact foretells_binary (hexpr rfl) (ih left (by simp [Node.children]))
      (ih right (by simp [Node.children]))
  | comparison left op right =>
    refine foretells_expression (hexpr rfl) fun c p scope s s' r hr hp hk h => ?_
    obtain ⟨-, l, s1, r', s2, t, -, -, h3, rfl⟩ := lower_comparison h
    exact comparison_kind _ _ _ _ _ _ h3
  | increment x =>
    refine foretells_expression (hexpr rfl) fun c p scope s s' r hr hp hk h => ?_
    obtain ⟨t, h1, rfl⟩ := lower_increment h
    exact stepVariable_kind h1
  | decrement x =>
    refine foretells_expression (hexpr rfl) fun c p scope s s' r hr hp hk h => ?_
    obtain ⟨t, h1, rfl⟩ := lower_decrement h
    exact stepVariable_kind h1
  | print e =>
    refine foretells_expression (hexpr rfl) fun c p scope s s' r hr hp hk h => ?_
    obtain ⟨l, s1, h1, -, rfl⟩ := lower_print h
    have hes := Node.isExpression_child (hexpr rfl) (by simp [Node.children] : e ∈ _)
    simp only [predict]
    exact (ih e (by simp [Node.children]) _ _ _ _ _ _
      (hr.child (by simp [Node.children]) (Node.isStatement_of_isExpression hes)) hp hk h1).1
  | call name args => exact foretells_call (hexpr rfl)
  | array elements =>
    refine foretells_expression (hexpr rfl) fun c p scope s s' r hr hp hk h => ?_
    obtain ⟨os, s1, t, -, h2, rfl⟩ := lower_array h
    exact buildArray_kind _ _ _ _ h2
  | missing => cases h
  | bare => cases h

end DualEngine.Lowering
