import DualEngine.Proofs.Canonical
import DualEngine.Proofs.Entries
import DualEngine.Proofs.Operators

/-! # Lowering gives what was predicted

The kind of a submission's value is predicted before the submission is lowered. Lowering follows the
prediction tree by tree: wherever it succeeds, its context knows the same kinds as the prediction.
-/
namespace DualEngine.Lowering
open IR Prediction

variable {earlier : Earlier} {scope : Scope} {s s' : State} {r : Lowered} {node : Node}

/-! ## Kinds of results -/

/-- Whatever the computation gives has the property. -/
def Returns {α : Type} (P : α → Prop) (m : Lower α) : Prop := ∀ s a s', m s = .ok a s' → P a

section
variable {α β : Type} {P : β → Prop}

theorem returns_pure {b : β} (h : P b) : Returns P (pure b : Lower β) := by
  intro s a s' hs
  obtain ⟨rfl, -⟩ := pure_eq_ok.mp hs
  exact h

theorem returns_after {m : Lower α} {f : α → Lower β} (hf : ∀ a, Returns P (f a)) :
    Returns P (m >>= f) := by
  intro s b s' h
  obtain ⟨a, s₁, -, h⟩ := bind_eq_ok.mp h
  exact hf a s₁ b s' h

theorem returns_mismatch (cause : Mismatch) : Returns P (mismatch cause : Lower β) := by
  intro s b s' h
  cases h

end

theorem arithmetic_kind (l : Option Typed) (op : ArithOp) (r : Option Typed) :
    Returns (fun t => (kindOf l).arithmetic? op (kindOf r) = some t.kind) (arithmetic l op r) := by
  unfold arithmetic
  split
  · exact returns_after fun _ => returns_pure ‹_›
  · exact returns_after fun _ => returns_after fun _ => returns_after fun _ => returns_pure ‹_›
  · exact returns_after fun _ => returns_pure ‹_›
  · exact returns_mismatch _

theorem comparison_kind (l : Option Typed) (op : CompareOp) (r : Option Typed) :
    Returns (·.kind = .bool) (comparison l op r) := by
  unfold comparison
  split
  · split
    · split
      · exact returns_after fun _ => returns_after fun _ => returns_after fun _ => returns_pure rfl
      · exact returns_after fun _ => returns_pure rfl
    · split
      · exact returns_after fun _ => returns_pure rfl
      · exact returns_after fun _ => returns_after fun _ => returns_after fun _ =>
          returns_after fun _ => returns_pure rfl
  · exact returns_mismatch _

theorem randomBetween_kind (drawn : Operand) (l r : Option Typed) :
    Returns (·.kind = .int) (randomBetween drawn l r) := by
  unfold randomBetween
  split
  · exact returns_after fun _ => returns_after fun _ => returns_after fun _ => returns_after fun _ =>
      returns_after fun _ => returns_after fun _ => returns_after fun _ => returns_pure rfl
  · exact returns_mismatch _

theorem buildArray_kind (os : List Operand) : Returns (·.kind = .intArray) (buildArray os) :=
  returns_after fun _ => returns_after fun _ => returns_after fun _ => returns_after fun _ =>
    returns_pure rfl

theorem loadName_kind {x : String} {t : Typed} (hp : scope.params.get? x = none)
    (h : loadName scope x s = .ok t s') : (s.context.get? x).map Symbol.kind = some t.kind := by
  unfold loadName at h
  rw [hp] at h
  dsimp only at h
  rw [bind_ok (get_run s)] at h
  cases hx : s.context.get? x with
  | none =>
    rw [hx] at h
    cases h
  | some symbol =>
    rw [hx] at h
    obtain ⟨a, s₁, -, h⟩ := bind_eq_ok.mp h
    obtain ⟨o, s₂, -, h⟩ := bind_eq_ok.mp h
    cases h
    rfl

theorem stepVariable_kind {x : String} {op : BinaryOp} {t : Typed}
    (h : stepVariable scope x op s = .ok t s') : t.kind = .int := by
  obtain ⟨hp, sym, hx, hk⟩ := stepVariable_inv h
  unfold stepVariable at h
  simp only [hp, Bool.false_eq_true, if_false] at h
  rw [bind_ok (get_run s)] at h
  simp only [hx, hk, if_true] at h
  iterate 4 obtain ⟨_, _, -, h⟩ := bind_eq_ok.mp h
  cases h
  rfl

theorem callFunction_kind (callee : Signature) (returns : Kind) (os : List Operand) :
    Returns (kindOf · = returns) (callFunction callee returns os) := by
  unfold callFunction
  split
  · exact returns_after fun _ => returns_pure (Eq.symm ‹_›)
  · exact returns_after fun _ => returns_pure rfl

theorem merge_kind {t e : Option Typed} {thenEnd elseEnd : String}
    (h : merge t e thenEnd elseEnd s = .ok r s') :
    kindOf r.value = if kindOf t = kindOf e then kindOf t else .none := by
  unfold merge at h
  split at h
  · rename_i u v
    split at h
    · rename_i hk
      obtain ⟨o, s₁, -, h⟩ := bind_eq_ok.mp h
      cases h
      exact (if_pos hk.1).symm
    · rename_i hk
      cases h
      -- values of one kind are not joined only if the kind is none
      by_cases he : u.kind = v.kind
      · have hn : u.kind = .none := by
          by_contra hn
          exact hk ⟨he, hn⟩
        simp [kindOf, hn]
      · exact (if_neg he).symm
  · rename_i hnot
    cases h
    cases t with
    | none => exact (ite_self _).symm
    | some u =>
      cases e with
      | none => by_cases hn : u.kind = .none <;> simp [kindOf, hn]
      | some v => exact absurd rfl (hnot u v rfl)

/-- A branch without an else part joins nothing. -/
theorem joined_kind {t e : Kind} (missing : Bool) (h : missing = true → e = .none) :
    (if t = e then t else .none) = if missing then .none else if t = e then t else .none := by
  cases missing with
  | true =>
    rw [h rfl, if_pos rfl]
    by_cases ht : t = .none
    · rw [if_pos ht, ht]
    · exact if_neg ht
  | false => rfl

/-- A loop has a value of the kind of its body. -/
theorem finishLoop_kind {value : Option Typed} {cells : Option LoopCells} {before after : String}
    {t t' : State} (hk : keepValue value s = .ok cells s')
    (h : finishLoop before after cells t = .ok r t') : kindOf r.value = kindOf value := by
  cases value with
  | none =>
    cases hk
    cases h
    rfl
  | some v =>
    unfold keepValue at hk
    iterate 4 obtain ⟨_, _, -, hk⟩ := bind_eq_ok.mp hk
    cases hk
    iterate 3 obtain ⟨_, _, -, h⟩ := bind_eq_ok.mp h
    cases h
    rfl

/-! ## The context follows the prediction -/

/-- The context knows what the prediction knows, and its functions bind nothing. -/
structure Tracks (c : Context Slot) (p : Prediction.State) (k : Context Slot) : Prop where
  alike : Alike k {} c p
  calm : k.FunctionsAvoid bindingForms

variable {c k : Context Slot} {p : Prediction.State}

theorem Makes.context {α : Type} {m : Lower α} {a : α} (hm : Makes .nothing m)
    (hc : s.context.FunctionsAvoid bindingForms) (h : m s = .ok a s') : s'.context = s.context :=
  (hm.ok (Grant.coversAll_of_avoids hc) h).steady.context

theorem Tracks.makes {α : Type} {m : Lower α} {a : α} (ht : Tracks c p s.context)
    (hm : Makes .nothing m) (h : m s = .ok a s') : Tracks c p s'.context :=
  hm.context ht.calm h ▸ ht

theorem Tracks.name (ht : Tracks c p k) (x : String) :
    name? c p x = (k.get? x).map Symbol.kind :=
  (ht.alike.names x).symm

theorem Tracks.function (ht : Tracks c p k) (f : String) :
    function? c p f = (k.getFunction? f).map Definition.returns :=
  (ht.alike.functions f).symm

theorem Tracks.bind (ht : Tracks c p k) (x : String) (slot : Slot) (kind : Kind) :
    Tracks c { p with names := p.names.insert x kind } (k.add x slot kind) := by
  refine ⟨⟨fun y => ?_, ht.alike.functions⟩, ht.calm⟩
  have hy := ht.alike.names y
  simp only [name?, Context.get?, Context.add, Table.get?_insert] at hy ⊢
  by_cases hxy : x = y
  · simp [hxy, Table.get?, Table.find?]
  · simpa [hxy] using hy

/-- A name that has the kind already may be bound to it again. -/
theorem Tracks.rebind (ht : Tracks c p k) {x : String} {slot : Slot} {kind : Kind}
    (hx : k.get? x = some ⟨slot, kind⟩) : Tracks c { p with names := p.names.insert x kind } k := by
  refine ⟨⟨fun y => ?_, ht.alike.functions⟩, ht.calm⟩
  have hy := ht.alike.names y
  simp only [name?, Table.get?_insert] at hy ⊢
  by_cases hxy : x = y
  · subst hxy
    simp [hx, Table.get?, Table.find?]
  · simpa [hxy] using hy

theorem Tracks.addFunction (ht : Tracks c p k) (name : String) {d : Definition}
    (hd : d.body.Avoids bindingForms) (l : List (String × Kind)) :
    Tracks c { p with functions := p.functions.insert name d.returns, settled := l }
      (k.addFunction name d) := by
  refine ⟨⟨ht.alike.names, fun f => ?_⟩, fun f e hf => ?_⟩
  · have hf := ht.alike.functions f
    simp only [function?, Context.getFunction?, Context.addFunction, Table.get?_insert] at hf ⊢
    by_cases hnf : name = f
    · simp [hnf, Table.get?, Table.find?]
    · simpa [hnf] using hf
  · simp only [Context.getFunction?, Context.addFunction, Table.get?_insert] at hf
    split at hf
    · cases hf
      exact hd
    · exact ht.calm f e hf

theorem Tracks.assign (ht : Tracks c p s.context) {x : String} {r : Option Typed} {t : Typed}
    (h : assign scope x r s = .ok t s') :
    kindOf r = t.kind ∧ Tracks c (Prediction.declare p x (kindOf r)) s'.context := by
  obtain ⟨slot, s₁, rfl, hk, h₁, h₂⟩ := assign_inv h
  refine ⟨rfl, ?_⟩
  have hdeclare : Prediction.declare p x (kindOf (some t)) =
      { p with names := p.names.insert x t.kind } := if_neg hk
  rw [hdeclare]
  refine Tracks.makes ?_ (makes_storeSlot slot t) h₂
  rcases slotFor_cases h₁ with ⟨hx, rfl⟩ | ⟨-, -, s₂, h3, rfl⟩
  · exact ht.rebind hx
  · have ht2 : Tracks c p s₂.context := Tracks.makes (s := s.withSlot slot) ht (makes_seedSlot _ _ _) h3
    exact ht2.bind x slot t.kind

/-! ## Expressions -/

/-- The kind of an expression is the predicted one. -/
theorem expression_kind (he : earlier.Makes .nothing) (hn : node.isExpression = true)
    (hs : scope.params = {}) (ht : Tracks c p s.context) (h : lower earlier scope node s = .ok r s') :
    kindOf r.value = (predict c node p).1 := by
  induction node using Node.induction generalizing s s' r with
  | h node ih =>
  have hform := ((Node.isExpression_iff node).mp hn).1
  have part (child : Node) (hc : child ∈ node.children) : Makes .nothing (lower earlier scope child) :=
    makes_lower he child (Grant.covers_of_avoids (avoids_bindingForms (Node.isExpression_child hn hc))) scope
  have two (left right : Node) (hl : left ∈ node.children) (hr : right ∈ node.children)
      {l : Lowered} {s₁ : State} {r' : Lowered} {s₂ : State}
      (h₁ : lower earlier scope left s = .ok l s₁) (h₂ : lower earlier scope right s₁ = .ok r' s₂) :
      kindOf l.value = (predict c left p).1 ∧ kindOf r'.value = (predict c right p).1 :=
    ⟨ih left hl (Node.isExpression_child hn hl) ht h₁,
      ih right hr (Node.isExpression_child hn hr) (ht.makes (part left hl) h₁) h₂⟩
  cases node with
  | sequence | assign | branch | loop | define => simp [Node.isStatementForm] at hform
  | number n | float x | boolean b =>
    cases h
    rfl
  | string t =>
    obtain ⟨o, -, rfl⟩ := lower_string h
    rfl
  | identifier x =>
    obtain ⟨t, h₁, rfl⟩ := lower_identifier h
    have hx := loadName_kind (by rw [hs]; rfl) h₁
    simp only [predict, nameKind_eq, ht.name x, hx, kindOf, Option.getD_some]
  | binary left op right =>
    obtain ⟨-, l, s₁, r', s₂, t, h₁, h₂, h3, rfl⟩ := lower_binary h
    obtain ⟨hl, hr⟩ := two left right (by simp [Node.children]) (by simp [Node.children]) h₁ h₂
    have hk := arithmetic_kind _ _ _ _ _ _ h3
    rw [hl, hr] at hk
    have hleft : left.isExpression = true := Node.isExpression_child hn (by simp [Node.children])
    simp only [predict, predict_expression hleft, hk, kindOf, Option.getD_some]
  | comparison left op right =>
    obtain ⟨-, l, s₁, r', s₂, t, -, -, h3, rfl⟩ := lower_comparison h
    exact comparison_kind _ _ _ _ _ _ h3
  | increment x =>
    obtain ⟨t, h₁, rfl⟩ := lower_increment h
    exact stepVariable_kind h₁
  | decrement x =>
    obtain ⟨t, h₁, rfl⟩ := lower_decrement h
    exact stepVariable_kind h₁
  | print e =>
    obtain ⟨l, s₁, h₁, -, rfl⟩ := lower_print h
    simp only [predict]
    exact ih e (by simp [Node.children]) (Node.isExpression_child hn (by simp [Node.children])) ht h₁
  | random low high =>
    obtain ⟨drawn, s₁, -, ⟨rfl, -⟩ | ⟨l, s₂, h', s3, t, -, -, h4, rfl⟩⟩ := lower_random h
    · rfl
    · exact randomBetween_kind _ _ _ _ _ _ h4
  | call name args =>
    obtain ⟨d, os, s₁, callee, s₂, hd, -, -, -, value, h3, rfl⟩ := lower_call h
    have hargs := predictAll_expressions (c := c)
      (fun n hm => predict_expression (Node.isExpression_child hn hm)) .none p
    simp only [Node.children] at hargs
    simp only [predict, hargs, functionKind_eq, ht.function name, hd, Option.map_some,
      Option.getD_some]
    exact callFunction_kind _ _ _ _ _ _ h3
  | array elements =>
    obtain ⟨os, s₁, t, -, h₂, rfl⟩ := lower_array h
    exact buildArray_kind _ _ _ _ h₂
  | missing => cases h
  | bare => cases h

/-! ## Statements -/

/-- Lowering a tree gives the predicted kind, and its context goes on knowing what the prediction
knows. -/
def Agrees (earlier : Earlier) (node : Node) : Prop :=
  ∀ (c : Context Slot) (p : Prediction.State) (scope : Scope) (s s' : State) (r : Lowered),
    scope.params = {} → Tracks c p s.context → lower earlier scope node s = .ok r s' →
    kindOf r.value = (predict c node p).1 ∧ Tracks c (predict c node p).2 s'.context

theorem agrees_expression (he : earlier.Makes .nothing) (hn : node.isExpression = true) :
    Agrees earlier node := by
  intro c p scope s s' r hs ht h
  refine ⟨expression_kind he hn hs ht h, ?_⟩
  rw [predict_expression hn]
  exact ht.makes (makes_lower he node (Grant.covers_of_avoids (avoids_bindingForms hn)) scope) h

/-- A part that may be left out. -/
theorem Agrees.optional (ha : Agrees earlier node) (scope : Scope) (s : State)
    (hs : scope.params = {}) (ht : Tracks c p s.context)
    (h : (if node.isMissing then pure {} else lower earlier scope node) s = .ok r s') :
    kindOf r.value = (predict c node p).1 ∧ Tracks c (predict c node p).2 s'.context := by
  split at h
  · rename_i hm
    obtain rfl := Node.eq_missing hm
    cases h
    exact ⟨rfl, ht⟩
  · exact ha _ _ _ _ _ _ hs ht h

theorem lowerAll_agrees {nodes : List Node} (hn : ∀ node ∈ nodes, Agrees earlier node)
    {last : Lowered} {kind : Kind} (hl : kindOf last.value = kind) (hs : scope.params = {})
    (ht : Tracks c p s.context) (h : lowerAll earlier scope nodes last s = .ok r s') :
    kindOf r.value = (predictAll c nodes kind p).1 ∧
      Tracks c (predictAll c nodes kind p).2 s'.context := by
  induction nodes generalizing p s last kind with
  | nil =>
    cases h
    exact ⟨hl, ht⟩
  | cons node rest ih =>
    obtain ⟨l, s₁, h₁, h₂⟩ := lowerAll_cons h
    obtain ⟨hk, ht1⟩ := hn node List.mem_cons_self _ _ _ _ _ _ hs ht h₁
    exact ih (fun n hm => hn n (List.mem_cons_of_mem _ hm)) hk ht1 h₂

theorem agrees_branch {condition thenPart elsePart : Node} (hc : Agrees earlier condition)
    (ha : Agrees earlier thenPart) (hb : Agrees earlier elsePart) :
    Agrees earlier (.branch condition thenPart elsePart) := by
  intro c p scope s s' r hs ht h
  simp only [lower] at h
  obtain ⟨v, s₁, holds, s₂, t, s3, e, s4, h₁, h₂, h3, h4, h5⟩ := lowerBranch_inv h
  obtain ⟨-, ht1⟩ := hc _ _ _ _ _ _ hs ht h₁
  have ht2 := ht1.makes (makes_of_admits (Discipline.admits_truth v.value)) h₂
  rw [← s₂.context_forked holds] at ht2
  obtain ⟨hkt, ht3⟩ := ha c _ (scope.branching s₂.draft.current) (s₂.forked holds) _ _ hs ht2 h3
  obtain ⟨hke, ht4⟩ := hb.optional (scope.branching s₂.draft.current)
    (s3.passed (.jump s₂.joinLabel) s₂.elseLabel) hs ht3 h4
  have ht5 := Tracks.makes (s := s4.passed (.jump s₂.joinLabel) s₂.joinLabel) ht4
    (makes_of_admits (Discipline.admits_merge _ _ _ _)) h5
  simp only [predict]
  refine ⟨?_, ht5⟩
  rw [merge_kind h5, ← hkt, ← hke]
  refine joined_kind _ fun hm => ?_
  obtain rfl := Node.eq_missing hm
  exact hke

theorem agrees_loop {start condition step body : Node} (ha : Agrees earlier start)
    (hc : Agrees earlier condition) (hw : Agrees earlier step) (hb : Agrees earlier body) :
    Agrees earlier (.loop start condition step body) := by
  intro c p scope s s' r hs ht h
  simp only [lower] at h
  obtain ⟨u, s₁, holds, s₂, b, s3, cells, s4, w, s5, h₁, h₂, h3, h4, h5, h6⟩ := lowerLoop_inv h
  obtain ⟨-, ht1⟩ := ha.optional scope s hs ht h₁
  rw [← s₁.context_looped] at ht1
  have ht2 : Tracks c (predict c condition (predict c start p).2).2 s₂.context := by
    split at h₂
    · rename_i hm
      obtain rfl := Node.eq_missing hm
      obtain ⟨-, rfl⟩ := pure_eq_ok.mp h₂
      simp only [predict]
      exact ht1
    · obtain ⟨v, s6, h7, h₂⟩ := bind_eq_ok.mp h₂
      obtain ⟨-, ht6⟩ := hc c _ (scope.branching s₁.draft.current) s₁.looped _ _ hs ht1 h7
      obtain ⟨o, s7, h8, h₂⟩ := bind_eq_ok.mp h₂
      obtain ⟨-, rfl⟩ := pure_eq_ok.mp h₂
      exact ht6.makes (makes_of_admits (Discipline.admits_truth v.value)) h8
  obtain ⟨hkb, ht3⟩ := hb c _ (scope.branching s₁.draft.current)
    (s₂.passed (loopExit s₁.bodyLabel s₁.afterLabel holds) s₁.bodyLabel) _ _ hs ht2 h3
  have ht4 := ht3.makes (makes_of_keeps (Discipline.keeps_keepValue b.value)) h4
  obtain ⟨-, ht5⟩ := hw.optional (scope.branching s₁.draft.current)
    (s4.passed (.jump s₁.stepLabel) s₁.stepLabel) hs ht4 h5
  have ht6 := Tracks.makes (s := s5.ended (.jump s₁.conditionLabel)) ht5
    (makes_of_keeps (Discipline.keeps_finishLoop _ _ fun _ _ => ⟨trivial, trivial⟩)) h6
  simp only [predict]
  exact ⟨(finishLoop_kind h4 h6).trans hkb, ht6⟩

theorem agrees_define (he : earlier.Makes .nothing) {name : String} {params : List String}
    {body : Node} (hb : body.Avoids bindingForms) : Agrees earlier (.define name params body) := by
  intro c p scope s s' r hs ht h
  obtain ⟨callee, h₁, rfl⟩ := lower_define h
  have hkind : (s.definition name params body).returns =
      (returnKind (predict c body) name params p.names p.functions p.settled).1 :=
    returnKind_alike name params (fun hs => predict_alike body hs) ht.alike [] p.settled
  have ht1 := ht.addFunction name (d := s.definition name params body) hb
    (returnKind (predict c body) name params p.names p.functions p.settled).2
  simp only [predict]
  refine ⟨rfl, ?_⟩
  rw [← hkind]
  exact Tracks.makes (s := { s with context := s.context.addFunction name _ }) ht1
    (Makes.emitFunction fun inner => makes_lower he body (Grant.covers_of_avoids hb) inner) h₁

/-- Lowering follows the prediction. -/
theorem lower_agrees (he : earlier.Makes .nothing) (hn : node.isStatement = true)
    (hf : node.FunctionsAvoid bindingForms) : Agrees earlier node := by
  induction node using Node.induction with
  | h node ih =>
  have part (child : Node) (hc : child ∈ node.children) : Agrees earlier child :=
    ih child hc (Node.isStatement_child hn hc) (hf.child hc)
  cases hform : node.isStatementForm with
  | false => exact agrees_expression he (Node.isExpression_of_isStatement hn hform)
  | true =>
    cases node with
    | sequence statements =>
      intro c p scope s s' r hs ht h
      simp only [lower] at h
      simp only [predict]
      exact lowerAll_agrees part rfl hs ht h
    | assign x e =>
      intro c p scope s s' r hs ht h
      obtain ⟨-, l, s₁, t, h₁, h₂, rfl⟩ := lower_assign h
      obtain ⟨hk, ht1⟩ := part e (by simp [Node.children]) _ _ _ _ _ _ hs ht h₁
      obtain ⟨hkt, ht2⟩ := ht1.assign h₂
      simp only [predict]
      rw [← hk]
      exact ⟨hkt.symm, ht2⟩
    | branch condition thenPart elsePart =>
      exact agrees_branch (part condition (by simp [Node.children]))
        (part thenPart (by simp [Node.children])) (part elsePart (by simp [Node.children]))
    | loop start condition step body =>
      exact agrees_loop (part start (by simp [Node.children]))
        (part condition (by simp [Node.children])) (part step (by simp [Node.children]))
        (part body (by simp [Node.children]))
    | define name params body => exact agrees_define he hf.body
    | _ => simp [Node.isStatementForm] at hform

/-! ## Submissions -/

/-- A value stays as it is where its own kind is wanted. -/
theorem coerce_kindOf (value : Option Typed) (s : State) :
    coerce value (kindOf value) s = .ok (value.map Typed.operand) s := by
  cases value with
  | none => rfl
  | some v =>
    have h : coerce (some v) v.kind = pure (some v.operand) := if_pos rfl
    exact congrFun h s

theorem tracks_self (hc : c.FunctionsAvoid bindingForms) : Tracks c {} c :=
  ⟨⟨fun _ => rfl, fun _ => rfl⟩, hc⟩

/-- Where lowering a submission succeeds, its value is of the predicted kind, the context then knows
the predicted kinds, and returning the value from the entry function does not change it. -/
theorem lowered_kind_eq_predicted {source : String} {node : Node} {number nextSlot next : Nat}
    {a : Artifact} (hparse : parse source = .ok node) (hnode : node.FunctionsAvoid bindingForms)
    (hc : c.FunctionsAvoid bindingForms)
    (h : lowerSubmission c number nextSlot node = (.ok a, next)) :
    a.kind = predictResult c node ∧ ∃ r s₁ s₂,
      lower (emitEarlier c.functions.entries.length) {} node
        (State.begun { context := c, nextSlot } a.entry a.kind) = .ok r s₁ ∧
      closeEntry a.entry a.kind r s₁ = .ok ⟨⟩ s₂ ∧
      a.module = ⟨s₂.globals⟩ ∧ a.context = s₁.context ∧
      kindOf r.value = predictResult c node ∧
      (∀ x, nameKind c (predict c node {}).2 x =
        ((a.context.get? x).map Symbol.kind).getD .none) ∧
      (∀ f, functionKind c (predict c node {}).2 f =
        ((a.context.getFunction? f).map Definition.returns).getD .none) ∧
      coerce r.value a.kind s₁ = .ok (r.value.map Typed.operand) s₁ := by
  obtain ⟨r, s₁, s₂, h₁, h₂, rfl, -⟩ := lowerSubmission_inv h
  have hstart : Tracks c {} (State.begun { context := c, nextSlot } (entryName number)
      (predictResult c node)).context := by
    rw [State.context_begun]
    exact tracks_self hc
  obtain ⟨hr, ht⟩ := lower_agrees (makes_emitEarlier .nothing _) (isStatement_of_parse hparse) hnode
    c {} {} _ s₁ r rfl hstart h₁
  have hcontext : s₂.context = s₁.context := (makes_closeEntry number _ r).context ht.calm h₂
  refine ⟨rfl, r, s₁, s₂, h₁, h₂, rfl, hcontext, hr, fun x => ?_, fun f => ?_, ?_⟩
  · rw [nameKind_eq, ht.name, hcontext]
  · rw [functionKind_eq, ht.function, hcontext]
  · rw [show predictResult c node = kindOf r.value from hr.symm]
    exact coerce_kindOf r.value s₁

/-- A submission that defines a recursive function, binds a name and calls the function. -/
theorem recursive_submission_agrees :
    ∃ (c : Context Slot) (node : Node) (a : Artifact) (next : Nat), c = .empty ∧
      parse "def f(n) { if (n < 2) { n } else { f(n - 1) } }; x = 1; f(x)" = .ok node ∧
      node.FunctionsAvoid bindingForms ∧ c.FunctionsAvoid bindingForms ∧
      lowerSubmission c 0 0 node = (.ok a, next) ∧
      predictResult c node = .float ∧ a.kind = .float ∧
      ∀ x, nameKind c (predict c node {}).2 x = ((a.context.get? x).map Symbol.kind).getD .none := by
  let n : Node := .identifier "n"
  let node : Node := .sequence [
    .define "f" ["n"] (.sequence [.branch (.comparison n .lt (.number 2)) (.sequence [n])
      (.sequence [.call "f" [.binary n .sub (.number 1)]])]),
    .assign "x" (.number 1), .call "f" [.identifier "x"]]
  have hparse : parse "def f(n) { if (n < 2) { n } else { f(n - 1) } }; x = 1; f(x)" =
      .ok node := by cbv
  have hnode : node.FunctionsAvoid bindingForms := by decide
  have hc : (Context.empty : Context Slot).FunctionsAvoid bindingForms := by
    intro name d h
    cases h
  have hkind : predictResult (.empty : Context Slot) node = .float := by decide
  have hlower : (lowerSubmission .empty 0 0 node).1.isOk = true := by cbv
  cases hs : lowerSubmission .empty 0 0 node with
  | mk result next =>
    cases result with
    | error cause =>
      rw [hs] at hlower
      cases hlower
    | ok a =>
      obtain ⟨ha, r, s₁, s₂, -, -, -, -, -, hnames, -⟩ :=
        lowered_kind_eq_predicted hparse hnode hc hs
      exact ⟨.empty, node, a, next, rfl, hparse, hnode, hc, hs, hkind, ha.trans hkind, hnames⟩

end DualEngine.Lowering
