import DualEngine.Proofs.Blocks

/-! # The steps of lowering

For every form of tree: the steps that lowering took if it succeeded.
-/
namespace DualEngine
open IR

namespace Lowering
variable {earlier : Earlier} {scope : Scope} {s s' : State} {r : Lowered} {name : String}
  {d : Definition} {args rest : List Node} {os : List Operand} {params : List String}
  {condition : Lower Lowered} {node : Node} {callee : Signature} {x : String}

theorem lower_string {t : String} (h : lower earlier scope (.string t) s = .ok r s') :
    ∃ o, textConstant t "str" s = .ok o s' ∧ r = { value := some ⟨o, .string⟩ } := by
  obtain ⟨o, s1, h1, h⟩ := bind_eq_ok.mp h
  cases h
  exact ⟨o, h1, rfl⟩

theorem lower_identifier (h : lower earlier scope (.identifier x) s = .ok r s') :
    ∃ t, loadName scope x s = .ok t s' ∧ r = { value := some t } := by
  obtain ⟨t, s1, h1, h⟩ := bind_eq_ok.mp h
  cases h
  exact ⟨t, h1, rfl⟩

theorem lower_binary {left right : Node} {op : ArithOp}
    (h : lower earlier scope (.binary left op right) s = .ok r s') :
    (∀ symbol, op ≠ .other symbol) ∧ ∃ l s1 r' s2 t, lower earlier scope left s = .ok l s1 ∧
      lower earlier scope right s1 = .ok r' s2 ∧ arithmetic l.value op r'.value s2 = .ok t s' ∧
      r = { value := some t } := by
  cases op with
  | other symbol => cases h
  | _ =>
    obtain ⟨l, s1, h1, h⟩ := bind_eq_ok.mp h
    obtain ⟨r', s2, h2, h⟩ := bind_eq_ok.mp h
    obtain ⟨t, s3, h3, h⟩ := bind_eq_ok.mp h
    cases h
    exact ⟨by simp, l, s1, r', s2, t, h1, h2, h3, rfl⟩

theorem lower_comparison {left right : Node} {op : CompareOp}
    (h : lower earlier scope (.comparison left op right) s = .ok r s') :
    (∀ symbol, op ≠ .other symbol) ∧ ∃ l s1 r' s2 t, lower earlier scope left s = .ok l s1 ∧
      lower earlier scope right s1 = .ok r' s2 ∧ comparison l.value op r'.value s2 = .ok t s' ∧
      r = { value := some t } := by
  cases op with
  | other symbol => cases h
  | _ =>
    obtain ⟨l, s1, h1, h⟩ := bind_eq_ok.mp h
    obtain ⟨r', s2, h2, h⟩ := bind_eq_ok.mp h
    obtain ⟨t, s3, h3, h⟩ := bind_eq_ok.mp h
    cases h
    exact ⟨by simp, l, s1, r', s2, t, h1, h2, h3, rfl⟩

theorem lower_assign {e : Node} (h : lower earlier scope (.assign x e) s = .ok r s') :
    scope.params.contains x = false ∧ ∃ l s1 t, lower earlier scope e s = .ok l s1 ∧
      assign scope x l.value s1 = .ok t s' ∧ r = { value := some t } := by
  simp only [lower] at h
  cases hp : scope.params.contains x with
  | true =>
    rw [hp] at h
    cases h
  | false =>
    simp only [hp, Bool.false_eq_true, if_false] at h
    obtain ⟨l, s1, h1, h⟩ := bind_eq_ok.mp h
    obtain ⟨t, s2, h2, h⟩ := bind_eq_ok.mp h
    cases h
    exact ⟨rfl, l, s1, t, h1, h2, rfl⟩

theorem lower_increment (h : lower earlier scope (.increment x) s = .ok r s') :
    ∃ t, stepVariable scope x .add s = .ok t s' ∧ r = { value := some t } := by
  obtain ⟨t, s1, h1, h⟩ := bind_eq_ok.mp h
  cases h
  exact ⟨t, h1, rfl⟩

theorem lower_decrement (h : lower earlier scope (.decrement x) s = .ok r s') :
    ∃ t, stepVariable scope x .sub s = .ok t s' ∧ r = { value := some t } := by
  obtain ⟨t, s1, h1, h⟩ := bind_eq_ok.mp h
  cases h
  exact ⟨t, h1, rfl⟩

theorem lower_print {e : Node} (h : lower earlier scope (.print e) s = .ok r s') :
    ∃ l s1, lower earlier scope e s = .ok l s1 ∧ printValue l.value s1 = .ok ⟨⟩ s' ∧
      r = { value := l.value } := by
  obtain ⟨l, s1, h1, h⟩ := bind_eq_ok.mp h
  obtain ⟨⟨⟩, s2, h2, h⟩ := bind_eq_ok.mp h
  cases h
  exact ⟨l, s1, h1, h2, rfl⟩

theorem lower_array {elements : List Node}
    (h : lower earlier scope (.array elements) s = .ok r s') :
    ∃ os s1 t, lowerElements earlier scope elements s = .ok os s1 ∧ buildArray os s1 = .ok t s' ∧
      r = { value := some t } := by
  obtain ⟨os, s1, h1, h⟩ := bind_eq_ok.mp h
  obtain ⟨t, s2, h2, h⟩ := bind_eq_ok.mp h
  cases h
  exact ⟨os, s1, t, h1, h2, rfl⟩

theorem lowerElements_cons (h : lowerElements earlier scope (node :: rest) s = .ok os s') :
    ∃ l s1 o os', lower earlier scope node s = .ok l s1 ∧ l.value = some ⟨o, .int⟩ ∧
      lowerElements earlier scope rest s1 = .ok os' s' ∧ os = o :: os' := by
  simp only [lowerElements] at h
  obtain ⟨l, s1, h1, h⟩ := bind_eq_ok.mp h
  cases hl : l.value with
  | none =>
    rw [hl] at h
    cases h
  | some t =>
    obtain ⟨o, k⟩ := t
    rw [hl] at h
    cases k with
    | int =>
      obtain ⟨os', s2, h2, h⟩ := bind_eq_ok.mp h
      cases h
      exact ⟨l, s1, o, os', h1, hl, h2, rfl⟩
    | _ => cases h

theorem lowerAll_cons {last : Lowered}
    (h : lowerAll earlier scope (node :: rest) last s = .ok r s') :
    ∃ l s1, lower earlier scope node s = .ok l s1 ∧
      lowerAll earlier scope rest l s1 = .ok r s' := by
  simp only [lowerAll] at h
  exact bind_eq_ok.mp h

theorem lowerArguments_cons {function param : String}
    (h : lowerArguments earlier scope function (param :: params) (node :: rest) s = .ok os s') :
    ∃ l s1 t o s2 os', lower earlier scope node s = .ok l s1 ∧ l.value = some t ∧
      t.kind.isNumeric = true ∧ toFloat t s1 = .ok o s2 ∧
      lowerArguments earlier scope function params rest s2 = .ok os' s' ∧ os = o :: os' := by
  simp only [lowerArguments] at h
  obtain ⟨l, s1, h1, h⟩ := bind_eq_ok.mp h
  cases hl : l.value with
  | none =>
    rw [hl] at h
    cases h
  | some t =>
    rw [hl] at h
    dsimp only at h
    cases hk : t.kind.isNumeric with
    | false =>
      simp only [hk, Bool.false_eq_true, if_false] at h
      cases h
    | true =>
      simp only [hk, if_true] at h
      obtain ⟨o, s2, h2, h⟩ := bind_eq_ok.mp h
      obtain ⟨os', s3, h3, h⟩ := bind_eq_ok.mp h
      cases h
      exact ⟨l, s1, t, o, s2, os', h1, hl, hk, h2, h3, rfl⟩

/-- The function that a call goes to: one of the module, or one of an earlier submission. -/
def Callee (earlier : Earlier) (name : String) (d : Definition) (s : State) (callee : Signature)
    (s' : State) : Prop :=
  (s.functions.get? name = some callee ∧ s' = s) ∨
    (s.functions.get? name = none ∧ earlier name d s = .ok callee s')

theorem lower_call (h : lower earlier scope (.call name args) s = .ok r s') :
    ∃ d os s1 callee s2, s.context.getFunction? name = some d ∧ args.length = d.params.length ∧
      lowerArguments earlier scope name d.params args s = .ok os s1 ∧
      Callee earlier name d s1 callee s2 ∧
      ∃ value, callFunction callee d.returns os s2 = .ok value s' ∧ r = { value } := by
  simp only [lower] at h
  rw [bind_ok (get_run s)] at h
  cases hd : s.context.getFunction? name with
  | none =>
    rw [hd] at h
    cases h
  | some d =>
    rw [hd] at h
    by_cases hlen : args.length = d.params.length
    · simp only [if_pos hlen] at h
      obtain ⟨os, s1, h1, h⟩ := bind_eq_ok.mp h
      rw [bind_ok (get_run s1)] at h
      refine ⟨d, os, s1, ?_⟩
      cases hf : s1.functions.get? name with
      | some callee =>
        simp only [hf] at h
        rw [bind_ok (pure_run callee s1)] at h
        obtain ⟨value, s3, h3, h⟩ := bind_eq_ok.mp h
        cases h
        exact ⟨callee, s1, rfl, hlen, h1, .inl ⟨hf, rfl⟩, value, h3, rfl⟩
      | none =>
        simp only [hf] at h
        obtain ⟨callee, s2, h2, h⟩ := bind_eq_ok.mp h
        obtain ⟨value, s3, h3, h⟩ := bind_eq_ok.mp h
        cases h
        exact ⟨callee, s2, rfl, hlen, h1, .inr ⟨hf, h2⟩, value, h3, rfl⟩
    · simp only [if_neg hlen] at h
      cases h

theorem lower_call_run {s1 s2 : State} {value : Option Typed}
    (hd : s.context.getFunction? name = some d) (hlen : args.length = d.params.length)
    (h1 : lowerArguments earlier scope name d.params args s = .ok os s1)
    (h2 : Callee earlier name d s1 callee s2)
    (h3 : callFunction callee d.returns os s2 = .ok value s') :
    lower earlier scope (.call name args) s = .ok { value } s' := by
  simp only [lower]
  rw [bind_ok (get_run s), hd]
  simp only [if_pos hlen]
  rw [bind_ok h1, bind_ok (get_run s1)]
  rcases h2 with ⟨hf, rfl⟩ | ⟨hf, h2⟩
  · simp only [hf]
    exact (bind_ok (pure_run callee _)).trans ((bind_ok h3).trans rfl)
  · simp only [hf]
    exact (bind_ok h2).trans ((bind_ok h3).trans rfl)

/-! ### Branches and loops -/

namespace State

/-- The labels of the blocks that a branch makes. -/
def thenLabel (s : State) : String := s.fresh "then"
def elseLabel (s : State) : String := (s.opened "then").fresh "else"
def joinLabel (s : State) : String := ((s.opened "then").opened "else").fresh "ifcont"

/-- With the blocks of a branch, in the first of them. -/
def forked (s : State) (holds : Operand) : State :=
  ((((s.opened "then").opened "else").opened "ifcont").ended
    (.branch holds s.thenLabel s.elseLabel)).entered s.thenLabel

/-- The labels of the blocks that a loop makes. -/
def conditionLabel (s : State) : String := s.fresh "for.cond"
def bodyLabel (s : State) : String := (s.opened "for.cond").fresh "for.body"
def stepLabel (s : State) : String := ((s.opened "for.cond").opened "for.body").fresh "for.step"
def afterLabel (s : State) : String :=
  (((s.opened "for.cond").opened "for.body").opened "for.step").fresh "for.end"

/-- With the blocks of a loop, in the first of them. -/
def looped (s : State) : State :=
  (((((s.opened "for.cond").opened "for.body").opened "for.step").opened "for.end").ended
    (.jump s.conditionLabel)).entered s.conditionLabel

@[simp] theorem context_opened (s : State) (wanted : String) :
    (s.opened wanted).context = s.context := rfl
@[simp] theorem context_ended (s : State) (t : Terminator) : (s.ended t).context = s.context := rfl
@[simp] theorem context_entered (s : State) (label : String) :
    (s.entered label).context = s.context := rfl
@[simp] theorem context_passed (s : State) (t : Terminator) (label : String) :
    (s.passed t label).context = s.context := rfl

@[simp] theorem context_forked (s : State) (holds : Operand) :
    (s.forked holds).context = s.context := by
  simp only [forked, context_entered, context_ended, context_opened]

@[simp] theorem context_looped (s : State) : s.looped.context = s.context := by
  simp only [looped, context_entered, context_ended, context_opened]

end State

theorem lowerBranch_inv {thenPart elsePart : Scope → Lower Lowered}
    (h : lowerBranch scope condition thenPart elsePart s = .ok r s') :
    ∃ c s1 holds s2 t s3 e s4, condition s = .ok c s1 ∧ truth c.value s1 = .ok holds s2 ∧
      thenPart (scope.branching s2.draft.current) (s2.forked holds) = .ok t s3 ∧
      elsePart (scope.branching s2.draft.current) (s3.passed (.jump s2.joinLabel) s2.elseLabel) =
        .ok e s4 ∧
      merge t.value e.value s3.draft.current s4.draft.current
        (s4.passed (.jump s2.joinLabel) s2.joinLabel) = .ok r s' := by
  unfold lowerBranch at h
  obtain ⟨c, s1, h1, h⟩ := bind_eq_ok.mp h
  obtain ⟨holds, s2, h2, h⟩ := bind_eq_ok.mp h
  rw [bind_ok (addBlock_run _ _), bind_ok (addBlock_run _ _), bind_ok (addBlock_run _ _),
    bind_ok (currentBlock_run _), bind_ok (terminate_run _ _), bind_ok (enter_run _ _)] at h
  obtain ⟨t, s3, h3, h⟩ := bind_eq_ok.mp h
  rw [bind_ok (currentBlock_run _), bind_ok (terminate_run _ _), bind_ok (enter_run _ _)] at h
  obtain ⟨e, s4, h4, h⟩ := bind_eq_ok.mp h
  rw [bind_ok (currentBlock_run _), bind_ok (terminate_run _ _), bind_ok (enter_run _ _)] at h
  exact ⟨c, s1, holds, s2, t, s3, e, s4, h1, h2, h3, h4, h⟩

theorem lowerBranch_run {thenPart elsePart : Scope → Lower Lowered} {c t e : Lowered}
    {holds : Operand} {s1 s2 s3 s4 : State} (h1 : condition s = .ok c s1)
    (h2 : truth c.value s1 = .ok holds s2)
    (h3 : thenPart (scope.branching s2.draft.current) (s2.forked holds) = .ok t s3)
    (h4 : elsePart (scope.branching s2.draft.current)
      (s3.passed (.jump s2.joinLabel) s2.elseLabel) = .ok e s4)
    (h5 : merge t.value e.value s3.draft.current s4.draft.current
      (s4.passed (.jump s2.joinLabel) s2.joinLabel) = .ok r s') :
    lowerBranch scope condition thenPart elsePart s = .ok r s' := by
  unfold lowerBranch
  rw [bind_ok h1, bind_ok h2, bind_ok (addBlock_run _ _), bind_ok (addBlock_run _ _),
    bind_ok (addBlock_run _ _), bind_ok (currentBlock_run _), bind_ok (terminate_run _ _),
    bind_ok (enter_run _ _)]
  refine (bind_ok h3).trans ?_
  rw [bind_ok (currentBlock_run _), bind_ok (terminate_run _ _), bind_ok (enter_run _ _)]
  refine (bind_ok h4).trans ?_
  rw [bind_ok (currentBlock_run _), bind_ok (terminate_run _ _), bind_ok (enter_run _ _)]
  exact h5

theorem lowerLoop_inv {start : Lower Lowered} {condition : Scope → Lower (Option Operand)}
    {step body : Scope → Lower Lowered} (h : lowerLoop scope start condition step body s = .ok r s') :
    ∃ u s1 holds s2 b s3 cells s4 w s5, start s = .ok u s1 ∧
      condition (scope.branching s1.draft.current) s1.looped = .ok holds s2 ∧
      body (scope.branching s1.draft.current)
        (s2.passed (loopExit s1.bodyLabel s1.afterLabel holds) s1.bodyLabel) = .ok b s3 ∧
      keepValue b.value s3 = .ok cells s4 ∧
      step (scope.branching s1.draft.current) (s4.passed (.jump s1.stepLabel) s1.stepLabel) =
        .ok w s5 ∧
      finishLoop s1.draft.current s1.afterLabel cells (s5.ended (.jump s1.conditionLabel)) =
        .ok r s' := by
  unfold lowerLoop at h
  obtain ⟨u, s1, h1, h⟩ := bind_eq_ok.mp h
  rw [bind_ok (currentBlock_run _), bind_ok (addBlock_run _ _), bind_ok (addBlock_run _ _),
    bind_ok (addBlock_run _ _), bind_ok (addBlock_run _ _), bind_ok (terminate_run _ _),
    bind_ok (enter_run _ _)] at h
  obtain ⟨holds, s2, h2, h⟩ := bind_eq_ok.mp h
  rw [bind_ok (terminate_run _ _), bind_ok (enter_run _ _)] at h
  obtain ⟨b, s3, h3, h⟩ := bind_eq_ok.mp h
  obtain ⟨cells, s4, h4, h⟩ := bind_eq_ok.mp h
  rw [bind_ok (terminate_run _ _), bind_ok (enter_run _ _)] at h
  obtain ⟨w, s5, h5, h⟩ := bind_eq_ok.mp h
  rw [bind_ok (terminate_run _ _)] at h
  exact ⟨u, s1, holds, s2, b, s3, cells, s4, w, s5, h1, h2, h3, h4, h5, h⟩

/-! ### Functions -/

/-- The names of the parameters in the function for a definition. -/
def Definition.paramNames (d : Definition) : List String :=
  (((openNames (d.params.map fun _ => .double)).2.register "entry").2.registerAll d.params).1

/-- The function for a definition before its body is lowered. -/
def Definition.draft (d : Definition) : Draft :=
  let (entry, names) := (openNames (d.params.map fun _ => .double)).2.register "entry"
  { names := (names.registerAll d.params).2, blocks := [{ label := entry }], current := entry }

/-- The scope of a body. -/
def Definition.bodyScope (d : Definition) : Scope :=
  { params := Table.ofList
      (d.params.zip ((Definition.paramNames d).map fun p => .register p .double)) }

namespace State

/-- The name under which a function is added to the module. -/
def functionName (s : State) (name : String) : String := (s.globalNames.register ("fn_" ++ name)).1

/-- With a function declared that has no blocks yet. -/
def declared (s : State) (name : String) (d : Definition) : State :=
  { s with
    globals := s.globals ++ [.function {
      signature := Definition.signature d (s.functionName name)
      params := (openNames (d.params.map fun _ => .double)).1 }]
    globalNames := (s.globalNames.register ("fn_" ++ name)).2
    functions := s.functions.insert name (Definition.signature d (s.functionName name)) }

/-- With the blocks of a function given. -/
def closed (s : State) (name : String) (params : List String) (blocks : List Block) : State :=
  { s with globals := s.globals.map fun
    | .function f => .function (if f.signature.name = name then { f with params, blocks } else f)
    | g => g }

end State

theorem globalName_run (wanted : String) (s : State) :
    globalName wanted s = .ok (s.globalNames.register wanted).1
      { s with globalNames := (s.globalNames.register wanted).2 } := rfl

theorem addGlobal_run (g : Global) (s : State) :
    addGlobal g s = .ok ⟨⟩ { s with globals := s.globals ++ [g] } := rfl

/-- What follows the body of a function. -/
def closeFunction (d : Definition) (callee : Signature) (outer : Draft) (body : Lowered) :
    Lower Signature := do
  returnValue body.value d.returns
  defineFunction callee.name (Definition.paramNames d) (← get).draft.blocks
  modify fun s => { s with draft := outer }
  pure callee

theorem emitFunction_run (name : String) (d : Definition) (lowerBody : Scope → Lower Lowered)
    (s : State) :
    emitFunction name d lowerBody s =
      (lowerBody (Definition.bodyScope d) >>=
          closeFunction d (Definition.signature d (s.functionName name)) s.draft)
        { s.declared name d with draft := Definition.draft d } := by
  unfold emitFunction
  rw [bind_ok (globalName_run _ _)]
  dsimp only
  rw [bind_ok (addGlobal_run _ _), bind_ok (modify_run _ _), bind_ok (get_run _),
    bind_ok (modify_run _ _)]
  rfl

theorem emitFunction_inv {lowerBody : Scope → Lower Lowered}
    (h : emitFunction name d lowerBody s = .ok callee s') :
    ∃ b s1 s2,
      lowerBody (Definition.bodyScope d)
        { s.declared name d with draft := Definition.draft d } = .ok b s1 ∧
      returnValue b.value d.returns s1 = .ok ⟨⟩ s2 ∧
      callee = Definition.signature d (s.functionName name) ∧
      s' = { s2.closed (s.functionName name) (Definition.paramNames d) s2.draft.blocks with
        draft := s.draft } := by
  rw [emitFunction_run] at h
  obtain ⟨b, s1, h1, h⟩ := bind_eq_ok.mp h
  obtain ⟨⟨⟩, s2, h2, h⟩ := bind_eq_ok.mp h
  cases h
  exact ⟨b, s1, s2, h1, h2, rfl, rfl⟩

/-- The definition that is recorded for a function. -/
def State.definition (s : State) (name : String) (params : List String) (body : Node) :
    Definition :=
  ⟨params, body, (Prediction.predictFunction s.context {} {} name params body).1⟩

theorem lower_define {body : Node}
    (h : lower earlier scope (.define name params body) s = .ok r s') :
    ∃ callee, emitFunction name (s.definition name params body)
        (fun inner => lower earlier inner body)
        { s with context := s.context.addFunction name (s.definition name params body) } =
          .ok callee s' ∧
      r = {} := by
  simp only [lower] at h
  rw [bind_ok (get_run s), bind_ok (set_run _ _)] at h
  obtain ⟨callee, s1, h1, h⟩ := bind_eq_ok.mp h
  cases h
  exact ⟨callee, h1, rfl⟩

theorem lower_random {low high : Node} (h : lower earlier scope (.random low high) s = .ok r s') :
    ∃ drawn s1, emit (.call randomInt []) "randcall" s = .ok drawn s1 ∧
      ((r = { value := some ⟨drawn, .int⟩ } ∧ s' = s1) ∨
        ∃ l s2 h' s3 t, lower earlier scope low s1 = .ok l s2 ∧
          lower earlier scope high s2 = .ok h' s3 ∧
          randomBetween drawn l.value h'.value s3 = .ok t s' ∧ r = { value := some t }) := by
  simp only [lower] at h
  obtain ⟨drawn, s1, h1, h⟩ := bind_eq_ok.mp h
  refine ⟨drawn, s1, h1, ?_⟩
  split at h
  · cases h
    exact .inl ⟨rfl, rfl⟩
  · obtain ⟨l, s2, h2, h⟩ := bind_eq_ok.mp h
    obtain ⟨h', s3, h3, h⟩ := bind_eq_ok.mp h
    obtain ⟨t, s4, h4, h⟩ := bind_eq_ok.mp h
    cases h
    exact .inr ⟨l, s2, h', s3, t, h2, h3, h4, rfl⟩

end Lowering
end DualEngine
