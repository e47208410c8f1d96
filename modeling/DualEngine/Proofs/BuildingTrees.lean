import DualEngine.Proofs.BuildingFunctions

/-! # Sound code for trees

Whatever statement is lowered, the function under construction stays sound, and the result may be
used where lowering has got to. No function may be defined inside the body of another one. So the
function that a call finds is still the one that the context defines after its arguments are
lowered.
-/
namespace DualEngine.Lowering
open IR Scaffold

variable {F : Form} {w : Scaffold} {moves : Prop} {scope : Scope} {earlier : Earlier}
  {s s' : State} {node : Node}

theorem Builds.ran {α : Type} {m : Lower α} {Q : α → Scaffold → Prop} (h : Builds F moves w m Q) :
    Builds F moves w m fun a w' => Q a w' ∧ m w.state = .ok a w'.state := by
  intro hw
  obtain ⟨hok, herror⟩ := h hw
  refine ⟨fun a s' hrun => ?_, herror⟩
  obtain ⟨w', rfl, hw', hon, ha⟩ := hok a s' hrun
  exact ⟨w', rfl, hw', hon, ha, hrun⟩

/-- Only what the computation does here matters. -/
theorem Builds.of_eq {α : Type} {m m' : Lower α} {Q : α → Scaffold → Prop}
    (h : Builds F moves w m Q) (heq : m' w.state = m w.state) : Builds F moves w m' Q := by
  intro hw
  rw [heq]
  exact h hw

/-! ## Calls -/

/-- The functions of earlier submissions are put into the module as the context defines them. -/
def Earlier.Sound (earlier : Earlier) : Prop :=
  ∀ F w name d, w.state.context.getFunction? name = some d →
    Builds F True w (earlier name d) fun callee w' => HasFunction w'.state.globals callee ∧
      ∃ irName, callee = Definition.signature d irName

/-- Variables may be bound, and functions may not. -/
def Grant.variables : Grant := ⟨Set.univ, ∅⟩

theorem Changes.getFunction?_eq (h : Changes .variables s s') (name : String) :
    s'.context.getFunction? name = s.context.getFunction? name := by
  induction h with
  | refl => rfl
  | tail _ hc ih =>
    refine Eq.trans ?_ ih
    cases hc with
    | define _ hf => exact absurd hf (Set.notMem_empty _)
    | _ => rfl

theorem covers_variables (h : node.Avoids ["FunctionDef"]) : Grant.variables.Covers node := by
  refine ⟨fun _ _ => Set.mem_univ _, ?_⟩
  rw [h.defined_eq_nil (by decide)]
  simp

theorem avoids_functionDef (h : node.isExpression = true) : node.Avoids ["FunctionDef"] :=
  (avoids_bindingForms h).mono (by simp [bindingForms])

theorem Consistent.coversAll (h : Consistent F s) : Grant.variables.CoversAll s.context :=
  fun name d hd => covers_variables (h.bodies name d hd).avoids

theorem builds_callFunction {callee : Signature} {d : Definition} {irName : String}
    {args : List Operand} (hf : HasFunction w.state.globals callee)
    (hc : callee = Definition.signature d irName) (hlength : args.length = d.params.length)
    (hargs : ∀ o ∈ args, w.Has F o .double) :
    Builds F moves w (callFunction callee d.returns args) fun v w' => Bears F w' v := by
  have htyped : (Operation.call callee args).WellTyped := by
    subst hc
    show args.map Operand.type = d.params.map fun _ => Ty.double
    rw [List.map_const', ← hlength]
    exact List.map_eq_replicate_iff.mpr fun o ho => (hargs o ho).2
  have hreach : ∀ o ∈ args, w.Reaches F w.current o := fun o ho => (hargs o ho).1
  have hreturns : callee.returns = irType d.returns := by rw [hc]; rfl
  unfold callFunction
  split
  · exact (builds_call hf hreach htyped _).bind fun _ _ _ _ => builds_pure bears_none
  · rename_i hk
    exact (builds_call hf hreach htyped _).bind fun o w' _ ho =>
      builds_pure (bears_some (hreturns ▸ ho) hk)

/-! ## Lists of trees -/

section
variable {nodes : List Node}

theorem builds_lowerAll (h : ∀ node ∈ nodes, Part F fun scope => lower earlier scope node)
    (hg : Ground F scope w) {last : Lowered} (hlast : Result F w last) :
    Builds F True w (lowerAll earlier scope nodes last) fun r w' => Result F w' r := by
  induction nodes generalizing w last with
  | nil => exact builds_pure hlast
  | cons node rest ih =>
    exact (h node List.mem_cons_self w scope hg).bind fun r w1 h1 hr =>
      ih (fun n hn => h n (List.mem_cons_of_mem _ hn)) (hg.on h1) hr

theorem builds_lowerElements (h : ∀ node ∈ nodes, Part F fun scope => lower earlier scope node)
    (hg : Ground F scope w) :
    Builds F True w (lowerElements earlier scope nodes) fun os w' => ∀ o ∈ os, w'.Has F o .i32 := by
  induction nodes generalizing w with
  | nil => exact builds_pure (by simp)
  | cons node rest ih =>
    refine (h node List.mem_cons_self w scope hg).bind fun r w1 h1 hr => ?_
    split
    · rename_i o hvalue
      have ho : w1.Has F o .i32 := (hr.value _ hvalue).1
      refine (ih (fun n hn => h n (List.mem_cons_of_mem _ hn)) (hg.on h1)).bind fun os w2 h2 hos =>
        builds_pure ?_
      simpa using ⟨ho.on h2, hos⟩
    · exact builds_mismatch

theorem builds_lowerArguments (h : ∀ node ∈ nodes, Part F fun scope => lower earlier scope node)
    (hg : Ground F scope w) (function : String) {params : List String}
    (hlength : nodes.length = params.length) :
    Builds F True w (lowerArguments earlier scope function params nodes) fun os w' =>
      os.length = params.length ∧ ∀ o ∈ os, w'.Has F o .double := by
  induction nodes generalizing w params with
  | nil =>
    cases params with
    | nil => exact builds_pure (by simp)
    | cons param params => cases hlength
  | cons node rest ih =>
    cases params with
    | nil => cases hlength
    | cons param params =>
      refine (h node List.mem_cons_self w scope hg).bind fun r w1 h1 hr => ?_
      split
      · rename_i t hvalue
        split
        · rename_i hnumeric
          refine (builds_toFloat (hr.value t hvalue).1 (numeric_cases hnumeric)).bind
            fun o w2 h2 ho => ?_
          refine (ih (fun n hn => h n (List.mem_cons_of_mem _ hn)) ((hg.on h1).on h2)
            (Nat.succ.inj hlength)).bind fun os w3 h3 ⟨hos, hargs⟩ => builds_pure ⟨?_, ?_⟩
          · simp [hos]
          · simpa using ⟨ho.on h3, hargs⟩
        · exact builds_mismatch
      · exact builds_mismatch

end

/-! ## Trees -/

theorem builds_lower (he : earlier.Sound) (hm : earlier.Makes .variables) (node : Node)
    (hs : node.isStatement = true) (hf : node.FunctionsAvoid ["FunctionDef"]) (F : Form) :
    Part F fun scope => lower earlier scope node := by
  induction node using Node.induction generalizing F with
  | h node ih =>
  intro w scope hg
  have part {child : Node} (hc : child ∈ node.children) (F : Form) :
      Part F fun scope => lower earlier scope child :=
    ih child hc (Node.isStatement_child hs hc) (hf.child hc) F
  have ifPresent {child : Node} (hc : child ∈ node.children) :
      Part F fun scope => if child.isMissing then pure {} else lower earlier scope child := by
    intro w scope hg
    dsimp only
    split
    · exact builds_pure .none
    · exact part hc F w scope hg
  have result {α : Type} {m : Lower α} {f : α → Typed} {w : Scaffold}
      (h : Builds F True w m fun a w' => Bears F w' (some (f a))) :
      Builds F True w (do return { value := some (f (← m)) }) fun r w' => Result F w' r :=
    h.bind fun a w' _ ha => builds_pure (.of_value ha)
  cases node with
  | sequence statements => exact builds_lowerAll (fun n hn => part hn F) hg .none
  | number n => exact builds_pure (.of_value (bears_some (has_int32 _) (by decide)))
  | float x => exact builds_pure (.of_value (bears_some (has_double x) (by decide)))
  | string t =>
    exact (builds_textConstant t (by decide)).bind fun o w' _ ho =>
      builds_pure (.of_value (bears_some ho (by decide)))
  | boolean b => exact builds_pure (.of_value (bears_some (has_int _ (by decide)) (by decide)))
  | identifier name => exact result (builds_loadName hg name)
  | binary left op right =>
    cases op with
    | other symbol => exact builds_fail rfl
    | _ =>
      refine (part (by simp [Node.children]) F w scope hg).bind fun l w1 h1 hl => ?_
      refine (part (by simp [Node.children]) F w1 scope (hg.on h1)).bind fun r w2 h2 hr => ?_
      exact result (builds_arithmetic (hl.value.on h2) _ hr.value)
  | comparison left op right =>
    cases op with
    | other symbol => exact builds_fail rfl
    | _ =>
      refine (part (by simp [Node.children]) F w scope hg).bind fun l w1 h1 hl => ?_
      refine (part (by simp [Node.children]) F w1 scope (hg.on h1)).bind fun r w2 h2 hr => ?_
      exact result (builds_comparison (hl.value.on h2) _ hr.value)
  | assign name expression =>
    simp only [lower]
    split
    · exact builds_mismatch_bind
    · refine (part (by simp [Node.children]) F w scope hg).bind fun e w1 h1 he => ?_
      exact result (builds_assign (hg.on h1) name he.value)
  | increment name | decrement name => exact result (builds_stepVariable name (by decide))
  | branch condition thenPart elsePart =>
    exact builds_lowerBranch hg (part (by simp [Node.children]) F w scope hg)
      (part (by simp [Node.children]) F) (ifPresent (by simp [Node.children]))
  | loop start condition step body =>
    refine builds_lowerLoop hg ((ifPresent (by simp [Node.children]) w scope hg).imp
      fun _ _ _ _ => trivial) (fun w inner hg => ?_) (ifPresent (by simp [Node.children]))
      (part (by simp [Node.children]) F)
    split
    · exact builds_pure (by simp)
    · refine (part (by simp [Node.children]) F w inner hg).bind fun c w1 h1 hc => ?_
      exact (builds_truth hc.value).bind fun o w2 _ ho => builds_pure (by simpa using ho)
  | print expression =>
    refine (part (by simp [Node.children]) F w scope hg).bind fun e w1 h1 he => ?_
    have hg1 := hg.on h1
    exact (builds_printValue hg1.live hg1.entry he.value).bind fun _ w2 h2 _ =>
      builds_pure (.of_value (he.value.on h2))
  | random low high =>
    refine (builds_library (by decide) (by simp) (by simp [Operation.WellTyped, randomInt]) _).bind
      fun drawn w1 h1 hd => ?_
    split
    · exact builds_pure (.of_value (bears_some hd (by decide)))
    · refine (part (by simp [Node.children]) F w1 scope (hg.on h1)).bind fun l w2 h2 hl => ?_
      refine (part (by simp [Node.children]) F w2 scope ((hg.on h1).on h2)).bind
        fun r w3 h3 hr => ?_
      exact result (builds_randomBetween ((hd.on h2).on h3) (hl.value.on h3) hr.value)
  | define name params body =>
    set d := w.state.definition name params body
    set c := w.state.context.addFunction name d
    have hfunction (f : String) : c.getFunction? f =
        if name = f then some d else w.state.context.getFunction? f := Table.get?_insert _ _ _ _
    have hchange : Change .everything w.state { w.state with context := c } :=
      .define _ name (Set.mem_univ _) (Grant.everything_covers body)
    have hemit : Builds F True w (fun s => emitFunction name d
        (fun inner => lower earlier inner body) { s with context := c }) _ :=
      builds_emitFunction (fun _ => rfl) ((hfunction name).trans (if_pos rfl))
        (fun f hne => (hfunction f).trans (if_neg (Ne.symm hne))) ⟨hs, hf.body⟩ (.single hchange)
        (part (by simp [Node.children]) (F.within d))
    exact (hemit.bind fun _ w' _ _ => builds_pure (.none : Result F w' {})).of_eq rfl
  | call name args =>
    have hargs : ∀ node ∈ args, node.isExpression = true := fun node hn =>
      Node.isExpression_child (Node.isExpression_of_isStatement hs rfl) hn
    refine builds_get fun hw => ?_
    cases hd : w.state.context.getFunction? name with
    | none => exact builds_fail rfl
    | some d =>
      dsimp only
      split
      · rename_i hlength
        refine (builds_lowerArguments (fun n hn => part hn F) hg name hlength).ran.bind
          fun os w1 h1 hargs1 => builds_get fun hw1 => ?_
        obtain ⟨⟨hos, hdouble⟩, hrun⟩ := hargs1
        -- the context still defines the function as it did before the arguments
        have hchanges : Changes .variables w.state w1.state :=
          (makes_of_admits (Discipline.admits_lowerArguments (fun n hn inner => (makes_lower hm n
            (covers_variables (avoids_functionDef (hargs n hn))) inner).admits) scope name
            d.params)).ok hw.consistent.coversAll hrun
        have hd1 := (hchanges.getFunction?_eq name).trans hd
        have hcall {callee : Signature} {w' : Scaffold} (h' : Onward True w1 w')
            (hf : HasFunction w'.state.globals callee)
            (hc : ∃ irName, callee = Definition.signature d irName) :
            Builds F True w' (do return { value := ← callFunction callee d.returns os })
              fun r w'' => Result F w'' r := by
          obtain ⟨irName, hc⟩ := hc
          exact (builds_callFunction hf hc hos fun o ho => (hdouble o ho).on h').bind
            fun v w'' _ hv => builds_pure (.of_value hv)
        cases hcallee : w1.state.functions.get? name with
        | some callee =>
          exact hcall (.refl w1) (hw1.consistent.callees name callee hcallee)
            (hw1.consistent.linked name d callee hd1 hcallee)
        | none => exact (he F w1 name d hd1).bind fun callee w2 h2 hc => hcall h2 hc.1 hc.2
      · exact builds_mismatch
  | array elements =>
    refine (builds_lowerElements (fun n hn => part hn F) hg).bind fun os w1 _ hos => ?_
    exact result (builds_buildArray hos)
  | missing | bare => exact builds_fail rfl

theorem functionsAvoid_of_avoids (h : node.Avoids ["FunctionDef"]) :
    node.FunctionsAvoid ["FunctionDef"] := by
  intro t ht body hbody
  cases t with
  | define name params body => exact absurd (by simp [Node.shape]) (h _ ht)
  | _ => cases hbody

/-- Functions of earlier submissions, however deep they call each other. -/
theorem sound_emitEarlier (depth : Nat) : (emitEarlier depth).Sound := by
  induction depth with
  | zero => exact fun F w name d _ => builds_fail rfl
  | succ depth ih =>
    intro F w name d hd hw
    have hplain := hw.consistent.bodies name d hd
    have hbody := builds_lower ih (makes_emitEarlier .variables depth) d.body hplain.statement
      (functionsAvoid_of_avoids hplain.avoids) (F.within d)
    exact builds_emitFunction (fun _ => rfl) hd (fun _ _ => rfl) hplain .refl hbody hw

end DualEngine.Lowering
