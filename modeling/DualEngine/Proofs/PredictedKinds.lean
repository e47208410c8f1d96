import DualEngine.Proofs.Canonical
import DualEngine.Proofs.Changes
import DualEngine.Proofs.Invariants

/-! # Evaluation gives what was predicted

The kind of a value is not decided before it is computed, and yet it is the predicted one as long as
no branch and no loop decides what is bound. Expressions bind no names: what they change are values
of variables, not the kinds. So the kinds recorded by the evaluation follow those of the prediction
from one statement to the next.
-/
namespace DualEngine

/-! ## Trees without branches -/

namespace Node

mutual

/-- No branch and no loop stands in the tree, bodies of functions apart. -/
def isBranchFree : Node → Bool
  | .branch .. | .loop .. => false
  | .sequence nodes | .call _ nodes | .array nodes => areBranchFree nodes
  | .binary left _ right | .comparison left _ right | .random left right =>
    left.isBranchFree && right.isBranchFree
  | .assign _ expression | .print expression => expression.isBranchFree
  | _ => true

def areBranchFree : List Node → Bool
  | [] => true
  | node :: rest => node.isBranchFree && areBranchFree rest

end

theorem areBranchFree_iff (nodes : List Node) :
    areBranchFree nodes = true ↔ ∀ node ∈ nodes, node.isBranchFree = true := by
  induction nodes with
  | nil => simp [areBranchFree]
  | cons node rest ih => simp [areBranchFree, ih]

end Node

/-! ## Kinds of operations -/

namespace Value

variable {op : ArithOp} {v : Value}

theorem kind_intArithmetic {l r : Int} (h : intArithmetic op l r = .ok v) : v.kind = .int := by
  cases op with
  | div =>
    simp only [intArithmetic] at h
    split at h <;> cases h
    rfl
  | other symbol => cases h
  | _ =>
    cases h
    rfl

theorem kind_floatArithmetic {l r : Float} (h : floatArithmetic op l r = .ok v) :
    v.kind = .float := by
  cases op with
  | div =>
    simp only [floatArithmetic] at h
    split at h <;> cases h
    rfl
  | other symbol => cases h
  | _ =>
    cases h
    rfl

theorem kind_joinTexts {l r : Value} (h : joinTexts l op r = .ok v) :
    op = .add ∧ l.kind.isScalar = true ∧ r.kind.isScalar = true ∧ v.kind = .string := by
  unfold joinTexts at h
  split at h
  · cases h
  split at h
  · cases h
  split at h <;> cases h
  simp_all [kind]

/-- Where an operator takes two values, it takes their kinds. -/
theorem kind_arithmetic {l r : Value} (h : l.arithmetic op r = .ok v) :
    l.kind.arithmetic? op r.kind = some v.kind := by
  unfold arithmetic at h
  split at h
  · rw [kind_intArithmetic h]
    rfl
  · rw [kind_floatArithmetic h]
    rfl
  · rw [kind_floatArithmetic h]
    rfl
  · rw [kind_floatArithmetic h]
    rfl
  · split at h
    · rename_i hstring
      obtain ⟨rfl, hl, hr, hv⟩ := kind_joinTexts h
      rw [hv]
      cases l <;> cases r <;> simp_all [kind, Kind.arithmetic?, Kind.isNumeric, Kind.isScalar]
    · cases h

end Value

namespace Evaluator
open Prediction Lowering

/-! ## What expressions keep -/

/-- The kinds of all names and the functions are as in the state `s0`. -/
structure KeepsKinds (s0 s : State) : Prop where
  bounded : s.Bounded
  names : ∀ x, (s.context.get? x).map Symbol.kind = (s0.context.get? x).map Symbol.kind
  functions : ∀ f, s.context.getFunction? f = s0.context.getFunction? f

theorem Context.Bounded.kind_of_value? {c : Context Value} (h : c.Bounded) {x : String} {v : Value}
    (hx : c.value? x = some v) : (c.get? x).map Symbol.kind = some v.kind := by
  obtain ⟨sym, hsym, rfl⟩ := Option.map_eq_some_iff.mp hx
  rw [hsym]
  exact congrArg some (h (x, sym) (Table.mem_of_get? hsym)).1

theorem invariant_keepsKinds {s0 : State} (hf : s0.context.FunctionsAvoid bindingForms) :
    Invariant (KeepsKinds s0) (·.Avoids bindingForms) where
  bounded h := h.bounded
  child hq hc := hq.child hc
  body h hd := hf _ _ ((h.functions _).symm.trans hd)
  assign hq := absurd (show "Assign" ∈ bindingForms by decide) hq.self
  step {s x m n} h hx hn := by
    refine ⟨invariant_bounded.step h.bounded hx hn, fun y => ?_, h.functions⟩
    rw [← h.names y]
    simp only [State.commit, Context.get?, Context.add, Table.get?_insert]
    split
    · rename_i hxy
      subst hxy
      exact (Context.Bounded.kind_of_value? h.bounded hx).symm
    · rfl
  prints _ h := ⟨h.bounded, h.names, h.functions⟩
  draws _ h := ⟨h.bounded, h.names, h.functions⟩
  defines hq := absurd (show "FunctionDef" ∈ bindingForms by decide) hq.self

/-! ## Evaluation and prediction side by side -/

/-- The prediction that started from the context `c` knows what the state records. -/
structure Predicted (c : Context Value) (p : Prediction.State) (s : State) : Prop where
  alike : Alike c p s.context {}
  bounded : s.Bounded
  calm : s.context.FunctionsAvoid bindingForms

variable {c : Context Value} {p : Prediction.State} {s s' : State} {v : Value} {fuel : Nat}

theorem Predicted.name (h : Predicted c p s) (x : String) :
    name? c p x = (s.context.get? x).map Symbol.kind := h.alike.names x

theorem Predicted.function (h : Predicted c p s) (f : String) :
    function? c p f = (s.context.getFunction? f).map Definition.returns := h.alike.functions f

/-- What binds nothing leaves the kinds as they were predicted. -/
theorem Predicted.eval (h : Predicted c p s) {node : Node} (hn : node.Avoids bindingForms)
    {frame : Frame} (he : eval fuel frame node s = .ok v s') : Predicted c p s' := by
  have hkeeps := ((invariant_keepsKinds h.calm).eval fuel frame hn s
    ⟨h.bounded, fun _ => rfl, fun _ => rfl⟩).1
  rw [he] at hkeeps
  refine ⟨⟨fun x => ?_, fun f => ?_⟩, hkeeps.bounded, fun f d hd => ?_⟩
  · exact (h.name x).trans (hkeeps.names x).symm
  · exact (h.function f).trans (congrArg _ (hkeeps.functions f).symm)
  · exact h.calm f d ((hkeeps.functions f).symm.trans hd)

theorem randomBetween_kind {l r : Value} (h : randomBetween l r s = .ok v s') : v.kind = .int := by
  cases l with
  | int low =>
    cases r with
    | int high =>
      simp only [randomBetween] at h
      split at h <;> cases h
      rfl
    | _ => cases h
  | _ => cases h

/-- The value of an expression has the predicted kind. -/
theorem kind_expression {node : Node} (hn : node.isExpression = true) (hp : Predicted c p s)
    (h : eval fuel {} node s = .ok v s') : v.kind = (predict c node p).1 := by
  induction fuel generalizing node s s' v with
  | zero => cases h
  | succ fuel ih =>
    have hform := ((Node.isExpression_iff node).mp hn).1
    have part (child : Node) (hc : child ∈ node.children) : child.isExpression = true :=
      Node.isExpression_child hn hc
    cases node with
    | sequence | assign | branch | loop | define => simp [Node.isStatementForm] at hform
    | number n | float x | string t | boolean flag =>
      cases h
      rfl
    | identifier x =>
      have hlook : lookup {} x s = .ok v s' := h
      obtain ⟨rfl, ⟨y, hy, -⟩ | ⟨-, hx⟩⟩ := lookup_ok hlook
      · cases hy
      · simp only [predict, nameKind_eq, hp.name, Context.Bounded.kind_of_value? hp.bounded hx,
          Option.getD_some]
    | binary left op right =>
      obtain ⟨l, s1, r, h1, h2, h3⟩ := eval_binary_ok h
      have hleft := part left (by simp [Node.children])
      have hright := part right (by simp [Node.children])
      have hl := ih hleft hp h1
      have hr := ih hright (hp.eval (avoids_bindingForms hleft) h1) h2
      have hk := Value.kind_arithmetic h3
      rw [hl, hr] at hk
      simp only [predict, predict_expression hleft, hk, Option.getD_some]
    | comparison left op right =>
      obtain ⟨l, s1, r, flag, -, -, -, rfl⟩ := eval_comparison_ok h
      rfl
    | increment x | decrement x =>
      obtain ⟨-, n, -, rfl, -⟩ := stepVariable_ok h
      rfl
    | print e =>
      obtain ⟨s1, h1, -⟩ := eval_print_ok h
      simp only [predict]
      exact ih (part _ (by simp [Node.children])) hp h1
    | random low high =>
      rw [eval] at h
      split at h
      · cases h
        rfl
      · obtain ⟨l, s1, -, h⟩ := bind_eq_ok.mp h
        obtain ⟨r, s2, -, h⟩ := bind_eq_ok.mp h
        exact randomBetween_kind h
    | call name args =>
      obtain ⟨d, inner, s1, u, hd, -, -, -, rfl⟩ := eval_call_ok h
      have hargs : (predictAll c args .none p).2 = p :=
        predictAll_expressions (fun arg ha q => predict_expression (part arg ha) q) .none p
      simp only [predict, hargs, functionKind_eq, hp.function, hd, Option.map_some,
        Option.getD_some]
      exact kind_coerce u d.returns
    | array nodes =>
      obtain ⟨vs, ns, -, -, rfl⟩ := eval_array_ok h
      rfl
    | missing => cases h
    | bare => cases h

/-! ## Statements -/

theorem Predicted.assign (hp : Predicted c p s) {x : String} (hv : v.Bounded)
    (hk : v.kind ≠ .none) :
    Predicted c (Prediction.declare p x v.kind) (s.commit (s.context.add x v v.kind)) := by
  refine ⟨⟨fun y => ?_, fun f => ?_⟩, hp.bounded.add x hv hk, hp.calm⟩
  · have hy := hp.name y
    rw [Prediction.declare, if_neg hk]
    simp only [name?, State.commit, Context.get?, Context.add, Table.get?_insert] at hy ⊢
    split
    · rfl
    · exact hy
  · rw [Prediction.declare, if_neg hk]
    exact hp.alike.functions f

theorem context_define (name : String) (params : List String) (body : Node) (s : State) :
    (final (define name params body s)).context = s.context.addFunction name
      ⟨params, body, (predictFunction s.context {} {} name params body).1⟩ := rfl

/-- A definition is recorded with the return kind that the prediction has for it. -/
theorem Predicted.define (hp : Predicted c p s) {name : String} {params : List String}
    {body : Node} (hb : body.Avoids bindingForms) :
    Predicted c (predict c (.define name params body) p).2 (final (define name params body s)) := by
  have hkind : (returnKind (predict c body) name params p.names p.functions p.settled).1 =
      (predictFunction s.context {} {} name params body).1 :=
    returnKind_alike name params (fun {q q'} hq => predict_alike body hq) hp.alike p.settled []
  refine ⟨⟨hp.alike.names, fun f => ?_⟩, hp.bounded, fun f d hd => ?_⟩
  · have hf := hp.function f
    simp only [predict, function?, context_define, Context.getFunction?, Context.addFunction,
      Table.get?_insert, hkind] at hf ⊢
    split
    · rfl
    · exact hf
  · rw [context_define] at hd
    simp only [Context.getFunction?, Context.addFunction, Table.get?_insert] at hd
    split at hd
    · cases hd
      exact hb
    · exact hp.calm f d hd

/-- Statements one after the other: the kind is that of the last value. -/
theorem kind_inOrder {f : Node → Eval Value} {nodes : List Node}
    (hnode : ∀ node ∈ nodes, ∀ p s s' v, Predicted c p s → f node s = .ok v s' →
      v.kind = (predict c node p).1 ∧ Predicted c (predict c node p).2 s')
    (hp : Predicted c p s) (last : Value) (h : inOrder f nodes last s = .ok v s') :
    v.kind = (predictAll c nodes last.kind p).1 ∧
      Predicted c (predictAll c nodes last.kind p).2 s' := by
  induction nodes generalizing p s last with
  | nil =>
    cases h
    exact ⟨rfl, hp⟩
  | cons node rest ih =>
    obtain ⟨u, s1, h1, h2⟩ := bind_eq_ok.mp h
    obtain ⟨hu, hp1⟩ := hnode node List.mem_cons_self p s s1 u hp h1
    simp only [predictAll, ← hu]
    exact ih (fun n hn => hnode n (List.mem_cons_of_mem _ hn)) hp1 _ h2

/-- The value of a statement has the predicted kind, and so have all names afterwards. -/
theorem kind_statement {node : Node} (hn : node.isStatement = true)
    (hfree : node.isBranchFree = true) (hf : node.FunctionsAvoid bindingForms)
    (hp : Predicted c p s) (h : eval fuel {} node s = .ok v s') :
    v.kind = (predict c node p).1 ∧ Predicted c (predict c node p).2 s' := by
  induction fuel generalizing node p s s' v with
  | zero => cases h
  | succ fuel ih =>
    cases hform : node.isStatementForm with
    | false =>
      have he := Node.isExpression_of_isStatement hn hform
      rw [predict_expression he]
      exact ⟨kind_expression he hp h, hp.eval (avoids_bindingForms he) h⟩
    | true =>
      cases node with
      | sequence statements =>
        simp only [predict]
        refine kind_inOrder (fun node hm p s s' v hp h => ?_) hp .none h
        exact ih ((Node.areStatements_iff _).mp hn node hm)
          ((Node.areBranchFree_iff _).mp hfree node hm) (hf.child hm) hp h
      | assign x e =>
        obtain ⟨s1, h1, -, hk, rfl⟩ := eval_assign_ok h
        have hv := kind_expression hn hp h1
        have hp1 := hp.eval (avoids_bindingForms hn) h1
        have hbounded := (stays_eval fuel {} e s hp.bounded).2 v s1 h1
        simp only [predict, predict_expression hn, ← hv]
        exact ⟨trivial, hp1.assign hbounded hk⟩
      | branch => cases hfree
      | loop => cases hfree
      | define name params body =>
        cases h
        exact ⟨rfl, hp.define hf.body⟩
      | _ => cases hform

/-- Where a submission without branches and loops succeeds, its value has the predicted kind, and
every variable is then recorded with the kind that the prediction has for its name. -/
theorem kind_eq_predicted {source : String} {node : Node} (hs : s.Reachable)
    (hparse : parse source = .ok node) (hfree : node.isBranchFree = true)
    (hnode : node.FunctionsAvoid bindingForms) (hc : s.context.FunctionsAvoid bindingForms)
    (h : run fuel node s = (.ok v, s')) :
    v.kind = predictResult s.context node ∧
      ∀ x sym, s'.context.get? x = some sym →
        sym.kind = nameKind s.context (predict s.context node {}).2 x := by
  have heval : eval fuel {} node s = .ok v s' := eval_of_run h
  have hstart : Predicted s.context {} s := ⟨⟨fun _ => rfl, fun _ => rfl⟩, hs.bounded, hc⟩
  obtain ⟨hv, hp⟩ := kind_statement (isStatement_of_parse hparse) hfree hnode hstart heval
  refine ⟨hv, fun x sym hx => ?_⟩
  rw [nameKind_eq, hp.name x, hx]
  rfl

/-- A submission that retypes a variable, defines a function that steps it, and calls the
function. -/
theorem stepping_call_kind :
    ∃ (s s' : State) (node : Node), s.Reachable ∧
      parse "x = 1; def f(n) { if (true) { x++ } else { x } }; y = f(2); print(\"a\" + y)" =
        .ok node ∧ node.isBranchFree = true ∧ node.FunctionsAvoid bindingForms ∧
      s.context.FunctionsAvoid bindingForms ∧
      (s.context.get? "x").map Symbol.kind = some .string ∧
      run 9 node s = (.ok (.string "a2"), s') ∧ predictResult s.context node = .string ∧
      ∀ x sym, s'.context.get? x = some sym →
        sym.kind = nameKind s.context (predict s.context node {}).2 x := by
  let node : Node := .sequence [.assign "x" (.number 1),
    .define "f" ["n"] (.sequence [.branch (.boolean true) (.sequence [.increment "x"])
      (.sequence [.identifier "x"])]),
    .assign "y" (.call "f" [.number 2]),
    .print (.binary (.string "a") .add (.identifier "y"))]
  have hs := State.Reachable.submit (.start ⟨#[], 0⟩) 9 (.sequence [.assign "x" (.string "b")])
  have hparse : parse "x = 1; def f(n) { if (true) { x++ } else { x } }; y = f(2); print(\"a\" + y)" =
      .ok node := by cbv
  have hnode : node.FunctionsAvoid bindingForms := by decide
  have hfunctions : (run 9 (.sequence [.assign "x" (.string "b")])
      { generator := ⟨#[], 0⟩ }).2.context.functions.entries = [] := by cbv
  have hkind : ((run 9 (.sequence [.assign "x" (.string "b")])
      { generator := ⟨#[], 0⟩ }).2.context.get? "x").map Symbol.kind = some .string := by cbv
  have hvalue : (run 9 node (run 9 (.sequence [.assign "x" (.string "b")])
      { generator := ⟨#[], 0⟩ }).2).1 = .ok (.string "a2") := by cbv
  generalize (run 9 (.sequence [.assign "x" (.string "b")]) { generator := ⟨#[], 0⟩ }).2 = s at *
  have hc : s.context.FunctionsAvoid bindingForms := by
    intro f d hd
    rw [Context.getFunction?, Table.get?, hfunctions] at hd
    cases hd
  have hrun : run 9 node s = (.ok (.string "a2"), (run 9 node s).2) := Prod.ext hvalue rfl
  obtain ⟨hv, hnames⟩ := kind_eq_predicted hs hparse (by decide) hnode hc hrun
  exact ⟨s, _, node, hs, hparse, by decide, hnode, hc, hkind, hrun, hv.symm, hnames⟩

end Evaluator
end DualEngine
