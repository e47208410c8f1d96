import DualEngine.Proofs.IntegerWidth
import DualEngine.Proofs.Trees

/-! # Invariants of evaluation

What every step of evaluation keeps, whole evaluations keep, with a value or without one. An
invariant may be stated for a class of trees only; the functions that can be called must then have
bodies of this class. All integers that are computed have 32 bits.
-/
namespace DualEngine

namespace Evaluator

variable {condition : Eval Bool} {nodes : List Node} {s : State} {last v : Value}

/-- From a state in which `I` holds, the computation ends in such a state, and its result has the
property `P` if it gives one. -/
def Sustains {α : Type} (I : State → Prop) (P : α → Prop) (m : Eval α) : Prop :=
  ∀ s, I s → I (final (m s)) ∧ ∀ a t, m s = .ok a t → P a

section Sustains
variable {α β : Type} {I : State → Prop} {P : α → Prop} {Q : β → Prop} {f : Node → Eval Value}

theorem sustains_pure {a : α} (h : P a) : Sustains I P (pure a) := by
  intro s hs
  refine ⟨hs, fun b t hb => ?_⟩
  cases hb
  exact h

theorem sustains_throw (halt : Halt) : Sustains I P (throw halt : Eval α) :=
  fun _ hs => ⟨hs, fun _ _ h => nomatch h⟩

theorem Sustains.bind {m : Eval α} {f : α → Eval β} (hm : Sustains I P m)
    (hf : ∀ a, P a → Sustains I Q (f a)) : Sustains I Q (m >>= f) := by
  intro s hs
  obtain ⟨hfinal, hresult⟩ := hm s hs
  cases hr : m s with
  | error halt t =>
    rw [bind_error hr]
    rw [hr] at hfinal
    exact ⟨hfinal, fun _ _ h => nomatch h⟩
  | ok a t =>
    rw [bind_ok hr]
    rw [hr] at hfinal
    exact hf a (hresult a t hr) t hfinal

/-- What is read of the state may decide what follows. -/
theorem sustains_get {f : State → Eval α} (hf : ∀ s, I s → Sustains I P (f s)) :
    Sustains I P (get >>= f) := fun s hs => hf s hs s hs

/-- What is written keeps the invariant. -/
theorem sustains_write {f : State → State} (hf : ∀ s, I s → I (f s)) {a : α} (hp : P a) :
    Sustains I P (modify f >>= fun _ => pure a) := by
  intro s hs
  refine ⟨hf s hs, fun b t h => ?_⟩
  cases h
  exact hp

end Sustains

/-! ## One step -/

abbrev State.Bounded (s : State) : Prop := s.context.Bounded

/-- What evaluation of trees of the class `Q` keeps: every change that such a tree makes to the
state keeps `I`. -/
structure Invariant (I : State → Prop) (Q : Node → Prop) : Prop where
  bounded {s : State} : I s → s.Bounded
  child {node child : Node} : Q node → child ∈ node.children → Q child
  body {s : State} {f : String} {d : Definition} :
    I s → s.context.getFunction? f = some d → Q d.body
  assign {s : State} {x : String} {e : Node} {v : Value} : Q (.assign x e) → I s → v.Bounded →
    v.kind ≠ .none → I (s.commit (s.context.add x v v.kind))
  step {s : State} {x : String} {m n : Int} : I s → s.context.value? x = some (.int m) →
    Fits32 n → I (s.commit (s.context.add x (.int n) .int))
  prints {s : State} (out : String) : I s → I { s with out }
  draws {s : State} (generator : Random.Generator) : I s → I { s with generator }
  defines {s : State} {name : String} {params : List String} {body : Node} :
    Q (.define name params body) → I s → I (final (define name params body s))

variable {I : State → Prop} {Q : Node → Prop}

theorem Invariant.lookup (hI : Invariant I Q) (frame : Frame) (x : String) :
    Sustains I Value.Bounded (lookup frame x) := by
  unfold Evaluator.lookup
  cases frame.get? x with
  | some y => exact sustains_pure trivial
  | none =>
    refine sustains_get fun s hs => ?_
    cases hx : s.context.get? x with
    | none => exact sustains_throw _
    | some sym => exact sustains_pure ((hI.bounded hs).value hx)

theorem Invariant.store (hI : Invariant I Q) (frame : Frame) {x : String} {e : Node}
    (hq : Q (.assign x e)) (hv : v.Bounded) : Sustains I Value.Bounded (store frame x v) := by
  unfold Evaluator.store
  split
  · exact sustains_throw _
  split
  · exact sustains_throw _
  · exact sustains_write (fun s hs => hI.assign hq hs hv ‹_›) hv

/-- A step that fails has changed nothing. -/
theorem stepVariable_error {frame : Frame} {x : String} {delta : Int} {t : State} {halt : Halt}
    (h : stepVariable frame x delta s = .error halt t) : t = s := by
  rcases bind_eq_error.mp h with h | ⟨u, s1, h1, h⟩
  · unfold Evaluator.lookup at h
    cases hf : frame.get? x with
    | some y =>
      rw [hf] at h
      cases h
    | none =>
      rw [hf] at h
      obtain h | ⟨s1, s2, h1, h⟩ := bind_eq_error.mp h
      · cases h
      · cases h1
        cases hx : s.context.get? x with
        | none =>
          rw [hx] at h
          cases h
          rfl
        | some sym =>
          rw [hx] at h
          cases h
  · obtain ⟨rfl, -⟩ := lookup_ok h1
    cases u with
    | int n =>
      dsimp only [Evaluator.store] at h
      split at h
      · cases h
        rfl
      split at h <;> cases h
      rfl
    | _ =>
      cases h
      rfl

theorem Invariant.stepVariable (hI : Invariant I Q) (frame : Frame) (x : String) (delta : Int) :
    Sustains I Value.Bounded (stepVariable frame x delta) := by
  intro s hs
  cases hr : Evaluator.stepVariable frame x delta s with
  | error halt t =>
    rw [stepVariable_error hr]
    exact ⟨hs, fun _ _ h => nomatch h⟩
  | ok u t =>
    obtain ⟨-, n, hx, rfl, rfl⟩ := stepVariable_ok hr
    refine ⟨hI.step hs hx (fits32_wrapInt _), fun v t h => ?_⟩
    cases h
    exact fits32_wrapInt _

theorem sustains_ofExcept {α : Type} {I : State → Prop} {P : α → Prop} {x : Except Fault α}
    (h : ∀ a, x = .ok a → P a) : Sustains I P (ofExcept x) := by
  cases x with
  | error cause => exact sustains_throw _
  | ok a => exact sustains_pure (h a rfl)

theorem sustains_truth {I : State → Prop} (v : Value) :
    Sustains I (fun _ => True) (truth v) := by
  cases v with
  | bool flag => exact sustains_pure trivial
  | _ => exact sustains_throw _

theorem fits32_elements {vs : List Value} (hv : ∀ v ∈ vs, v.Bounded) {ns : List Int}
    (h : elements vs = .ok ns) : ∀ n ∈ ns, Fits32 n := by
  induction vs generalizing ns with
  | nil =>
    cases h
    simp
  | cons v rest ih =>
    cases v with
    | int n =>
      obtain ⟨ms, hms, h⟩ := bind_inv h
      cases h
      refine List.forall_mem_cons.mpr ⟨hv _ List.mem_cons_self, ?_⟩
      exact ih (fun v hm => hv v (List.mem_cons_of_mem _ hm)) hms
    | _ => cases h

theorem Invariant.print (hI : Invariant I Q) (hv : v.Bounded) :
    Sustains I Value.Bounded (print v) := by
  refine sustains_write ?_ hv
  exact fun _ hs => hI.prints _ hs

theorem Invariant.randomInt (hI : Invariant I Q) : Sustains I Value.Bounded randomInt := by
  intro s hs
  refine ⟨hI.draws _ hs, fun v t h => ?_⟩
  cases h
  exact Random.fits32_int s.generator

theorem Invariant.randomBetween (hI : Invariant I Q) {l h : Value} (hl : l.Bounded)
    (hh : h.Bounded) : Sustains I Value.Bounded (randomBetween l h) := by
  cases l with
  | int low =>
    cases h with
    | int high =>
      simp only [Evaluator.randomBetween]
      split
      · exact sustains_throw _
      · rename_i hlt
        intro s hs
        refine ⟨hI.draws _ hs, fun v t h => ?_⟩
        cases h
        exact Random.fits32_between hl hh (by omega) s.generator
    | _ => exact sustains_throw _
  | _ => exact sustains_throw _

theorem Invariant.define (hI : Invariant I Q) {name : String} {params : List String} {body : Node}
    (hq : Q (.define name params body)) : Sustains I Value.Bounded (define name params body) := by
  intro s hs
  refine ⟨hI.defines hq hs, fun v t h => ?_⟩
  cases h
  trivial

/-! ## Several steps -/

theorem sustains_inOrder (hf : ∀ node ∈ nodes, Sustains I Value.Bounded (f node))
    (hl : last.Bounded) : Sustains I Value.Bounded (inOrder f nodes last) := by
  induction nodes generalizing last with
  | nil => exact sustains_pure hl
  | cons node rest ih =>
    obtain ⟨hnode, hrest⟩ := List.forall_mem_cons.mp hf
    exact hnode.bind fun _ hv => ih hrest hv

theorem sustains_each (hf : ∀ node ∈ nodes, Sustains I Value.Bounded (f node)) :
    Sustains I (fun vs => ∀ v ∈ vs, v.Bounded) (each f nodes) := by
  induction nodes with
  | nil => exact sustains_pure (by simp)
  | cons node rest ih =>
    obtain ⟨hnode, hrest⟩ := List.forall_mem_cons.mp hf
    exact hnode.bind fun v hv => (ih hrest).bind fun vs hvs =>
      sustains_pure (List.forall_mem_cons.mpr ⟨hv, hvs⟩)

theorem sustains_repeatWhile {body : Eval Value} (hc : Sustains I (fun _ => True) condition)
    (hb : Sustains I Value.Bounded body) (n : Nat) (hl : last.Bounded) :
    Sustains I Value.Bounded (repeatWhile condition body n last) := by
  induction n generalizing last with
  | zero => exact sustains_throw _
  | succ n ih =>
    refine hc.bind fun holds _ => ?_
    cases holds with
    | true => exact hb.bind fun _ hv => ih hv
    | false => exact sustains_pure hl

theorem sustains_bindArguments (function : String) (params : List String) {args : List Node}
    (hf : ∀ arg ∈ args, Sustains I Value.Bounded (f arg)) (frame : Frame) :
    Sustains I (fun _ => True) (bindArguments f function params args frame) := by
  induction params generalizing args frame with
  | nil => exact sustains_pure trivial
  | cons param params ih =>
    cases args with
    | nil => exact sustains_pure trivial
    | cons arg args =>
      obtain ⟨harg, hrest⟩ := List.forall_mem_cons.mp hf
      refine harg.bind fun v _ => ?_
      cases v with
      | int n | float x => exact ih hrest _
      | _ => exact sustains_throw _

section
variable {fuel : Nat} {frame : Frame} {node step body : Node}

theorem sustains_evalPart (h : Sustains I Value.Bounded (eval fuel frame node)) :
    Sustains I Value.Bounded (evalPart fuel frame node) := by
  unfold evalPart
  split
  · exact sustains_pure trivial
  · exact h

theorem sustains_evalCondition (h : Sustains I Value.Bounded (eval fuel frame node)) :
    Sustains I (fun _ => True) (evalCondition fuel frame node) := by
  unfold evalCondition
  split
  · exact sustains_pure trivial
  · exact h.bind fun v _ => sustains_truth v

theorem sustains_evalRound (hs : Sustains I Value.Bounded (eval fuel frame step))
    (hb : Sustains I Value.Bounded (eval fuel frame body)) :
    Sustains I Value.Bounded (evalRound fuel frame step body) :=
  hb.bind fun _ hv => (sustains_evalPart hs).bind fun _ _ => sustains_pure hv

end

/-- Evaluating a tree of the class keeps the invariant and gives a bounded value, if any. -/
theorem Invariant.eval (hI : Invariant I Q) (fuel : Nat) (frame : Frame) {node : Node}
    (hq : Q node) : Sustains I Value.Bounded (eval fuel frame node) := by
  induction fuel generalizing frame node with
  | zero => exact sustains_throw _
  | succ fuel ih =>
    have part (child : Node) (hc : child ∈ node.children) :
        Sustains I Value.Bounded (Evaluator.eval fuel frame child) := ih frame (hI.child hq hc)
    cases node with
    | sequence statements => exact sustains_inOrder part trivial
    | number n => exact sustains_pure (fits32_wrapInt n)
    | float x | string t | boolean flag => exact sustains_pure trivial
    | identifier x => exact hI.lookup frame x
    | binary left op right =>
      have hleft := part left (by simp [Node.children])
      have hright := part right (by simp [Node.children])
      cases op with
      | other symbol => exact sustains_throw _
      | _ =>
        exact hleft.bind fun l _ => hright.bind fun r _ =>
          sustains_ofExcept fun v hv => Value.bounded_arithmetic hv
    | comparison left op right =>
      have hleft := part left (by simp [Node.children])
      have hright := part right (by simp [Node.children])
      cases op with
      | other symbol => exact sustains_throw _
      | _ =>
        exact hleft.bind fun l _ => hright.bind fun r _ =>
          (sustains_ofExcept (P := fun _ => True) fun _ _ => trivial).bind fun _ _ =>
            sustains_pure trivial
    | assign x e =>
      exact (part e (by simp [Node.children])).bind fun v hv => hI.store frame hq hv
    | increment x => exact hI.stepVariable frame x 1
    | decrement x => exact hI.stepVariable frame x (-1)
    | branch condition thenPart elsePart =>
      refine (part condition (by simp [Node.children])).bind fun c _ =>
        (sustains_truth c).bind fun holds _ => ?_
      cases holds with
      | true => exact part thenPart (by simp [Node.children])
      | false => exact sustains_evalPart (part elsePart (by simp [Node.children]))
    | loop start condition step body =>
      rw [eval_loop]
      have hstart := sustains_evalPart (part start (by simp [Node.children]))
      have hcondition := sustains_evalCondition (part condition (by simp [Node.children]))
      have hround := sustains_evalRound (part step (by simp [Node.children]))
        (part body (by simp [Node.children]))
      exact hstart.bind fun _ _ => sustains_repeatWhile hcondition hround fuel trivial
    | print e => exact (part e (by simp [Node.children])).bind fun v hv => hI.print hv
    | random low high =>
      rw [Evaluator.eval]
      split
      · exact hI.randomInt
      · exact (part low (by simp [Node.children])).bind fun l hl =>
          (part high (by simp [Node.children])).bind fun h hh => hI.randomBetween hl hh
    | define name params body => exact hI.define hq
    | call name args =>
      refine sustains_get fun s hs => ?_
      cases hf : s.context.getFunction? name with
      | none => exact sustains_throw _
      | some d =>
        dsimp only
        split
        · exact (sustains_bindArguments name d.params part {}).bind fun inner _ =>
            (ih inner (hI.body hs hf)).bind fun v hv => sustains_pure (hv.coerce d.returns)
        · exact sustains_throw _
    | array nodes =>
      exact (sustains_each part).bind fun vs hvs =>
        (sustains_ofExcept fun ns hns => fits32_elements hvs hns).bind fun ns hns =>
          sustains_pure hns
    | missing | bare => exact sustains_throw _

/-- Whatever is evaluated, all variables keep their kinds and 32 bits. -/
theorem invariant_bounded : Invariant State.Bounded fun _ => True where
  bounded hs := hs
  child _ _ := trivial
  body _ _ := trivial
  assign _ hs hv hk := Context.Bounded.add hs _ hv hk
  step hs _ hn := Context.Bounded.add hs _ (v := .int _) hn (by simp [Value.kind])
  prints _ hs := hs
  draws _ hs := hs
  defines _ hs := hs

/-- Evaluating any tree in a bounded state gives a bounded value and ends in a bounded state. -/
abbrev Stays (m : Eval Value) : Prop := Sustains State.Bounded Value.Bounded m

theorem stays_eval (fuel : Nat) (frame : Frame) (node : Node) : Stays (eval fuel frame node) :=
  invariant_bounded.eval fuel frame trivial

/-! ## Everything computed on the way -/

def Observation.Bounded : Observation → Prop
  | .value v | .printed v => v.Bounded
  | .quotient left right => left.Bounded ∧ right.Bounded

instance (o : Observation) : Decidable o.Bounded :=
  match o with
  | .value v | .printed v => inferInstanceAs (Decidable v.Bounded)
  | .quotient left right => inferInstanceAs (Decidable (left.Bounded ∧ right.Bounded))

/-- From a bounded state only bounded values are observed. -/
def Shows (w : Watch) : Prop := ∀ s : State, s.Bounded → ∀ o ∈ w s, o.Bounded

theorem shows_nil : Shows fun _ => [] := fun _ _ _ h => nomatch h

theorem shows_single {o : Observation} (h : o.Bounded) : Shows fun _ => [o] := by
  intro s _ o' ho
  rw [List.mem_singleton.mp ho]
  exact h

theorem Shows.append {w1 w2 : Watch} (h1 : Shows w1) (h2 : Shows w2) :
    Shows fun s => w1 s ++ w2 s := by
  intro s hs o ho
  exact (List.mem_append.mp ho).elim (h1 s hs o) (h2 s hs o)

theorem Sustains.shows {α : Type} {P : α → Prop} {m : Eval α}
    (hm : Sustains State.Bounded P m) {next : α → Watch} (hn : ∀ a, P a → Shows (next a)) :
    Shows fun s => after (m s) next := by
  intro s hs o ho
  obtain ⟨hfinal, hresult⟩ := hm s hs
  dsimp only at ho
  cases hr : m s with
  | error halt t =>
    rw [hr] at ho
    nomatch ho
  | ok a t =>
    rw [hr] at ho hfinal
    exact hn a (hresult a t hr) t hfinal o ho

theorem shows_observeAll {w : Node → Watch} (hf : ∀ node, Stays (f node))
    (hw : ∀ node, Shows (w node)) (nodes : List Node) : Shows (observeAll f w nodes) := by
  induction nodes with
  | nil => exact shows_nil
  | cons node rest ih => exact (hw node).append ((hf node).shows fun _ _ => ih)

theorem shows_observeWhile {round : Eval Value} {wc wr : Watch}
    (hc : Sustains State.Bounded (fun _ => True) condition) (hr : Stays round) (hwc : Shows wc)
    (hwr : Shows wr) (n : Nat) : Shows (observeWhile condition round wc wr n) := by
  induction n with
  | zero => exact shows_nil
  | succ n ih =>
    refine hwc.append (hc.shows fun holds _ => ?_)
    cases holds with
    | true => exact hwr.append (hr.shows fun _ _ => ih)
    | false => exact shows_nil

theorem shows_observe (fuel : Nat) (frame : Frame) (node : Node) :
    Shows (observe fuel frame node) := by
  induction fuel generalizing frame node with
  | zero => exact shows_nil
  | succ fuel ih =>
    have hvalue : Shows fun s => after (eval (fuel + 1) frame node s) fun v _ => [.value v] :=
      (stays_eval (fuel + 1) frame node).shows fun _ hv => shows_single hv
    have hall := shows_observeAll (stays_eval fuel frame) (ih frame)
    cases node with
    | sequence nodes | array nodes => exact (hall nodes).append hvalue
    | binary left op right =>
      refine Shows.append ?_ hvalue
      refine (ih frame left).append ((stays_eval fuel frame left).shows fun l hl => ?_)
      refine (ih frame right).append ((stays_eval fuel frame right).shows fun r hr => ?_)
      split
      · exact shows_single ⟨hl, hr⟩
      · exact shows_nil
    | comparison left op right => exact (hall [left, right]).append hvalue
    | assign x e => exact (ih frame e).append hvalue
    | branch condition thenPart elsePart =>
      refine Shows.append ?_ hvalue
      refine (ih frame condition).append ((stays_eval fuel frame condition).shows fun c _ => ?_)
      refine (sustains_truth c).shows fun holds _ => ?_
      cases holds with
      | true => exact ih frame thenPart
      | false => exact ih frame elsePart
    | loop start condition step body =>
      refine Shows.append ?_ hvalue
      refine (ih frame start).append
        ((sustains_evalPart (stays_eval fuel frame start)).shows fun _ _ => ?_)
      exact shows_observeWhile (sustains_evalCondition (stays_eval fuel frame condition))
        (sustains_evalRound (stays_eval fuel frame step) (stays_eval fuel frame body))
        (ih frame condition)
        ((ih frame body).append ((stays_eval fuel frame body).shows fun _ _ => ih frame step)) fuel
    | print e =>
      refine Shows.append ?_ hvalue
      exact (ih frame e).append ((stays_eval fuel frame e).shows fun v hv => shows_single hv)
    | random low high => exact (hall [low, high]).append hvalue
    | call name args =>
      refine Shows.append ((hall args).append ?_) hvalue
      intro s hs
      dsimp only
      cases s.context.getFunction? name with
      | none => exact fun _ h => nomatch h
      | some d =>
        exact (sustains_bindArguments name d.params (fun arg _ => stays_eval fuel frame arg) {}).shows
          (fun inner _ => ih inner d.body) s hs
    | _ => exact shows_nil.append hvalue

/-! ## Sessions -/

/-- The states that a session can be in: it starts without variables and functions, and goes on
from where the newest submission ended, with a value or without one. -/
inductive State.Reachable : State → Prop
  | start (g : Random.Generator) : Reachable { generator := g }
  | submit {s : State} (h : Reachable s) (fuel : Nat) (node : Node) :
    Reachable (run fuel node s).2

theorem run_state (fuel : Nat) (node : Node) (s : State) :
    (run fuel node s).2 = final (eval fuel {} node s) := by
  unfold run evaluate
  cases eval fuel {} node s <;> rfl

/-- The evaluation behind a run. -/
theorem eval_of_run {fuel : Nat} {node : Node} {s' : State} {result : Except Halt Value}
    (h : run fuel node s = (result, s')) :
    eval fuel {} node s = match result with
      | .ok v => .ok v s'
      | .error halt => .error halt s' := by
  unfold run evaluate at h
  cases hr : eval fuel {} node s with
  | ok w t | error halt t =>
    rw [hr] at h
    cases h
    rfl

theorem run_ok {fuel : Nat} {node : Node} (h : (run fuel node s).1 = .ok v) :
    eval fuel {} node s = .ok v (run fuel node s).2 :=
  eval_of_run (Prod.ext h rfl)

theorem State.Reachable.bounded (h : s.Reachable) : s.Bounded := by
  induction h with
  | start g => exact fun _ hm => nomatch hm
  | submit _ fuel node ih =>
    show (run fuel node _).2.Bounded
    rw [run_state]
    exact (stays_eval fuel {} node _ ih).1

/-- In a session every variable has the recorded kind, which is not `none`, and all integers have
32 bits: those that are stored, those that a submission returns and those computed on its way. -/
theorem session_integers_bounded {s : State} (h : s.Reachable) :
    s.context.Bounded ∧ ∀ (fuel : Nat) (node : Node),
      (∀ v, (run fuel node s).1 = .ok v → v.Bounded) ∧
        ∀ o ∈ observe fuel {} node s, o.Bounded := by
  refine ⟨h.bounded, fun fuel node => ⟨fun v hv => ?_, shows_observe fuel {} node s h.bounded⟩⟩
  exact (stays_eval fuel {} node s h.bounded).2 v _ (run_ok hv)

/-- After a literal of 33 bits and a sum that overflows, an array of both. -/
theorem overflowing_session_bounded :
    ∃ s : State, s.Reachable ∧
      s.context.value? "x" = some (.int (-2147483648)) ∧ s.context.Bounded ∧
      (run 9 (.sequence [.array [.identifier "x", .number 4294967297]]) s).1 =
        .ok (.intArray [-2147483648, 1]) ∧ (Value.intArray [-2147483648, 1]).Bounded ∧
      ∀ o ∈ observe 9 {} (.sequence [.array [.identifier "x", .number 4294967297]]) s,
        o.Bounded := by
  have hs : State.Reachable (run 9 (.sequence [.assign "x"
      (.binary (.number 2147483647) .add (.number 4294967297))]) { generator := ⟨#[], 0⟩ }).2 :=
    .submit (.start ⟨#[], 0⟩) 9 _
  have hvalue : (run 9 (.sequence [.array [.identifier "x", .number 4294967297]])
      (run 9 (.sequence [.assign "x" (.binary (.number 2147483647) .add (.number 4294967297))])
        { generator := ⟨#[], 0⟩ }).2).1 = .ok (.intArray [-2147483648, 1]) := by cbv
  obtain ⟨hcontext, hrun⟩ := session_integers_bounded hs
  obtain ⟨hresult, hobserved⟩ := hrun 9 (.sequence [.array [.identifier "x", .number 4294967297]])
  exact ⟨_, hs, by cbv, hcontext, hvalue, hresult _ hvalue, hobserved⟩

end Evaluator
end DualEngine
