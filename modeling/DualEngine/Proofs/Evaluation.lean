import DualEngine.Proofs.Computation
import DualEngine.Proofs.Observation

/-! # The steps of evaluation

For every form of tree: the steps that evaluation took if it gave a value, and that all of them were
portable if the whole was.
-/
namespace DualEngine

/-- The value bound to a name. -/
def Context.value? (c : Context Value) (x : String) : Option Value := (c.get? x).map Symbol.storage

theorem Context.value?_add (c : Context Value) (x y : String) (v : Value) (k : Kind) :
    (c.add x v k).value? y = if x = y then some v else c.value? y := by
  simp only [Context.value?, Context.get?, Context.add, Table.get?_insert]
  split <;> rfl

namespace Evaluator
variable {fuel : Nat} {frame : Frame} {s s' : State} {v : Value} {args : List Node} {node : Node}
  {f : Node → Eval Value} {x : String}

theorem ofExcept_ok {α : Type} {x : Except Fault α} {a : α} (h : ofExcept x s = .ok a s') :
    x = .ok a ∧ s' = s := by
  cases x with
  | error cause => simp [ofExcept, fail, throw_run] at h
  | ok b =>
    obtain ⟨rfl, rfl⟩ := pure_eq_ok.mp h
    exact ⟨rfl, rfl⟩

theorem lookup_ok (h : lookup frame x s = .ok v s') :
    s' = s ∧ ((∃ y, frame.get? x = some y ∧ v = .float y) ∨
      (frame.get? x = none ∧ s.context.value? x = some v)) := by
  unfold lookup at h
  cases hf : frame.get? x with
  | some y =>
    rw [hf] at h
    obtain ⟨rfl, rfl⟩ := pure_eq_ok.mp h
    exact ⟨rfl, .inl ⟨y, rfl, rfl⟩⟩
  | none =>
    rw [hf] at h
    obtain ⟨t, s1, hget, h⟩ := bind_eq_ok.mp h
    cases hget
    cases hx : s.context.get? x with
    | none => simp [hx, fail, throw_run] at h
    | some sym =>
      rw [hx] at h
      obtain ⟨rfl, rfl⟩ := pure_eq_ok.mp h
      exact ⟨rfl, .inr ⟨rfl, by rw [Context.value?, hx]; rfl⟩⟩

theorem store_ok {u : Value} (h : store frame x u s = .ok v s') :
    frame.contains x = false ∧ u.kind ≠ .none ∧ v = u ∧
      s' = s.commit (s.context.add x u u.kind) := by
  unfold store at h
  split at h
  · simp [mismatch, fail, throw_run] at h
  · rename_i hc
    split at h
    · simp [mismatch, fail, throw_run] at h
    · rename_i hk
      cases h
      exact ⟨by simpa using hc, hk, rfl, rfl⟩

theorem stepVariable_ok {delta : Int} (h : stepVariable frame x delta s = .ok v s') :
    frame.contains x = false ∧ ∃ n, s.context.value? x = some (.int n) ∧
      v = .int (wrapInt (n + delta)) ∧ s' = s.commit (s.context.add x v .int) := by
  obtain ⟨u, s1, h1, h2⟩ := bind_eq_ok.mp h
  obtain ⟨rfl, hu⟩ := lookup_ok h1
  cases u with
  | int n =>
    obtain ⟨hc, -, rfl, rfl⟩ := store_ok h2
    rcases hu with ⟨y, -, hy⟩ | ⟨-, hx⟩
    · simp at hy
    · exact ⟨hc, n, hx, rfl, rfl⟩
  | _ => simp [mismatch, fail, throw_run] at h2

theorem truth_ok {u : Value} {b : Bool} (h : truth u s = .ok b s') : u = .bool b ∧ s' = s := by
  cases u with
  | bool c =>
    obtain ⟨rfl, rfl⟩ := pure_eq_ok.mp h
    exact ⟨rfl, rfl⟩
  | _ => simp [truth, mismatch, fail, throw_run] at h

theorem eval_binary_ok {left right : Node} {op : ArithOp}
    (h : eval (fuel + 1) frame (.binary left op right) s = .ok v s') :
    ∃ l s1 r, eval fuel frame left s = .ok l s1 ∧ eval fuel frame right s1 = .ok r s' ∧
      l.arithmetic op r = .ok v := by
  cases op with
  | other symbol => simp [eval, fail, throw_run] at h
  | _ =>
    obtain ⟨l, s1, h1, h⟩ := bind_eq_ok.mp h
    obtain ⟨r, s2, h2, h⟩ := bind_eq_ok.mp h
    obtain ⟨h3, rfl⟩ := ofExcept_ok h
    exact ⟨l, s1, r, h1, h2, h3⟩

theorem eval_comparison_ok {left right : Node} {op : CompareOp}
    (h : eval (fuel + 1) frame (.comparison left op right) s = .ok v s') :
    ∃ l s1 r b, eval fuel frame left s = .ok l s1 ∧ eval fuel frame right s1 = .ok r s' ∧
      l.compare op r = .ok b ∧ v = .bool b := by
  cases op with
  | other symbol => simp [eval, fail, throw_run] at h
  | _ =>
    obtain ⟨l, s1, h1, h⟩ := bind_eq_ok.mp h
    obtain ⟨r, s2, h2, h⟩ := bind_eq_ok.mp h
    obtain ⟨b, s3, h3, h4⟩ := bind_eq_ok.mp h
    obtain ⟨hcompare, rfl⟩ := ofExcept_ok h3
    obtain ⟨rfl, rfl⟩ := pure_eq_ok.mp h4
    exact ⟨l, s1, r, b, h1, h2, hcompare, rfl⟩

theorem eval_assign_ok {e : Node} (h : eval (fuel + 1) frame (.assign x e) s = .ok v s') :
    ∃ s1, eval fuel frame e s = .ok v s1 ∧ frame.contains x = false ∧ v.kind ≠ .none ∧
      s' = s1.commit (s1.context.add x v v.kind) := by
  obtain ⟨u, s1, h1, h2⟩ := bind_eq_ok.mp h
  obtain ⟨hc, hk, rfl, rfl⟩ := store_ok h2
  exact ⟨s1, h1, hc, hk, rfl⟩

theorem eval_branch_ok {condition thenPart elsePart : Node}
    (h : eval (fuel + 1) frame (.branch condition thenPart elsePart) s = .ok v s') :
    ∃ holds s1, eval fuel frame condition s = .ok (.bool holds) s1 ∧
      (if holds then eval fuel frame thenPart else evalPart fuel frame elsePart) s1 = .ok v s' := by
  obtain ⟨c, s1, h1, h2⟩ := bind_eq_ok.mp h
  obtain ⟨holds, s2, h3, h4⟩ := bind_eq_ok.mp h2
  obtain ⟨rfl, rfl⟩ := truth_ok h3
  refine ⟨holds, s2, h1, ?_⟩
  cases holds <;> exact h4

theorem eval_loop_ok {start condition step body : Node}
    (h : eval (fuel + 1) frame (.loop start condition step body) s = .ok v s') :
    ∃ u s1, evalPart fuel frame start s = .ok u s1 ∧
      repeatWhile (evalCondition fuel frame condition) (evalRound fuel frame step body) fuel .none
        s1 = .ok v s' := by
  rw [eval_loop] at h
  exact bind_eq_ok.mp h

theorem repeatWhile_ok {condition : Eval Bool} {body : Eval Value} {n : Nat} {last : Value}
    (h : repeatWhile condition body (n + 1) last s = .ok v s') :
    ∃ holds s1, condition s = .ok holds s1 ∧
      ((holds = true ∧ ∃ u s2, body s1 = .ok u s2 ∧ repeatWhile condition body n u s2 = .ok v s') ∨
        (holds = false ∧ v = last ∧ s' = s1)) := by
  obtain ⟨holds, s1, h1, h2⟩ := bind_eq_ok.mp h
  refine ⟨holds, s1, h1, ?_⟩
  cases holds with
  | true =>
    obtain ⟨u, s2, h3, h4⟩ := bind_eq_ok.mp h2
    exact .inl ⟨rfl, u, s2, h3, h4⟩
  | false => exact .inr ⟨rfl, pure_eq_ok.mp h2⟩

theorem evalCondition_ok {condition : Node} {holds : Bool}
    (h : evalCondition fuel frame condition s = .ok holds s') :
    (condition.isMissing = true ∧ holds = true ∧ s' = s) ∨
      (condition.isMissing = false ∧ eval fuel frame condition s = .ok (.bool holds) s') := by
  unfold evalCondition at h
  split at h
  · rename_i hm
    exact .inl ⟨hm, pure_eq_ok.mp h⟩
  · rename_i hm
    obtain ⟨c, s1, h1, h2⟩ := bind_eq_ok.mp h
    obtain ⟨rfl, rfl⟩ := truth_ok h2
    exact .inr ⟨by simpa using hm, h1⟩

theorem evalRound_ok {step body : Node} (h : evalRound fuel frame step body s = .ok v s') :
    ∃ s1 u, eval fuel frame body s = .ok v s1 ∧ evalPart fuel frame step s1 = .ok u s' := by
  obtain ⟨w, s1, h1, h2⟩ := bind_eq_ok.mp h
  obtain ⟨u, s2, h3, h4⟩ := bind_eq_ok.mp h2
  obtain ⟨rfl, rfl⟩ := pure_eq_ok.mp h4
  exact ⟨s1, u, h1, h3⟩

theorem evalPart_ok (h : evalPart fuel frame node s = .ok v s') :
    (node.isMissing = true ∧ v = .none ∧ s' = s) ∨
      (node.isMissing = false ∧ eval fuel frame node s = .ok v s') := by
  unfold evalPart at h
  split at h
  · rename_i hm
    exact .inl ⟨hm, pure_eq_ok.mp h⟩
  · rename_i hm
    exact .inr ⟨by simpa using hm, h⟩

theorem eval_print_ok {e : Node} (h : eval (fuel + 1) frame (.print e) s = .ok v s') :
    ∃ s1, eval fuel frame e s = .ok v s1 ∧ s' = { s1 with out := s1.out ++ v.text ++ "\n" } := by
  obtain ⟨u, s1, h1, h2⟩ := bind_eq_ok.mp h
  cases h2
  exact ⟨s1, h1, rfl⟩

theorem eval_array_ok {nodes : List Node} (h : eval (fuel + 1) frame (.array nodes) s = .ok v s') :
    ∃ vs ns, each (eval fuel frame) nodes s = .ok vs s' ∧ elements vs = .ok ns ∧
      v = .intArray ns := by
  obtain ⟨vs, s1, h1, h2⟩ := bind_eq_ok.mp h
  obtain ⟨ns, s2, h3, h4⟩ := bind_eq_ok.mp h2
  obtain ⟨hns, rfl⟩ := ofExcept_ok h3
  obtain ⟨rfl, rfl⟩ := pure_eq_ok.mp h4
  exact ⟨vs, ns, h1, hns, rfl⟩

theorem each_cons_ok {rest : List Node} {vs : List Value}
    (h : each f (node :: rest) s = .ok vs s') :
    ∃ u s1 us, f node s = .ok u s1 ∧ each f rest s1 = .ok us s' ∧ vs = u :: us := by
  obtain ⟨u, s1, h1, h2⟩ := bind_eq_ok.mp h
  obtain ⟨us, s2, h3, h4⟩ := bind_eq_ok.mp h2
  obtain ⟨rfl, rfl⟩ := pure_eq_ok.mp h4
  exact ⟨u, s1, us, h1, h3, rfl⟩

theorem eval_call_ok {name : String} (h : eval (fuel + 1) frame (.call name args) s = .ok v s') :
    ∃ d inner s1 u, s.context.getFunction? name = some d ∧ args.length = d.params.length ∧
      bindArguments (eval fuel frame) name d.params args {} s = .ok inner s1 ∧
      eval fuel inner d.body s1 = .ok u s' ∧ v = u.coerce d.returns := by
  obtain ⟨t, s0, hget, h1⟩ := bind_eq_ok.mp h
  cases hget
  cases hd : s.context.getFunction? name with
  | none => simp [hd, fail, throw_run] at h1
  | some d =>
    simp only [hd] at h1
    split at h1
    · rename_i hlen
      obtain ⟨inner, s1, h2, h3⟩ := bind_eq_ok.mp h1
      obtain ⟨u, s2, h4, h5⟩ := bind_eq_ok.mp h3
      obtain ⟨rfl, rfl⟩ := pure_eq_ok.mp h5
      exact ⟨d, inner, s1, u, rfl, hlen, h2, h4, rfl⟩
    · simp [mismatch, fail, throw_run] at h1

theorem bindArguments_cons_ok {function param : String} {params : List String} {arg : Node}
    {inner result : Frame}
    (h : bindArguments f function (param :: params) (arg :: args) inner s = .ok result s') :
    ∃ u s1 x, f arg s = .ok u s1 ∧ u.kind.isNumeric = true ∧ u.coerce .float = .float x ∧
      bindArguments f function params args (inner.insert param x) s1 = .ok result s' := by
  obtain ⟨u, s1, h1, h2⟩ := bind_eq_ok.mp h
  cases u with
  | int n => exact ⟨.int n, s1, Float.ofInt n, h1, rfl, rfl, h2⟩
  | float x => exact ⟨.float x, s1, x, h1, rfl, rfl, h2⟩
  | _ => simp [mismatch, fail, throw_run] at h2

/-! ## Parts of a portable evaluation -/

section Parts
variable {s1 s2 : State} {left right : Node} {op : ArithOp} {nodes rest : List Node}
  {e node : Node} {l : Value}

theorem Portably.value (hp : Portably fuel frame node s) (h : eval fuel frame node s = .ok v s') :
    v.Portable := by
  cases fuel with
  | zero => simp [eval, throw_run] at h
  | succ fuel =>
    refine hp (.value v) (List.mem_append_right _ ?_)
    rw [after_ok h]
    exact List.mem_singleton_self _

theorem Portably.binary {r : Value} (hp : Portably (fuel + 1) frame (.binary left op right) s)
    (h1 : eval fuel frame left s = .ok l s1) (h2 : eval fuel frame right s1 = .ok r s2) :
    Portably fuel frame left s ∧ Portably fuel frame right s1 ∧
      (op = .div → l.overflows r = false) := by
  have h := (List.forall_mem_append.mp hp).1
  obtain ⟨hl, h⟩ := List.forall_mem_append.mp h
  rw [after_ok h1] at h
  obtain ⟨hr, h⟩ := List.forall_mem_append.mp h
  rw [after_ok h2] at h
  refine ⟨hl, hr, fun hop => h (.quotient l r) ?_⟩
  simp [hop]

theorem Portably.binary_left (hp : Portably (fuel + 1) frame (.binary left op right) s) :
    Portably fuel frame left s :=
  (List.forall_mem_append.mp (List.forall_mem_append.mp hp).1).1

theorem Portably.binary_right (hp : Portably (fuel + 1) frame (.binary left op right) s)
    (h1 : eval fuel frame left s = .ok l s1) : Portably fuel frame right s1 := by
  have h := (List.forall_mem_append.mp (List.forall_mem_append.mp hp).1).2
  rw [after_ok h1] at h
  exact (List.forall_mem_append.mp h).1

theorem Portably.comparison {op : CompareOp}
    (hp : Portably (fuel + 1) frame (.comparison left op right) s)
    (h1 : eval fuel frame left s = .ok l s1) :
    Portably fuel frame left s ∧ Portably fuel frame right s1 := by
  have h := (List.forall_mem_append.mp hp).1
  obtain ⟨hl, h⟩ := List.forall_mem_append.mp h
  rw [after_ok h1] at h
  exact ⟨hl, (List.forall_mem_append.mp h).1⟩

theorem Portably.assign {x : String} (hp : Portably (fuel + 1) frame (.assign x e) s) :
    Portably fuel frame e s :=
  (List.forall_mem_append.mp hp).1

theorem Portably.branch {condition thenPart elsePart : Node} {holds : Bool}
    (hp : Portably (fuel + 1) frame (.branch condition thenPart elsePart) s)
    (h1 : eval fuel frame condition s = .ok (.bool holds) s1) :
    Portably fuel frame condition s ∧
      Portably fuel frame (if holds then thenPart else elsePart) s1 := by
  have h := (List.forall_mem_append.mp hp).1
  obtain ⟨hc, h⟩ := List.forall_mem_append.mp h
  rw [after_ok h1] at h
  refine ⟨hc, ?_⟩
  cases holds <;> exact h

theorem Portably.print (hp : Portably (fuel + 1) frame (.print e) s)
    (h1 : eval fuel frame e s = .ok v s1) : Portably fuel frame e s ∧ v.kind ≠ .intArray := by
  have h := (List.forall_mem_append.mp hp).1
  obtain ⟨he, h⟩ := List.forall_mem_append.mp h
  rw [after_ok h1] at h
  exact ⟨he, h (.printed v) (List.mem_singleton_self _)⟩

theorem Portably.printed (hp : Portably (fuel + 1) frame (.print e) s) : Portably fuel frame e s :=
  (List.forall_mem_append.mp (List.forall_mem_append.mp hp).1).1

/-- The evaluation of nodes in order computes nothing that is not portable. -/
def PortablyAll (fuel : Nat) (frame : Frame) (nodes : List Node) (s : State) : Prop :=
  ∀ o ∈ observeAll (eval fuel frame) (observe fuel frame) nodes s, o.Portable

theorem PortablyAll.cons (hp : PortablyAll fuel frame (node :: rest) s)
    (h1 : eval fuel frame node s = .ok v s1) :
    Portably fuel frame node s ∧ PortablyAll fuel frame rest s1 := by
  obtain ⟨hn, h⟩ := List.forall_mem_append.mp hp
  rw [after_ok h1] at h
  exact ⟨hn, h⟩

theorem PortablyAll.head (hp : PortablyAll fuel frame (node :: rest) s) :
    Portably fuel frame node s :=
  (List.forall_mem_append.mp hp).1

theorem Portably.operands {op : CompareOp}
    (hp : Portably (fuel + 1) frame (.comparison left op right) s) :
    PortablyAll fuel frame [left, right] s :=
  (List.forall_mem_append.mp hp).1

theorem Portably.sequence (hp : Portably (fuel + 1) frame (.sequence nodes) s) :
    PortablyAll fuel frame nodes s :=
  (List.forall_mem_append.mp hp).1

theorem Portably.array (hp : Portably (fuel + 1) frame (.array nodes) s) :
    PortablyAll fuel frame nodes s :=
  (List.forall_mem_append.mp hp).1

theorem Portably.call {name : String} {args : List Node} {d : Definition} {inner : Frame}
    (hp : Portably (fuel + 1) frame (.call name args) s)
    (hd : s.context.getFunction? name = some d)
    (h1 : bindArguments (eval fuel frame) name d.params args {} s = .ok inner s1) :
    PortablyAll fuel frame args s ∧ Portably fuel inner d.body s1 := by
  have h := (List.forall_mem_append.mp hp).1
  obtain ⟨ha, h⟩ := List.forall_mem_append.mp h
  simp only [hd] at h
  rw [after_ok h1] at h
  exact ⟨ha, h⟩

/-- What is observed in a loop of at most so many rounds. -/
def PortablyWhile (fuel : Nat) (frame : Frame) (condition step body : Node) (n : Nat) (s : State) :
    Prop :=
  ∀ o ∈ observeWhile (evalCondition fuel frame condition) (evalRound fuel frame step body)
    (observe fuel frame condition)
    (fun s => observe fuel frame body s ++ after (eval fuel frame body s) fun _ s =>
      observe fuel frame step s) n s, o.Portable

theorem Portably.loop {start condition step body : Node} {u : Value}
    (hp : Portably (fuel + 1) frame (.loop start condition step body) s)
    (h1 : evalPart fuel frame start s = .ok u s1) :
    Portably fuel frame start s ∧ PortablyWhile fuel frame condition step body fuel s1 := by
  have h := (List.forall_mem_append.mp hp).1
  obtain ⟨hs, h⟩ := List.forall_mem_append.mp h
  rw [after_ok h1] at h
  exact ⟨hs, h⟩

theorem PortablyWhile.condition {condition step body : Node} {n : Nat}
    (hp : PortablyWhile fuel frame condition step body (n + 1) s) :
    Portably fuel frame condition s := (List.forall_mem_append.mp hp).1

theorem PortablyWhile.round {condition step body : Node} {n : Nat} {u w : Value} {s3 : State}
    (hp : PortablyWhile fuel frame condition step body (n + 1) s)
    (h1 : evalCondition fuel frame condition s = .ok true s1)
    (h2 : eval fuel frame body s1 = .ok u s2) (h3 : evalPart fuel frame step s2 = .ok w s3) :
    Portably fuel frame body s1 ∧ Portably fuel frame step s2 ∧
      PortablyWhile fuel frame condition step body n s3 := by
  have h := (List.forall_mem_append.mp hp).2
  rw [after_ok h1, if_pos rfl] at h
  obtain ⟨hround, h⟩ := List.forall_mem_append.mp h
  obtain ⟨hb, hst⟩ := List.forall_mem_append.mp hround
  rw [after_ok h2] at hst
  have hr : evalRound fuel frame step body s1 = .ok u s3 :=
    (bind_ok h2).trans ((bind_ok h3).trans rfl)
  rw [after_ok hr] at h
  exact ⟨hb, hst, h⟩

end Parts

end Evaluator
end DualEngine
