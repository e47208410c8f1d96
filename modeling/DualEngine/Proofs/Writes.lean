import DualEngine.Proofs.Invariants

/-! # What an evaluation writes

`writes` follows `eval` and lists the stores and definitions that it carries out. They make up the
whole effect on the context, whether the evaluation gives a value or not, and they name only what the
tree and the recorded functions have as targets.
-/
namespace DualEngine

/-- The names that a tree assigns or steps. -/
def Node.targets (node : Node) : List String := node.assigned ++ node.stepped

theorem Node.targets_subset {node child : Node} (h : child ∈ node.children) :
    child.targets ⊆ node.targets := by
  intro x hx
  rcases List.mem_append.mp hx with hx | hx
  · exact List.mem_append_left _ (Node.assigned_subset h hx)
  · exact List.mem_append_right _ (Node.stepped_subset h hx)

/-- The recorded functions have only these targets. -/
def Context.Aims {σ : Type} (c : Context σ) (targets : Set String) : Prop :=
  ∀ name d, c.getFunction? name = some d → ∀ x ∈ d.body.targets, x ∈ targets

namespace Evaluator

/-- A store that passed its checks, or a definition. -/
inductive Write where
  | store (name : String) (value : Value)
  | define (name : String) (params : List String) (body : Node)

/-- The context after a write; a definition gets the return kind predicted for it. -/
def Write.apply (c : Context Value) : Write → Context Value
  | .store name value => c.add name value value.kind
  | .define name params body =>
    c.addFunction name ⟨params, body, (Prediction.predictFunction c {} {} name params body).1⟩

/-- What is written from a state on. -/
abbrev Trace := State → List Write

/-- What is written after a finished computation. -/
def andThen {α : Type} (r : EStateM.Result Halt State α) (next : α → Trace) : List Write :=
  match r with
  | .ok a s => next a s
  | .error _ _ => []

/-- Nodes that are evaluated in order. -/
def writesAll (eval : Node → Eval Value) (writes : Node → Trace) : List Node → Trace
  | [], _ => []
  | node :: rest, s => writes node s ++ andThen (eval node s) fun _ => writesAll eval writes rest

/-- A loop of at most so many rounds. -/
def writesWhile (condition : Eval Bool) (round : Eval Value) (inCondition inRound : Trace) :
    Nat → Trace
  | 0, _ => []
  | n + 1, s =>
    inCondition s ++ andThen (condition s) fun holds s =>
      if holds then
        inRound s ++ andThen (round s) fun _ =>
          writesWhile condition round inCondition inRound n
      else []

/-- The arguments of a call, up to the first that no parameter takes. -/
def writesArguments (eval : Node → Eval Value) (writes : Node → Trace) :
    List String → List Node → Trace
  | _ :: params, arg :: args, s =>
    writes arg s ++ andThen (eval arg s) fun value s =>
      if value.kind.isNumeric then writesArguments eval writes params args s else []
  | _, _, _ => []

def writes : Nat → Frame → Node → Trace
  | 0, _, _, _ => []
  | fuel + 1, frame, node, s =>
    let within := writes fuel frame
    let part (node : Node) : Trace := fun s => if node.isMissing then [] else within node s
    match node with
    | .sequence nodes | .array nodes => writesAll (eval fuel frame) within nodes s
    | .binary _ (.other _) _ | .comparison _ (.other _) _ => []
    | .binary left _ right | .comparison left _ right =>
      writesAll (eval fuel frame) within [left, right] s
    | .assign name expression =>
      within expression s ++ andThen (eval fuel frame expression s) fun value s =>
        andThen (store frame name value s) fun stored _ => [.store name stored]
    | .increment name => andThen (stepVariable frame name 1 s) fun stored _ => [.store name stored]
    | .decrement name => andThen (stepVariable frame name (-1) s) fun stored _ => [.store name stored]
    | .branch condition thenPart elsePart =>
      within condition s ++ andThen (eval fuel frame condition s) fun value s =>
        andThen (truth value s) fun holds s =>
          if holds then within thenPart s else part elsePart s
    | .loop start condition step body =>
      part start s ++ andThen (evalPart fuel frame start s) fun _ =>
        writesWhile (evalCondition fuel frame condition) (evalRound fuel frame step body)
          (part condition)
          (fun s => within body s ++ andThen (eval fuel frame body s) fun _ => part step) fuel
    | .print expression => within expression s
    | .random low high =>
      if low.isMissing || high.isMissing then []
      else writesAll (eval fuel frame) within [low, high] s
    | .define name params body => [.define name params body]
    | .call name args =>
      match s.context.getFunction? name with
      | none => []
      | some function =>
        if args.length = function.params.length then
          writesArguments (eval fuel frame) within function.params args s ++
            andThen (bindArguments (eval fuel frame) name function.params args {} s)
              fun inner => writes fuel inner function.body
        else []
    | _ => []

/-! ## Writes that name only some targets -/

/-- The write names, now or through the body that it records, only these targets. -/
def Write.Within (targets : Set String) : Write → Prop
  | .store name _ => name ∈ targets
  | .define _ _ body => ∀ x ∈ body.targets, x ∈ targets

/-- Where the recorded functions have only these targets, the writes name no others, and they are the
whole effect of the computation on the context. -/
def Performs {α : Type} (targets : Set String) (m : Eval α) (w : Trace) : Prop :=
  ∀ s, s.context.Aims targets →
    (final (m s)).context = (w s).foldl Write.apply s.context ∧ ∀ x ∈ w s, x.Within targets

section Performs
variable {α β : Type} {targets : Set String} {w : Trace}

theorem performs_pure (a : α) : Performs targets (pure a) fun _ => [] :=
  fun _ _ => ⟨rfl, fun _ h => nomatch h⟩

theorem performs_throw (halt : Halt) : Performs targets (throw halt : Eval α) fun _ => [] :=
  fun _ _ => ⟨rfl, fun _ h => nomatch h⟩

/-- Writes within the targets record no function with others. -/
theorem aims_foldl {ws : List Write} (hw : ∀ x ∈ ws, x.Within targets) {c : Context Value}
    (hc : c.Aims targets) : (ws.foldl Write.apply c).Aims targets := by
  induction ws generalizing c with
  | nil => exact hc
  | cons write rest ih =>
    obtain ⟨hfirst, hrest⟩ := List.forall_mem_cons.mp hw
    refine ih hrest ?_
    cases write with
    | store name value => exact hc
    | define name params body =>
      intro f d hd
      simp only [Write.apply, Context.getFunction?, Context.addFunction, Table.get?_insert] at hd
      split at hd
      · cases hd
        exact hfirst
      · exact hc f d hd

theorem Performs.bind {m : Eval α} {f : α → Eval β} {next : α → Trace}
    (hm : Performs targets m w) (hf : ∀ a, Performs targets (f a) (next a)) :
    Performs targets (m >>= f) fun s => w s ++ andThen (m s) next := by
  intro s hs
  dsimp only
  obtain ⟨hcontext, hwithin⟩ := hm s hs
  cases hr : m s with
  | error halt t =>
    rw [hr] at hcontext
    rw [bind_error hr, andThen, List.append_nil]
    exact ⟨hcontext, hwithin⟩
  | ok a t =>
    rw [hr] at hcontext
    have haims : t.context.Aims targets := by
      rw [show t.context = _ from hcontext]
      exact aims_foldl hwithin hs
    obtain ⟨hcontext', hwithin'⟩ := hf a t haims
    rw [bind_ok hr, andThen, List.foldl_append, ← hcontext]
    refine ⟨hcontext', fun write hwrite => ?_⟩
    exact (List.mem_append.mp hwrite).elim (hwithin write) (hwithin' write)

/-- What follows writes nothing. -/
theorem Performs.seal {m : Eval α} {f : α → Eval β} (hm : Performs targets m w)
    (hf : ∀ a, Performs targets (f a) fun _ => []) : Performs targets (m >>= f) w := by
  have hnone (r : EStateM.Result Halt State α) : andThen r (fun _ _ => []) = [] := by
    cases r <;> rfl
  simpa only [hnone, List.append_nil] using hm.bind hf

/-- What is read of the state may decide what follows. -/
theorem performs_get {f : State → Eval α} (hf : ∀ s, Performs targets (f s) w) :
    Performs targets (get >>= f) w :=
  fun s hs => hf s s hs

end Performs

/-! ## One step -/

section
variable {targets : Set String} (frame : Frame)

theorem performs_lookup (x : String) : Performs targets (lookup frame x) fun _ => [] := by
  unfold lookup
  cases frame.get? x with
  | some y => exact performs_pure _
  | none =>
    refine performs_get fun s => ?_
    cases s.context.get? x with
    | none => exact performs_throw _
    | some sym => exact performs_pure _

theorem performs_store {x : String} (hx : x ∈ targets) (v : Value) :
    Performs targets (store frame x v) fun s =>
      andThen (store frame x v s) fun stored _ => [.store x stored] := by
  unfold store
  split
  · exact performs_throw _
  split
  · exact performs_throw _
  · refine fun s _ => ⟨rfl, fun write hwrite => ?_⟩
    obtain rfl := List.mem_singleton.mp hwrite
    exact hx

theorem performs_stepVariable {x : String} (hx : x ∈ targets) (delta : Int) :
    Performs targets (stepVariable frame x delta) fun s =>
      andThen (stepVariable frame x delta s) fun stored _ => [.store x stored] := by
  intro s _
  dsimp only
  cases hr : stepVariable frame x delta s with
  | error halt t =>
    rw [stepVariable_error hr]
    exact ⟨rfl, fun _ h => nomatch h⟩
  | ok v t =>
    obtain ⟨-, n, -, rfl, rfl⟩ := stepVariable_ok hr
    refine ⟨rfl, fun write hwrite => ?_⟩
    obtain rfl := List.mem_singleton.mp hwrite
    exact hx

theorem performs_ofExcept {α : Type} (x : Except Fault α) :
    Performs targets (ofExcept x) fun _ => [] := by
  cases x with
  | error cause => exact performs_throw _
  | ok a => exact performs_pure a

theorem performs_truth (v : Value) : Performs targets (truth v) fun _ => [] := by
  cases v with
  | bool flag => exact performs_pure _
  | _ => exact performs_throw _

end

theorem performs_print {targets : Set String} (v : Value) :
    Performs targets (print v) fun _ => [] :=
  fun _ _ => ⟨rfl, fun _ h => nomatch h⟩

theorem performs_randomInt {targets : Set String} : Performs targets randomInt fun _ => [] :=
  fun _ _ => ⟨rfl, fun _ h => nomatch h⟩

theorem performs_randomBetween {targets : Set String} (low high : Value) :
    Performs targets (randomBetween low high) fun _ => [] := by
  cases low with
  | int low =>
    cases high with
    | int high =>
      dsimp only [randomBetween]
      split
      · exact performs_throw _
      · exact fun _ _ => ⟨rfl, fun _ h => nomatch h⟩
    | _ => exact performs_throw _
  | _ => exact performs_throw _

theorem performs_define {targets : Set String} (name : String) (params : List String) {body : Node}
    (h : ∀ x ∈ body.targets, x ∈ targets) :
    Performs targets (define name params body) fun _ => [.define name params body] := by
  refine fun _ _ => ⟨rfl, fun write hwrite => ?_⟩
  obtain rfl := List.mem_singleton.mp hwrite
  exact h

/-! ## Several steps -/

section
variable {targets : Set String} {f : Node → Eval Value} {w : Node → Trace} {nodes : List Node}

theorem performs_inOrder (h : ∀ node ∈ nodes, Performs targets (f node) (w node)) (last : Value) :
    Performs targets (inOrder f nodes last) (writesAll f w nodes) := by
  induction nodes generalizing last with
  | nil => exact performs_pure last
  | cons node rest ih =>
    obtain ⟨hnode, hrest⟩ := List.forall_mem_cons.mp h
    exact hnode.bind fun v => ih hrest v

theorem performs_each (h : ∀ node ∈ nodes, Performs targets (f node) (w node)) :
    Performs targets (each f nodes) (writesAll f w nodes) := by
  induction nodes with
  | nil => exact performs_pure []
  | cons node rest ih =>
    obtain ⟨hnode, hrest⟩ := List.forall_mem_cons.mp h
    exact hnode.bind fun v => (ih hrest).seal fun vs => performs_pure _

/-- Two operands, and what is made of them. -/
theorem performs_both {α : Type} {left right : Node} (hl : Performs targets (f left) (w left))
    (hr : Performs targets (f right) (w right)) {g : Value → Value → Eval α}
    (hg : ∀ l r, Performs targets (g l r) fun _ => []) :
    Performs targets (f left >>= fun l => f right >>= g l) (writesAll f w [left, right]) :=
  hl.bind fun l => (hr.bind fun r => hg l r)

theorem performs_repeatWhile {condition : Eval Bool} {round : Eval Value} {wc wr : Trace}
    (hc : Performs targets condition wc) (hr : Performs targets round wr) (n : Nat) (last : Value) :
    Performs targets (repeatWhile condition round n last)
      (writesWhile condition round wc wr n) := by
  induction n generalizing last with
  | zero => exact performs_throw _
  | succ n ih =>
    refine hc.bind fun holds => ?_
    cases holds with
    | true => exact hr.bind fun v => ih v
    | false => exact performs_pure last

theorem performs_bindArguments (function : String) (params : List String)
    (h : ∀ node ∈ nodes, Performs targets (f node) (w node)) (frame : Frame) :
    Performs targets (bindArguments f function params nodes frame)
      (writesArguments f w params nodes) := by
  induction params generalizing nodes frame with
  | nil => exact performs_pure frame
  | cons param params ih =>
    cases nodes with
    | nil => exact performs_pure frame
    | cons arg args =>
      obtain ⟨harg, hrest⟩ := List.forall_mem_cons.mp h
      refine harg.bind fun v => ?_
      cases v with
      | int n | float x => exact ih hrest _
      | _ => exact performs_throw _

end

section
variable {targets : Set String} {fuel : Nat} {frame : Frame} {node step body : Node} {w v : Trace}

theorem performs_evalPart (h : Performs targets (eval fuel frame node) w) :
    Performs targets (evalPart fuel frame node) fun s => if node.isMissing then [] else w s := by
  unfold evalPart
  split
  · exact performs_pure _
  · exact h

theorem performs_evalCondition (h : Performs targets (eval fuel frame node) w) :
    Performs targets (evalCondition fuel frame node)
      fun s => if node.isMissing then [] else w s := by
  unfold evalCondition
  split
  · exact performs_pure _
  · exact h.seal fun u => performs_truth u

theorem performs_evalRound (hs : Performs targets (eval fuel frame step) v)
    (hb : Performs targets (eval fuel frame body) w) :
    Performs targets (evalRound fuel frame step body) fun s =>
      w s ++ andThen (eval fuel frame body s) fun _ s => if step.isMissing then [] else v s :=
  hb.bind fun u => (performs_evalPart hs).seal fun _ => performs_pure u

end

/-! ## Whole evaluations -/

theorem performs_eval {targets : Set String} (fuel : Nat) (frame : Frame) {node : Node}
    (h : ∀ x ∈ node.targets, x ∈ targets) :
    Performs targets (eval fuel frame node) (writes fuel frame node) := by
  induction fuel generalizing frame node with
  | zero => exact performs_throw _
  | succ fuel ih =>
    have part (child : Node) (hc : child ∈ node.children) :
        Performs targets (eval fuel frame child) (writes fuel frame child) :=
      ih frame fun x hx => h x (Node.targets_subset hc hx)
    cases node with
    | sequence statements => exact performs_inOrder part _
    | number n | float x | string t | boolean flag => exact performs_pure _
    | identifier x => exact performs_lookup frame x
    | binary left op right =>
      have hleft := part left (by simp [Node.children])
      have hright := part right (by simp [Node.children])
      cases op with
      | other symbol => exact performs_throw _
      | _ => exact performs_both hleft hright fun l r => performs_ofExcept _
    | comparison left op right =>
      have hleft := part left (by simp [Node.children])
      have hright := part right (by simp [Node.children])
      cases op with
      | other symbol => exact performs_throw _
      | _ =>
        exact performs_both hleft hright fun l r =>
          (performs_ofExcept _).seal fun _ => performs_pure _
    | assign x e =>
      have hx : x ∈ targets := h x (List.mem_append_left _ (Node.mem_assigned_self x e))
      exact (part e (by simp [Node.children])).bind fun v => performs_store frame hx v
    | increment x =>
      have hx : x ∈ targets := h x (by simp [Node.targets, Node.stepped, Node.subtrees])
      exact performs_stepVariable frame hx 1
    | decrement x =>
      have hx : x ∈ targets := h x (by simp [Node.targets, Node.stepped, Node.subtrees])
      exact performs_stepVariable frame hx (-1)
    | branch condition thenPart elsePart =>
      refine (part condition (by simp [Node.children])).bind fun c =>
        (performs_truth c).bind fun holds => ?_
      cases holds with
      | true => exact part thenPart (by simp [Node.children])
      | false => exact performs_evalPart (part elsePart (by simp [Node.children]))
    | loop start condition step body =>
      rw [eval_loop]
      have hstart := performs_evalPart (part start (by simp [Node.children]))
      have hcondition := performs_evalCondition (part condition (by simp [Node.children]))
      have hround := performs_evalRound (part step (by simp [Node.children]))
        (part body (by simp [Node.children]))
      exact hstart.bind fun _ => performs_repeatWhile hcondition hround fuel .none
    | print e => exact (part e (by simp [Node.children])).seal fun v => performs_print v
    | random low high =>
      have hlow := part low (by simp [Node.children])
      have hhigh := part high (by simp [Node.children])
      have hboth := performs_both hlow hhigh fun l h => performs_randomBetween l h
      intro s hs
      simp only [eval, writes]
      split
      · exact performs_randomInt s hs
      · exact hboth s hs
    | define name params body =>
      exact performs_define name params fun x hx =>
        h x (Node.targets_subset (by simp [Node.children]) hx)
    | call name args =>
      intro s hs
      rw [eval, bind_ok (get_run s), writes]
      cases hf : s.context.getFunction? name with
      | none => exact performs_throw _ s hs
      | some d =>
        dsimp only
        split
        · have hbody (inner : Frame) : Performs targets
              (eval fuel inner d.body >>= fun v => pure (v.coerce d.returns))
              (writes fuel inner d.body) := (ih inner (hs name d hf)).seal fun v => performs_pure _
          exact (performs_bindArguments name d.params part {}).bind hbody s hs
        · exact performs_throw _ s hs
    | array nodes =>
      exact (performs_each part).seal fun vs => (performs_ofExcept _).seal fun ns => performs_pure _
    | missing | bare => exact performs_throw _

end Evaluator
end DualEngine
