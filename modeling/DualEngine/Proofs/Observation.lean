import DualEngine.Evaluator.Eval
import DualEngine.Proofs.Words

/-! # What an evaluation computes on its way

`observe` follows `eval` and lists the values that it computes, the quotients that it takes and
what it prints. An evaluation is portable if generated code can do the same with all of them.
-/
namespace DualEngine.Evaluator

inductive Observation where
  | value (v : Value)
  | quotient (left right : Value)
  | printed (v : Value)

/-- Values without NaN and zero characters, no quotient that overflows, and no array printed. -/
def Observation.Portable : Observation → Prop
  | .value v => v.Portable
  | .quotient left right => left.overflows right = false
  | .printed v => v.kind ≠ .intArray

instance (o : Observation) : Decidable o.Portable :=
  match o with
  | .value v => inferInstanceAs (Decidable v.Portable)
  | .quotient left right => inferInstanceAs (Decidable (left.overflows right = false))
  | .printed v => inferInstanceAs (Decidable (v.kind ≠ .intArray))

/-- What is observed from a state on. -/
abbrev Watch := State → List Observation

/-- What is observed after a finished computation. -/
def after {α : Type} (r : EStateM.Result Halt State α) (next : α → Watch) : List Observation :=
  match r with
  | .ok a s => next a s
  | .error _ _ => []

variable {α : Type} {s s' : State} {a : α}

theorem after_ok {r : EStateM.Result Halt State α} (h : r = .ok a s) (next : α → Watch) :
    after r next = next a s := by
  rw [h, after]

/-- Nodes that are evaluated in order. -/
def observeAll (eval : Node → Eval Value) (observe : Node → Watch) : List Node → Watch
  | [], _ => []
  | node :: rest, s =>
    observe node s ++ after (eval node s) fun _ s => observeAll eval observe rest s

/-- A loop of at most so many rounds. -/
def observeWhile (condition : Eval Bool) (round : Eval Value) (watchCondition watchRound : Watch) :
    Nat → Watch
  | 0, _ => []
  | n + 1, s =>
    watchCondition s ++ after (condition s) fun holds s =>
      if holds then
        watchRound s ++ after (round s) fun _ s =>
          observeWhile condition round watchCondition watchRound n s
      else []

/-- A part of a loop, which may be left out. -/
def evalPart (fuel : Nat) (frame : Frame) (node : Node) : Eval Value :=
  if node.isMissing then pure .none else eval fuel frame node

/-- Whether a loop goes on; it does if the condition is left out. -/
def evalCondition (fuel : Nat) (frame : Frame) (condition : Node) : Eval Bool :=
  if condition.isMissing then pure true else do truth (← eval fuel frame condition)

/-- One round of a loop. -/
def evalRound (fuel : Nat) (frame : Frame) (step body : Node) : Eval Value := do
  let value ← eval fuel frame body
  let _ ← evalPart fuel frame step
  pure value

theorem eval_loop (fuel : Nat) (frame : Frame) (start condition step body : Node) :
    eval (fuel + 1) frame (.loop start condition step body) = (do
      let _ ← evalPart fuel frame start
      repeatWhile (evalCondition fuel frame condition) (evalRound fuel frame step body) fuel
        .none) := rfl

def observe : Nat → Frame → Node → Watch
  | 0, _, _, _ => []
  | fuel + 1, frame, node, s =>
    let inner := match node with
      | .sequence nodes | .array nodes => observeAll (eval fuel frame) (observe fuel frame) nodes s
      | .binary left op right =>
        observe fuel frame left s ++ after (eval fuel frame left s) fun l s =>
          observe fuel frame right s ++ after (eval fuel frame right s) fun r _ =>
            if op = .div then [.quotient l r] else []
      | .comparison left _ right =>
        observeAll (eval fuel frame) (observe fuel frame) [left, right] s
      | .assign _ expression => observe fuel frame expression s
      | .branch condition thenPart elsePart =>
        observe fuel frame condition s ++ after (eval fuel frame condition s) fun c s =>
          after (truth c s) fun holds s =>
            if holds then observe fuel frame thenPart s else observe fuel frame elsePart s
      | .loop start condition step body =>
        observe fuel frame start s ++ after (evalPart fuel frame start s) fun _ s =>
          observeWhile (evalCondition fuel frame condition) (evalRound fuel frame step body)
            (observe fuel frame condition)
            (fun s => observe fuel frame body s ++ after (eval fuel frame body s) fun _ s =>
              observe fuel frame step s) fuel s
      | .print expression =>
        observe fuel frame expression s ++ after (eval fuel frame expression s) fun v _ =>
          [.printed v]
      | .random low high => observeAll (eval fuel frame) (observe fuel frame) [low, high] s
      | .call name args =>
        observeAll (eval fuel frame) (observe fuel frame) args s ++
          match s.context.getFunction? name with
          | none => []
          | some function =>
            after (bindArguments (eval fuel frame) name function.params args {} s) fun inner s =>
              observe fuel inner function.body s
      | _ => []
    inner ++ after (eval (fuel + 1) frame node s) fun v _ => [.value v]

/-- All that the evaluation computes is portable. -/
def Portably (fuel : Nat) (frame : Frame) (node : Node) (s : State) : Prop :=
  ∀ o ∈ observe fuel frame node s, o.Portable

instance (fuel : Nat) (frame : Frame) (node : Node) (s : State) :
    Decidable (Portably fuel frame node s) :=
  inferInstanceAs (Decidable (∀ o ∈ observe fuel frame node s, o.Portable))

end DualEngine.Evaluator
