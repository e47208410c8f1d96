import DualEngine.Evaluator.Basic

/-! # Evaluating trees -/
namespace DualEngine.Evaluator

def eval : Nat → Frame → Node → Eval Value
  | 0, _, _ => throw .exhausted
  | fuel + 1, frame, node =>
    match node with
    | .sequence statements => inOrder (eval fuel frame) statements .none
    | .number n => pure (.int (wrapInt n))
    | .float x => pure (.float x)
    | .string s => pure (.string s)
    | .boolean b => pure (.bool b)
    | .identifier name => lookup frame name
    | .binary _ (.other symbol) _ => fail (.invalidOperator symbol)
    | .binary left op right => do
      let l ← eval fuel frame left
      let r ← eval fuel frame right
      ofExcept (l.arithmetic op r)
    | .comparison _ (.other symbol) _ => fail (.invalidOperator symbol)
    | .comparison left op right => do
      let l ← eval fuel frame left
      let r ← eval fuel frame right
      return .bool (← ofExcept (l.compare op r))
    | .assign name expression => do store frame name (← eval fuel frame expression)
    | .increment name => stepVariable frame name 1
    | .decrement name => stepVariable frame name (-1)
    | .branch condition thenPart elsePart => do
      if ← truth (← eval fuel frame condition) then eval fuel frame thenPart
      else if elsePart.isMissing then pure .none
      else eval fuel frame elsePart
    | .loop start condition step body => do
      let part (node : Node) : Eval Value :=
        if node.isMissing then pure .none else eval fuel frame node
      let _ ← part start
      let continues := if condition.isMissing then pure true else do
        truth (← eval fuel frame condition)
      let round := do
        let value ← eval fuel frame body
        let _ ← part step
        pure value
      repeatWhile continues round fuel .none
    | .print expression => do print (← eval fuel frame expression)
    | .random low high =>
      if low.isMissing || high.isMissing then randomInt
      else do
        let l ← eval fuel frame low
        let h ← eval fuel frame high
        randomBetween l h
    | .define name params body => define name params body
    | .call name args => do
      match (← get).context.getFunction? name with
      | none => fail (.undefinedFunction name)
      | some function =>
        if args.length = function.params.length then
          let inner ← bindArguments (eval fuel frame) name function.params args {}
          let result ← eval fuel inner function.body
          pure (result.coerce function.returns)
        else mismatch (.arity name function.params.length args.length)
    | .array nodes => do
      let values ← each (eval fuel frame) nodes
      return .intArray (← ofExcept (elements values))
    | .missing | .bare => fail (.notEvaluated node.shape)

/-- Evaluates a submission. -/
def evaluate (fuel : Nat) (node : Node) : Eval Value := eval fuel {} node

/-- The value or the reason for stopping, with the state in which evaluation ends. -/
def run (fuel : Nat) (node : Node) (s : State) : Except Halt Value × State :=
  match evaluate fuel node s with
  | .ok value s => (.ok value, s)
  | .error halt s => (.error halt, s)

end DualEngine.Evaluator
