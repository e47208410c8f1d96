import DualEngine.Lowering.Function
import DualEngine.Lowering.Operator
import DualEngine.Lowering.Output
import DualEngine.Prediction
import DualEngine.Value.Basic

/-! # Lowering trees

`lower` follows the tree. A function of an earlier submission is lowered at its first call; such
calls nest at most as deep as there are functions, which is the depth that `emitEarlier` takes.
-/
namespace DualEngine.Lowering
open IR

/-- What joins the two ways through a branch: their value if both have one of the same kind. -/
def merge (thenValue elseValue : Option Typed) (thenEnd elseEnd : String) : Lower Lowered := do
  match thenValue, elseValue with
  | some t, some e =>
    if t.kind = e.kind ∧ t.kind ≠ .none then
      let phi ← emit (.phi (irType t.kind) [(t.operand, thenEnd), (e.operand, elseEnd)]) "ifval"
      pure { value := some ⟨phi, t.kind⟩ }
    else pure {}
  | _, _ => pure {}

/-- The stack cells of a loop with a value: its last value, and whether it ran. -/
structure LoopCells where
  value : Operand
  ran : Operand
  kind : Kind

/-- Keeps the value of a loop's body, if it has one. -/
def keepValue : Option Typed → Lower (Option LoopCells)
  | none => pure none
  | some v => do
    let value ← entryAlloca (irType v.kind) "for.value"
    let ran ← entryAlloca .i1 "for.ran"
    let _ ← emit (.store v.operand value) ""
    let _ ← emit (.store (.int 1 .i1) ran) ""
    pure (some ⟨value, ran, v.kind⟩)

/-- Before the loop its value is the zero of the kind, and it has not run. -/
def clearCells (before : String) (cells : LoopCells) : Lower Unit :=
  inBlock before do
    match ← zero cells.kind with
    | some z => let _ ← emit (.store z cells.value) ""
    | none => pure ()
    let _ ← emit (.store (.int 0 .i1) cells.ran) ""

/-- A branch between two parts, which may have values of their own to join. -/
def lowerBranch (scope : Scope) (condition : Lower Lowered)
    (thenPart elsePart : Scope → Lower Lowered) : Lower Lowered := do
  let c ← condition
  let holds ← truth c.value
  let thenBlock ← addBlock "then"
  let elseBlock ← addBlock "else"
  let after ← addBlock "ifcont"
  let inner := scope.branching (← currentBlock)
  terminate (.branch holds thenBlock elseBlock)
  enter thenBlock
  let t ← thenPart inner
  let thenEnd ← currentBlock
  terminate (.jump after)
  enter elseBlock
  let e ← elsePart inner
  let elseEnd ← currentBlock
  terminate (.jump after)
  enter after
  merge t.value e.value thenEnd elseEnd

/-- Where a loop's condition leads; a loop without one always goes on. -/
def loopExit (bodyBlock after : String) : Option Operand → Terminator
  | none => .jump bodyBlock
  | some holds => .branch holds bodyBlock after

/-- What follows a loop: its last value, if it keeps one. -/
def finishLoop (before after : String) : Option LoopCells → Lower Lowered
  | none => do
    enter after
    pure {}
  | some cells => do
    clearCells before cells
    enter after
    let value ← emit (.load cells.value) "forval"
    pure { value := some ⟨value, cells.kind⟩, ran := cells.ran }

/-- A loop; `condition` gives no operand where it is left out. -/
def lowerLoop (scope : Scope) (start : Lower Lowered)
    (condition : Scope → Lower (Option Operand)) (step body : Scope → Lower Lowered) :
    Lower Lowered := do
  let _ ← start
  let before ← currentBlock
  let conditionBlock ← addBlock "for.cond"
  let bodyBlock ← addBlock "for.body"
  let stepBlock ← addBlock "for.step"
  let after ← addBlock "for.end"
  terminate (.jump conditionBlock)
  let inner := scope.branching before
  enter conditionBlock
  let holds ← condition inner
  terminate (loopExit bodyBlock after holds)
  enter bodyBlock
  let b ← body inner
  let cells ← keepValue b.value
  terminate (.jump stepBlock)
  enter stepBlock
  let _ ← step inner
  terminate (.jump conditionBlock)
  finishLoop before after cells

/-- Gives the code of a function from an earlier submission. -/
abbrev Earlier := String → Definition → Lower Signature

mutual

def lower (earlier : Earlier) (scope : Scope) : Node → Lower Lowered
  | .sequence statements => lowerAll earlier scope statements {}
  | .number n => pure { value := some ⟨int32 (wrapInt n), .int⟩ }
  | .float x => pure { value := some ⟨.double x, .float⟩ }
  | .string s => return { value := some ⟨← textConstant s "str", .string⟩ }
  | .boolean b => pure { value := some ⟨.int (if b then 1 else 0) .i1, .bool⟩ }
  | .identifier name => return { value := some (← loadName scope name) }
  | .binary _ (.other symbol) _ => fail (.invalidOperator symbol)
  | .binary left op right => do
    let l ← lower earlier scope left
    let r ← lower earlier scope right
    return { value := some (← arithmetic l.value op r.value) }
  | .comparison _ (.other symbol) _ => fail (.invalidOperator symbol)
  | .comparison left op right => do
    let l ← lower earlier scope left
    let r ← lower earlier scope right
    return { value := some (← comparison l.value op r.value) }
  | .assign name expression => do
    if scope.params.contains name then mismatch (.assignedParameter name)
    let e ← lower earlier scope expression
    return { value := some (← assign scope name e.value) }
  | .increment name => return { value := some (← stepVariable scope name .add) }
  | .decrement name => return { value := some (← stepVariable scope name .sub) }
  | .branch condition thenPart elsePart =>
    lowerBranch scope (lower earlier scope condition)
      (fun inner => lower earlier inner thenPart)
      (fun inner => if elsePart.isMissing then pure {} else lower earlier inner elsePart)
  | .loop start condition step body =>
    lowerLoop scope
      (if start.isMissing then pure {} else lower earlier scope start)
      (fun inner =>
        if condition.isMissing then pure none
        else do return some (← truth (← lower earlier inner condition).value))
      (fun inner => if step.isMissing then pure {} else lower earlier inner step)
      (fun inner => lower earlier inner body)
  | .print expression => do
    let e ← lower earlier scope expression
    printValue e.value
    pure { value := e.value }
  | .random low high => do
    let drawn ← emit (.call randomInt []) "randcall"
    if low.isMissing || high.isMissing then pure { value := some ⟨drawn, .int⟩ }
    else
      let l ← lower earlier scope low
      let h ← lower earlier scope high
      return { value := some (← randomBetween drawn l.value h.value) }
  | .define name params body => do
    let s ← get
    let kind := (Prediction.predictFunction s.context {} {} name params body).1
    let d : Definition := ⟨params, body, kind⟩
    set { s with context := s.context.addFunction name d }
    let _ ← emitFunction name d fun inner => lower earlier inner body
    pure {}
  | .call name args => do
    match (← get).context.getFunction? name with
    | none => fail (.undefinedFunction name)
    | some d =>
      if args.length = d.params.length then
        let operands ← lowerArguments earlier scope name d.params args
        let callee ← match (← get).functions.get? name with
          | some signature => pure signature
          | none => earlier name d
        return { value := ← callFunction callee d.returns operands }
      else mismatch (.arity name d.params.length args.length)
  | .array elements => do
    let operands ← lowerElements earlier scope elements
    return { value := some (← buildArray operands) }
  | .missing => fail (.notLowered Node.missing.shape)
  | .bare => fail (.notLowered Node.bare.shape)

/-- Trees one after the other; the result is that of the last, or `last` if there is none. -/
def lowerAll (earlier : Earlier) (scope : Scope) : List Node → Lowered → Lower Lowered
  | [], last => pure last
  | node :: rest, _ => do
    let result ← lower earlier scope node
    lowerAll earlier scope rest result

/-- The elements of an array, all of them integers. -/
def lowerElements (earlier : Earlier) (scope : Scope) : List Node → Lower (List Operand)
  | [] => pure []
  | node :: rest => do
    match (← lower earlier scope node).value with
    | some ⟨operand, .int⟩ => return operand :: (← lowerElements earlier scope rest)
    | value => mismatch (.element (kindOf value))

/-- The arguments of a call as doubles, for the parameters in order. -/
def lowerArguments (earlier : Earlier) (scope : Scope) (function : String) :
    List String → List Node → Lower (List Operand)
  | param :: params, node :: rest => do
    match (← lower earlier scope node).value with
    | some value =>
      if value.kind.isNumeric then
        let operand ← toFloat value
        return operand :: (← lowerArguments earlier scope function params rest)
      else mismatch (.argument param function value.kind)
    | none => mismatch (.argument param function .none)
  | _, _ => pure []

end

/-- Functions of earlier submissions that call each other nest at most `depth` deep. -/
def emitEarlier : Nat → Earlier
  | 0, name, _ => fail (.undefinedFunction name)
  | depth + 1, name, d =>
    emitFunction name d fun inner => lower (emitEarlier depth) inner d.body

end DualEngine.Lowering
