import DualEngine.Prediction
import DualEngine.Random.Twister
import DualEngine.Value.Operation

/-! # The state of evaluation and what changes it

A tree is evaluated by walking it. An assignment takes effect on the context at once, so what
happened before a fault stays. Inside a function only the parameters of the newest call are seen
beside the context. Evaluation is bounded by fuel; `Halt.exhausted` says that it ran out.
-/
namespace DualEngine.Evaluator

/-- What evaluation notes down for a reader of the log. -/
inductive Event where
  | predicted (function : String) (kind : Kind)
  | defined (function : String) (params : List String) (kind : Kind)
  | committed (before after : Nat)

/-- The context, the generator, the text printed so far and the log, newest entry first. -/
structure State where
  context : Context Value := {}
  generator : Random.Generator
  out : String := ""
  log : List Event := []

inductive Halt where
  | fault (cause : Fault)
  | exhausted

abbrev Eval := EStateM Halt State

/-- The parameters of a call. -/
abbrev Frame := Table Float

def fail {α : Type} (cause : Fault) : Eval α := throw (.fault cause)

def mismatch {α : Type} (cause : Mismatch) : Eval α := fail (.mismatch cause)

def ofExcept {α : Type} : Except Fault α → Eval α
  | .ok a => pure a
  | .error cause => fail cause

/-- The context replaced by a later version of it. -/
def State.commit (s : State) (c : Context Value) : State :=
  { s with context := c, log := .committed s.context.version c.version :: s.log }

def lookup (frame : Frame) (name : String) : Eval Value := do
  match frame.get? name with
  | some x => pure (.float x)
  | none =>
    match (← get).context.get? name with
    | some symbol => pure symbol.storage
    | none => fail (.undefinedVariable name)

def store (frame : Frame) (name : String) (value : Value) : Eval Value := do
  if frame.contains name then mismatch (.assignedParameter name)
  else if value.kind = .none then mismatch (.assignedNone name)
  else
    modify fun s => s.commit (s.context.add name value value.kind)
    pure value

/-- Adds `delta` to an integer variable. -/
def stepVariable (frame : Frame) (name : String) (delta : Int) : Eval Value := do
  match ← lookup frame name with
  | .int n => store frame name (.int (wrapInt (n + delta)))
  | value => mismatch (.stepped name value.kind)

def truth (value : Value) : Eval Bool :=
  match value with
  | .bool b => pure b
  | _ => mismatch (.condition value.kind)

/-- The elements of an array, all of them integers. -/
def elements : List Value → Except Fault (List Int)
  | [] => .ok []
  | .int n :: rest => do .ok (n :: (← elements rest))
  | value :: _ => .error (.mismatch (.element value.kind))

/-- Evaluates nodes in order; the value is that of the last. -/
def inOrder (eval : Node → Eval Value) : List Node → Value → Eval Value
  | [], last => pure last
  | node :: rest, _ => do inOrder eval rest (← eval node)

/-- Evaluates nodes in order and keeps every value. -/
def each (eval : Node → Eval Value) : List Node → Eval (List Value)
  | [] => pure []
  | node :: rest => do
    let value ← eval node
    return value :: (← each eval rest)

/-- Repeats `body` while `condition` holds, at most `n` times. -/
def repeatWhile (condition : Eval Bool) (body : Eval Value) : Nat → Value → Eval Value
  | 0, _ => throw .exhausted
  | n + 1, last => do
    if ← condition then repeatWhile condition body n (← body) else pure last

/-- Evaluates the arguments of a call and binds the parameters to them. -/
def bindArguments (eval : Node → Eval Value) (function : String) :
    List String → List Node → Frame → Eval Frame
  | param :: params, arg :: args, frame => do
    match ← eval arg with
    | .int n => bindArguments eval function params args (frame.insert param (Float.ofInt n))
    | .float x => bindArguments eval function params args (frame.insert param x)
    | value => mismatch (.argument param function value.kind)
  | _, _, frame => pure frame

def print (value : Value) : Eval Value := do
  modify fun s => { s with out := s.out ++ value.text ++ "\n" }
  pure value

def randomInt : Eval Value := do
  let s ← get
  let (n, g) := s.generator.int
  set { s with generator := g }
  pure (.int n)

def randomBetween : Value → Value → Eval Value
  | .int low, .int high => do
    if high ≤ low then fail (.emptyRange low high)
    else
      let s ← get
      let (n, g) := s.generator.between low high
      set { s with generator := g }
      pure (.int n)
  | _, _ => mismatch .bounds

def define (name : String) (params : List String) (body : Node) : Eval Value := do
  modify fun s =>
    let (kind, settled) := Prediction.predictFunction s.context {} {} name params body
    let noted := settled.map fun (function, kind) => Event.predicted function kind
    let s := { s with log := Event.defined name params kind :: noted ++ s.log }
    s.commit (s.context.addFunction name ⟨params, body, kind⟩)
  pure .none

end DualEngine.Evaluator
