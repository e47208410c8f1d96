import DualEngine.Lowering.Variable

/-! # Functions in generated code

Parameters are doubles. A function is put into the module where it is defined, and again into every
later module that calls it.
-/
namespace DualEngine.Lowering
open IR

/-- The value of a tree. A loop with a value also tells by a flag whether its body ever ran. -/
structure Lowered where
  value : Option Typed := none
  ran : Option Operand := none

/-- Returns a value from the function under construction, as its declared kind. -/
def returnValue (value : Option Typed) (kind : Kind) : Lower Unit := do
  match ← coerce value kind with
  | some operand => terminate (.ret operand)
  | none => terminate .retVoid

/-- Adds a function to the module. It is known before its body is lowered, so that the body can
call it. -/
def emitFunction (name : String) (d : Definition) (lowerBody : Scope → Lower Lowered) :
    Lower Signature := do
  let irName ← globalName ("fn_" ++ name)
  let signature : Signature := ⟨irName, irType d.returns, d.params.map fun _ => .double, false⟩
  let (unnamed, names) := openNames signature.params
  addGlobal (.function { signature, params := unnamed })
  modify fun s => { s with functions := s.functions.insert name signature }
  let outer := (← get).draft
  let (entry, names) := names.register "entry"
  let (params, names) := names.registerAll d.params
  modify fun s => { s with draft := { names, blocks := [{ label := entry }], current := entry } }
  let operands := params.map fun p => Operand.register p .double
  let scope : Scope := { params := Table.ofList (d.params.zip operands) }
  let result ← lowerBody scope
  returnValue result.value d.returns
  defineFunction irName params (← get).draft.blocks
  modify fun s => { s with draft := outer }
  pure signature

/-- Calls a function of the module. The callee may have been defined anew while the arguments were
lowered, and then want other arguments or return another type than the kind says. -/
def callFunction (callee : Signature) (returns : Kind) (args : List Operand) :
    Lower (Option Typed) := do
  if returns = .none then
    let _ ← emit (.call callee args) ""
    pure none
  else
    return some ⟨← emit (.call callee args) "calltmp", returns⟩

end DualEngine.Lowering
