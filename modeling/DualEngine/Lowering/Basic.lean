import DualEngine.Context.Basic
import DualEngine.Fault
import DualEngine.IR.Basic
import DualEngine.IR.Names

/-! # Building a module

The state of lowering: the context as far as it is lowered, the module as far as it is built, and
the function under construction. Instructions go to the end of the current block; `inBlock` puts
them at the end of another one, before its terminator.
-/
namespace DualEngine

/-- A cell of the machine that holds a variable; slots are numbered through a session. -/
structure Slot where
  name : String
  number : Nat
  kind : Kind
deriving DecidableEq, Repr, Inhabited

/-- The name by which generated code refers to a slot. -/
def Slot.symbol (s : Slot) : String := "duet.var." ++ s.name ++ "." ++ toString s.number

namespace Lowering
open IR

/-- A function under construction. -/
structure Draft where
  names : Names := {}
  blocks : List Block := []
  current : String := ""

structure State where
  context : Context Slot
  nextSlot : Nat
  /-- The slots made so far, oldest first. -/
  created : List Slot := []
  globals : List Global := []
  globalNames : Names := {}
  /-- The functions of the module under the names that calls use. -/
  functions : Table Signature := {}
  draft : Draft := {}

abbrev Lower := EStateM Fault State

def fail {α : Type} (cause : Fault) : Lower α := throw cause

def mismatch {α : Type} (cause : Mismatch) : Lower α := throw (.mismatch cause)

def irType : Kind → Ty
  | .int => .i32
  | .float => .double
  | .bool => .i1
  | .string => .text
  | .intArray => .ints
  | .none => .void

/-- A value with its kind. -/
structure Typed where
  operand : Operand
  kind : Kind

/-- The kind of a result; no value is of kind `none`. -/
def kindOf : Option Typed → Kind
  | none => .none
  | some value => value.kind

/-- A name of the function under construction. -/
def freshName (wanted : String) : Lower String := do
  let s ← get
  let (name, names) := s.draft.names.register wanted
  set { s with draft := { s.draft with names } }
  pure name

/-- Changes the block with a label. -/
def Draft.update (d : Draft) (label : String) (f : Block → Block) : Draft :=
  { d with blocks := d.blocks.map fun b => if b.label = label then f b else b }

/-- Changes the current block. -/
def updateCurrent (f : Block → Block) : Lower Unit :=
  modify fun s => { s with draft := s.draft.update s.draft.current f }

/-- Appends an instruction to the current block and gives its result. -/
def emit (operation : Operation) (wanted : String) : Lower Operand := do
  if let some cause := operation.misfit? then fail (.misfit cause)
  let instruction := ⟨← freshName wanted, operation⟩
  updateCurrent fun b => { b with body := b.body ++ [instruction] }
  pure instruction.result

/-- A value in another type; one that is of the type already stays as it is. -/
def cast (how : Conversion) (value : Operand) (type : Ty) (wanted : String) : Lower Operand :=
  if value.type = type then pure value else emit (.convert how value type) wanted

/-- Ends the current block. -/
def terminate (terminator : Terminator) : Lower Unit := do
  let _ ← freshName ""
  updateCurrent fun b => { b with terminator := some terminator }

/-- Appends an empty block to the function. -/
def addBlock (wanted : String) : Lower String := do
  let label ← freshName wanted
  modify fun s => { s with draft := { s.draft with blocks := s.draft.blocks ++ [{ label }] } }
  pure label

def currentBlock : Lower String := return (← get).draft.current

/-- Goes on at the end of a block. -/
def enter (label : String) : Lower Unit :=
  modify fun s => { s with draft := { s.draft with current := label } }

/-- Runs `build` at the end of another block and comes back. -/
def inBlock {α : Type} (label : String) (build : Lower α) : Lower α := do
  let back ← currentBlock
  enter label
  let a ← build
  enter back
  pure a

/-- A stack cell, made in the first block of the function. -/
def entryAlloca (type : Ty) (wanted : String) : Lower Operand := do
  match (← get).draft.blocks with
  | [] => emit (.alloca type) wanted
  | first :: _ => inBlock first.label (emit (.alloca type) wanted)

def addGlobal (g : Global) : Lower Unit :=
  modify fun s => { s with globals := s.globals ++ [g] }

def globalName (wanted : String) : Lower String := do
  let s ← get
  let (name, globalNames) := s.globalNames.register wanted
  set { s with globalNames }
  pure name

/-- The address of a variable that lives outside the module. Its symbol is no name that the module
gives to anything else. -/
def external (symbol : String) (type : Ty) : Lower Operand := do
  let known := (← get).globals.any fun
    | .external name _ => name == symbol
    | _ => false
  if !known then addGlobal (.external symbol type)
  pure (.global symbol (.pointer type))

def slotAddress (slot : Slot) : Lower Operand := external slot.symbol (irType slot.kind)

/-- The name of the module's constant with these contents. -/
def textName (contents wanted : String) : Lower String := do
  let known := (← get).globals.findSome? fun
    | .text name c => if c = contents then some name else none
    | _ => none
  match known with
  | some name => pure name
  | none =>
    let name ← globalName wanted
    addGlobal (.text name contents)
    pure name

/-- A pointer to a constant text. A text that the module has already keeps its name. -/
def textConstant (contents wanted : String) : Lower Operand := do
  let name ← textName contents wanted
  cast .bitcast (.global name (.pointer (textType contents))) .text ""

def int32 (n : Int) : Operand := .int n .i32

/-- The unnamed parameters of a new function, and its name scope; one more name is taken for what
the function returns. -/
def openNames (params : List Ty) : List String × Names :=
  let (names, scope) := ({} : Names).registerAll (params.map fun _ => "")
  (names, (scope.register "").2)

def declare (signature : Signature) : Lower Unit := do
  let _ ← globalName signature.name
  addGlobal (.function { signature, params := (openNames signature.params).1 })

/-- Gives a declared function its parameter names and its blocks. -/
def defineFunction (name : String) (params : List String) (blocks : List Block) : Lower Unit :=
  modify fun s => { s with globals := s.globals.map fun
    | .function f => .function (if f.signature.name = name then { f with params, blocks } else f)
    | g => g }

end Lowering
end DualEngine
