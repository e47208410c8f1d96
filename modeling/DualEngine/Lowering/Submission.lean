import DualEngine.Lowering.Node

/-! # Lowering a submission

The kind of the value is predicted first, because the entry function is declared before its body
exists; what the body gives is then converted to that kind.
-/
namespace DualEngine.Lowering
open IR

/-- A lowered submission: its module, the name of the entry function, the kind of its value, the
context after it and the slots made for it. -/
structure Artifact where
  module : Module
  entry : String
  kind : Kind
  context : Context Slot
  created : List Slot

/-- The type in which the entry function returns a value; a bool fills a byte. -/
def entryType : Kind → Ty
  | .bool => .i8
  | kind => irType kind

/-- Says whether the submission has a value: not if it ends in a loop that never ran. -/
def storePresence (ran : Option Operand) : Lower Unit := do
  let present ← match ran with
    | none => pure (.int 1 .i8)
    | some flag =>
      let loaded ← emit (.load flag) "ran"
      cast .zext loaded .i8 ""
  let address ← external resultPresent .i8
  let _ ← emit (.store present address) ""

/-- Returns the value of the submission. -/
def returnResult (kind : Kind) : Option Operand → Lower Unit
  | none => terminate .retVoid
  | some operand => do
    if kind = .bool then
      let byte ← cast .zext operand .i8 ""
      terminate (.ret byte)
    else terminate (.ret operand)

/-- Lowers a tree into an entry function of the given name. -/
def lowerEntry (entry : String) (kind : Kind) (node : Node) : Lower Unit := do
  library.forM declare
  let signature : Signature := ⟨entry, entryType kind, [], false⟩
  declare signature
  let (first, names) := (openNames []).2.register "entry"
  modify fun s => { s with draft := { names, blocks := [{ label := first }], current := first } }
  let depth := (← get).context.functions.entries.length
  let result ← lower (emitEarlier depth) {} node
  let value ← coerce result.value kind
  storePresence result.ran
  returnResult kind value
  defineFunction entry [] (← get).draft.blocks

/-- Lowers a submission against a context. The second result is the number for the next slot;
numbers stay used if lowering fails. -/
def lowerSubmission (c : Context Slot) (number nextSlot : Nat) (node : Node) :
    Except Fault Artifact × Nat :=
  let kind := Prediction.predictResult c node
  let entry := "repl_entry_" ++ toString number
  match lowerEntry entry kind node { context := c, nextSlot } with
  | .ok _ s => (.ok ⟨⟨s.globals⟩, entry, kind, s.context, s.created⟩, s.nextSlot)
  | .error cause s => (.error cause, s.nextSlot)

end DualEngine.Lowering
