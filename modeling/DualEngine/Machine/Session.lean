import DualEngine.Lowering.Submission
import DualEngine.Machine.Step

/-! # Sessions of compiled submissions

A submission is lowered, loaded and run. Its context is kept only if the run succeeds; cells and
buffers stay for the whole session, and the constants of a module are freed after its run.
-/
namespace DualEngine.Machine
open IR Lowering

structure Session where
  context : Context Slot := {}
  /-- How many submissions were lowered, with or without success. -/
  entries : Nat := 0
  /-- How many slots were made. -/
  slots : Nat := 0
  memory : Memory := .initial

/-- The word that a cell of a kind starts with. -/
def zeroWord : Kind → Word
  | .int => .int 0
  | .float => .double 0.0
  | .bool => .bit false
  | .intArray => .address Memory.emptyArray
  | _ => .address Memory.emptyText

def Memory.addSlot (m : Memory) (slot : Slot) : Memory :=
  m.setCell slot.symbol (zeroWord slot.kind)

/-- Puts the constant texts of a module into buffers. -/
def loadConstants (m : Memory) (constants : Table Address) : List Global → Memory × Table Address
  | [] => (m, constants)
  | .text name contents :: rest =>
    let (a, m) := m.allocate (contents.utf8ByteSize + 1) (.text contents)
    loadConstants m (constants.insert name a) rest
  | _ :: rest => loadConstants m constants rest

def freeConstants (m : Memory) (constants : Table Address) : Memory :=
  constants.entries.foldl (fun m entry =>
    match entry.2 with
    | .heap buffer _ => m.setContents buffer .freed
    | _ => m) m

/-- The value that a word stands for. -/
def decode? (m : Memory) : Kind → Word → Option Value
  | .int, .int n => some (.int n.toInt)
  | .float, .double x => some (.float x)
  | .bool, .bit b => some (.bool b)
  | .bool, .byte n => some (.bool (n % 2 == 1))
  | .string, .address a => (m.text? a).map .string
  | .intArray, .address a => (m.array? a).map .intArray
  | .none, _ => some .none
  | _, _ => none

/-- The value in a variable's cell. -/
def Session.read? (s : Session) (slot : Slot) : Option Value :=
  (s.memory.cells.get? slot.symbol).bind (decode? s.memory slot.kind)

/-- The value of a submission whose entry function returned `word`. -/
def result (kind : Kind) (word : Option Word) : Run Value := do
  let m := (← get).memory
  match m.cells.get? resultPresent, kind, word with
  | some (.byte 0), _, _ => pure .none
  | _, .none, _ => pure .none
  | _, _, some w => ofOption .memory (decode? m kind w)
  | _, _, none => trap .malformed

/-- Runs the entry function of a lowered submission. -/
def runArtifact (fuel : Nat) (a : Artifact) : Run Value := do
  let s ← get
  let memory := (a.created.foldl Memory.addSlot s.memory).setCell resultPresent (.byte 1)
  let (memory, constants) := loadConstants memory {} a.module.globals
  set { s with memory }
  let functions := a.module.globals.filterMap fun
    | .function f => some f
    | _ => none
  let image : Image := ⟨functions, constants⟩
  match image.function? a.entry with
  | none => trap .malformed
  | some f =>
    let label := (f.blocks.head?.map Block.label).getD ""
    let word ← execute image fuel f label "" {}
    let value ← result a.kind word
    modify fun s => { s with memory := freeConstants s.memory constants }
    pure value

/-- Why a submission has no value. -/
inductive Failure where
  | lowering (cause : Fault)
  | running (cause : Halt)

/-- Lowers a submission without running it; the numbers it takes are used up. -/
def Session.lower (s : Session) (node : Node) : Except Fault Artifact × Session :=
  let (result, slots) := lowerSubmission s.context s.entries s.slots node
  (result, { s with entries := s.entries + 1, slots })

/-- What became of a submission: its module, its value, the text it printed, and the generator and
the session after it. -/
structure Outcome where
  module : Option Module
  value : Except Failure Value
  out : String
  generator : Random.Generator
  session : Session

def Session.run (fuel : Nat) (generator : Random.Generator) (s : Session) (node : Node) :
    Outcome :=
  match s.lower node with
  | (.error cause, s) => ⟨none, .error (.lowering cause), "", generator, s⟩
  | (.ok artifact, s) =>
    match runArtifact fuel artifact { memory := s.memory, generator } with
    | .ok value state =>
      ⟨some artifact.module, .ok value, state.out, state.generator,
        { s with context := artifact.context, memory := state.memory }⟩
    | .error halt state =>
      ⟨some artifact.module, .error (.running halt), state.out, state.generator,
        { s with memory := state.memory }⟩

end DualEngine.Machine
