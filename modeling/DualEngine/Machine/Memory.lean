import DualEngine.Context.Table
import DualEngine.Random.Twister

/-! # Words, buffers and memory

A word is what a register or a cell holds. Cells outlive the modules and are found by their
symbols; buffers are found by number. A buffer that is allocated is blank until a text or an
integer is written to it, and stays where it is until it is freed.
-/
namespace DualEngine.Machine

inductive Address where
  | null
  /-- A cell outside the modules. -/
  | cell (symbol : String)
  /-- A stack cell of the running function. -/
  | stack (name : String)
  /-- A place in a buffer, counted in elements. -/
  | heap (buffer index : Nat)
deriving DecidableEq, Repr, Inhabited

inductive Word where
  | bit (b : Bool)
  | byte (n : UInt8)
  | int (n : Int32)
  | long (n : Int64)
  | double (x : Float)
  | address (a : Address)
deriving Inhabited

inductive Contents where
  | blank
  | text (s : String)
  | ints (elements : List (Option Int32))
  | freed
deriving Inhabited

/-- A buffer of so many bytes. -/
structure Buffer where
  size : Nat
  contents : Contents
deriving Inhabited

structure Memory where
  cells : Table Word := {}
  heap : Array Buffer

/-- A text ends at its first zero character. -/
def cut (s : String) : String := String.ofList (s.toList.takeWhile (· != '\x00'))

namespace Memory

/-- The first two buffers hold the empty text and the empty array. -/
def initial : Memory := { heap := #[⟨1, .text ""⟩, ⟨4, .ints [some 0]⟩] }

def emptyText : Address := .heap 0 0
def emptyArray : Address := .heap 1 0

def allocate (m : Memory) (size : Nat) (contents : Contents) : Address × Memory :=
  (.heap m.heap.size 0, { m with heap := m.heap.push ⟨size, contents⟩ })

def setCell (m : Memory) (symbol : String) (word : Word) : Memory :=
  { m with cells := m.cells.insert symbol word }

def setContents (m : Memory) (buffer : Nat) (contents : Contents) : Memory :=
  { m with heap := m.heap.modify buffer fun b => { b with contents } }

/-- The text at an address. -/
def text? (m : Memory) : Address → Option String
  | .heap buffer 0 =>
    match m.heap[buffer]? with
    | some ⟨_, .text s⟩ => some (cut s)
    | _ => none
  | _ => none

/-- Writes a text and the zero after it, if the buffer has room for them. -/
def writeText? (m : Memory) (a : Address) (s : String) : Option Memory :=
  match a with
  | .heap buffer 0 =>
    match m.heap[buffer]? with
    | some b => if s.utf8ByteSize < b.size then some (m.setContents buffer (.text s)) else none
    | none => none
  | _ => none

def int? (m : Memory) (buffer index : Nat) : Option Int32 :=
  match m.heap[buffer]? with
  | some ⟨_, .ints elements⟩ => elements[index]?.join
  | _ => none

/-- Writes an integer of four bytes, if the buffer has room for it. -/
def writeInt? (m : Memory) (buffer index : Nat) (n : Int32) : Option Memory :=
  match m.heap[buffer]? with
  | some b =>
    let elements := match b.contents with
      | .ints elements => elements
      | _ => List.replicate (b.size / 4) none
    if index < elements.length then
      some (m.setContents buffer (.ints (elements.set index (some n))))
    else none
  | none => none

/-- The integers from an index on. -/
def intsFrom? (m : Memory) (buffer : Nat) : Nat → Nat → Option (List Int)
  | _, 0 => some []
  | index, count + 1 => do
    let n ← m.int? buffer index
    return n.toInt :: (← m.intsFrom? buffer (index + 1) count)

/-- An array: its length, then its elements. -/
def array? (m : Memory) : Address → Option (List Int)
  | .heap buffer 0 => do
    let length ← m.int? buffer 0
    m.intsFrom? buffer 1 length.toInt.toNat
  | _ => none

end Memory

/-- What running code changes: memory, the generator and the text printed so far. -/
structure State where
  memory : Memory
  generator : Random.Generator
  out : String := ""

/-- What code can do that has no meaning. -/
inductive Trap where
  | division
  | memory
  | malformed
deriving DecidableEq, Repr

inductive Halt where
  | trap (cause : Trap)
  | exhausted
deriving DecidableEq, Repr

abbrev Run := EStateM Halt State

def trap {α : Type} (cause : Trap) : Run α := throw (.trap cause)

def ofOption {α : Type} (cause : Trap) : Option α → Run α
  | some a => pure a
  | none => trap cause

end DualEngine.Machine
