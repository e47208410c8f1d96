import DualEngine.Lowering.Conversion

/-! # Variables in generated code

Which slot a name stands for is decided in the order of lowering. A variable that gets a new kind
inside a branch gets a new slot, which is given the variable's former value before the outermost
branch, because the other way through never writes it.
-/
namespace DualEngine.Lowering
open IR

/-- What surrounds the tree being lowered. -/
structure Scope where
  params : Table Operand := {}
  /-- The block that ends in the outermost branch around the tree. -/
  outermost : Option String := none

/-- Inside a branch or a loop that the block `label` ends in. -/
def Scope.branching (scope : Scope) (label : String) : Scope :=
  { scope with outermost := scope.outermost.or (some label) }

def loadName (scope : Scope) (name : String) : Lower Typed := do
  match scope.params.get? name with
  | some operand => pure ⟨operand, .float⟩
  | none =>
    match (← get).context.get? name with
    | none => fail (.undefinedVariable name)
    | some symbol =>
      let address ← slotAddress symbol.storage
      return ⟨← emit (.load address) name, symbol.kind⟩

def newSlot (name : String) (kind : Kind) : Lower Slot := do
  let s ← get
  let slot : Slot := ⟨name, s.nextSlot, kind⟩
  set { s with nextSlot := s.nextSlot + 1, created := s.created ++ [slot] }
  pure slot

/-- Gives a slot made inside a branch the value that the name had before the branch. -/
def seedSlot (scope : Scope) (slot : Slot) (former : Option (Symbol Slot)) : Lower Unit := do
  match scope.outermost, former with
  | some label, some symbol =>
    inBlock label do
      let address ← slotAddress symbol.storage
      let old ← emit (.load address) "previous"
      match ← coerce (some ⟨old, symbol.kind⟩) slot.kind with
      | some value => let _ ← emit (.store value (← slotAddress slot)) ""
      | none => pure ()
  | _, _ => pure ()

/-- The slot for a name that is assigned a value of a kind; a new one if the kind is new. -/
def slotFor (scope : Scope) (name : String) (kind : Kind) : Lower Slot := do
  let former := (← get).context.get? name
  match former.filter (·.kind = kind) with
  | some symbol => pure symbol.storage
  | none =>
    let slot ← newSlot name kind
    seedSlot scope slot former
    modify fun s => { s with context := s.context.add name slot kind }
    pure slot

/-- Stores a value in a slot; text is copied out of the module, which it may otherwise not
outlive. -/
def storeSlot (slot : Slot) (value : Typed) : Lower Unit := do
  let stored ←
    if value.kind = .string then emit (.call strdup [value.operand]) "strcopy"
    else pure value.operand
  let address ← slotAddress slot
  let _ ← emit (.store stored address) ""

def assign (scope : Scope) (name : String) : Option Typed → Lower Typed
  | none => mismatch (.assignedNone name)
  | some value => do
    if value.kind = .none then mismatch (.assignedNone name)
    let slot ← slotFor scope name value.kind
    storeSlot slot value
    pure value

def stepVariable (scope : Scope) (name : String) (op : BinaryOp) : Lower Typed := do
  if scope.params.contains name then mismatch (.steppedParameter name)
  match (← get).context.get? name with
  | none => fail (.undefinedVariable name)
  | some symbol =>
    if symbol.kind = .int then
      let address ← slotAddress symbol.storage
      let current ← emit (.load address) name
      let updated ← emit (.binary op current (int32 1)) "step"
      let _ ← emit (.store updated address) ""
      pure ⟨updated, .int⟩
    else mismatch (.stepped name symbol.kind)

end DualEngine.Lowering
