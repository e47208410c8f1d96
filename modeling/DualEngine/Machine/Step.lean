import DualEngine.IR.Basic
import DualEngine.Lowering.Library
import DualEngine.Machine.Library
import DualEngine.Value.Basic

/-! # Running a module

A function runs block by block. Its registers and stack cells belong to the call; memory, the
generator and the output belong to the machine. `execute` is bounded by fuel, which every block
takes a unit of.
-/
namespace DualEngine.Machine
open IR

/-- The registers and the stack cells of a call. -/
structure Frame where
  registers : Table Word := {}
  stack : Table Word := {}

/-- A loaded module: its functions, and where its constant texts are. -/
structure Image where
  functions : List Function
  constants : Table Address

def Image.function? (image : Image) (name : String) : Option Function :=
  image.functions.find? fun f => f.signature.name == name && !f.blocks.isEmpty

/-- The address that a global's name stands for. -/
def Image.address (image : Image) (name : String) : Address :=
  match image.constants.get? name with
  | some a => a
  | none =>
    if name = Lowering.emptyText then Memory.emptyText
    else if name = Lowering.emptyArray then Memory.emptyArray
    else .cell name

def constant (n : Int) : Ty → Run Word
  | .i1 => pure (.bit (n != 0))
  | .i8 => pure (.byte (UInt8.ofNat n.toNat))
  | .i32 => pure (.int (Int32.ofInt n))
  | .i64 => pure (.long (Int64.ofInt n))
  | _ => trap .malformed

def operand (image : Image) (frame : Frame) : Operand → Run Word
  | .register name _ => ofOption .malformed (frame.registers.get? name)
  | .global name _ => pure (.address (image.address name))
  | .int n type => constant n type
  | .double x => pure (.double x)
  | .null _ => pure (.address .null)

/-- Whether a signed quotient is undefined: by zero, or too large. -/
def undefinedQuotient (a b : Int32) : Bool := b == 0 || (a == Int32.minValue && b == -1)

def binary : BinaryOp → Word → Word → Run Word
  | .add, .int a, .int b => pure (.int (a + b))
  | .sub, .int a, .int b => pure (.int (a - b))
  | .mul, .int a, .int b => pure (.int (a * b))
  | .sdiv, .int a, .int b =>
    if undefinedQuotient a b then trap .division else pure (.int (a / b))
  | .srem, .int a, .int b =>
    if undefinedQuotient a b then trap .division else pure (.int (a % b))
  | .add, .long a, .long b => pure (.long (a + b))
  | .fadd, .double a, .double b => pure (.double (a + b))
  | .fsub, .double a, .double b => pure (.double (a - b))
  | .fmul, .double a, .double b => pure (.double (a * b))
  | .fdiv, .double a, .double b => pure (.double (a / b))
  | _, _, _ => trap .malformed

def testInts : IntTest → Int32 → Int32 → Bool
  | .eq, a, b => a == b
  | .ne, a, b => a != b
  | .slt, a, b => a < b
  | .sgt, a, b => b < a
  | .sle, a, b => a ≤ b
  | .sge, a, b => b ≤ a

def testFloats : FloatTest → Float → Float → Bool
  | .oeq, a, b => a == b
  | .olt, a, b => a < b
  | .ogt, a, b => b < a
  | .ole, a, b => a ≤ b
  | .oge, a, b => b ≤ a
  | .une, a, b => a != b

def icmp : IntTest → Word → Word → Run Word
  | test, .int a, .int b => pure (.bit (testInts test a b))
  | .eq, .bit a, .bit b => pure (.bit (a == b))
  | .ne, .bit a, .bit b => pure (.bit (a != b))
  | _, _, _ => trap .malformed

def fcmp : FloatTest → Word → Word → Run Word
  | test, .double a, .double b => pure (.bit (testFloats test a b))
  | _, _, _ => trap .malformed

def convert : Conversion → Word → Ty → Run Word
  | .sitofp, .int n, .double => pure (.double (Float.ofInt n.toInt))
  | .uitofp, .bit b, .double => pure (.double (if b then 1.0 else 0.0))
  | .fptosi, .double x, .i32 => pure (.int (Int32.ofInt (truncateFloat x)))
  | .zext, .bit b, .i8 => pure (.byte (if b then 1 else 0))
  | .zext, .bit b, .i32 => pure (.int (if b then 1 else 0))
  | .sext, .int n, .i64 => pure (.long n.toInt64)
  | .bitcast, .address a, .pointer _ => pure (.address a)
  | _, _, _ => trap .malformed

def load (frame : Frame) : Word → Run Word
  | .address (.cell symbol) => do ofOption .memory ((← get).memory.cells.get? symbol)
  | .address (.stack name) => ofOption .memory (frame.stack.get? name)
  | .address (.heap buffer index) => do
    return .int (← ofOption .memory ((← get).memory.int? buffer index))
  | _ => trap .memory

/-- Stores a word; the frame changes if it goes to a stack cell. -/
def store (frame : Frame) (word : Word) : Word → Run Frame
  | .address (.cell symbol) => do
    modify fun s => { s with memory := s.memory.setCell symbol word }
    pure frame
  | .address (.stack name) => pure { frame with stack := frame.stack.insert name word }
  | .address (.heap buffer index) => do
    match word with
    | .int n =>
      let s ← get
      let memory ← ofOption .memory (s.memory.writeInt? buffer index n)
      set { s with memory }
      pure frame
    | _ => trap .memory
  | _ => trap .memory

/-- Calls a function with its arguments. -/
abbrev Invoke := Signature → List Word → Run (Option Word)

def operands (image : Image) (frame : Frame) : List Operand → Run (List Word)
  | [] => pure []
  | o :: rest => do
    let word ← operand image frame o
    return word :: (← operands image frame rest)

/-- The result of an operation, if it has one, and the frame after it. `previous` is the label of
the block from which control came. -/
def operate (image : Image) (invoke : Invoke) (previous name : String) (frame : Frame) :
    Operation → Run (Option Word × Frame)
  | .binary op left right => do
    let a ← operand image frame left
    let b ← operand image frame right
    return (← binary op a b, frame)
  | .icmp test left right => do
    let a ← operand image frame left
    let b ← operand image frame right
    return (← icmp test a b, frame)
  | .fcmp test left right => do
    let a ← operand image frame left
    let b ← operand image frame right
    return (← fcmp test a b, frame)
  | .convert how value type => do
    let a ← operand image frame value
    return (← convert how a type, frame)
  | .load address => do
    let a ← operand image frame address
    return (← load frame a, frame)
  | .store value address => do
    let word ← operand image frame value
    let a ← operand image frame address
    return (none, ← store frame word a)
  | .alloca _ => pure (some (.address (.stack name)), frame)
  | .element base index => do
    match ← operand image frame base, ← operand image frame index with
    | .address (.heap buffer i), .int n =>
      if n < 0 then trap .memory
      else pure (some (.address (.heap buffer (i + n.toInt.toNat))), frame)
    | _, _ => trap .malformed
  | .select condition yes no => do
    match ← operand image frame condition with
    | .bit b =>
      let y ← operand image frame yes
      let n ← operand image frame no
      pure (some (if b then y else n), frame)
    | _ => trap .malformed
  | .phi _ incoming => do
    match incoming.find? fun i => i.2 == previous with
    | some i => return (← operand image frame i.1, frame)
    | none => trap .malformed
  | .call callee args => do
    let words ← operands image frame args
    return (← invoke callee words, frame)

def runBody (image : Image) (invoke : Invoke) (previous : String) :
    List Instruction → Frame → Run Frame
  | [], frame => pure frame
  | i :: rest, frame => do
    let (result, frame) ← operate image invoke previous i.name frame i.operation
    let frame := match result with
      | some word => { frame with registers := frame.registers.insert i.name word }
      | none => frame
    runBody image invoke previous rest frame

/-- Runs a function from the block `label` on, entered from the block `previous`. -/
def execute (image : Image) : Nat → Function → String → String → Frame → Run (Option Word)
  | 0, _, _, _, _ => throw .exhausted
  | fuel + 1, f, label, previous, frame => do
    let invoke (callee : Signature) (args : List Word) : Run (Option Word) :=
      match image.function? callee.name with
      | some g =>
        match g.blocks with
        | [] => trap .malformed
        | first :: _ =>
          execute image fuel g first.label "" { registers := Table.ofList (g.params.zip args) }
      | none => callLibrary callee.name args
    match f.blocks.find? fun b => b.label == label with
    | none => trap .malformed
    | some b =>
      let frame ← runBody image invoke previous b.body frame
      match b.terminator with
      | some (.jump target) => execute image fuel f target label frame
      | some (.branch condition yes no) =>
        match ← operand image frame condition with
        | .bit holds => execute image fuel f (if holds then yes else no) label frame
        | _ => trap .malformed
      | some (.ret value) => some <$> operand image frame value
      | some .retVoid => pure none
      | none => trap .malformed

end DualEngine.Machine
