/-! # The intermediate representation

Modules of globals: functions in basic blocks, variables that live outside the module, and
constant texts. Every instruction carries a name of its function's name scope, whether it has a
result or not; a block's terminator is kept apart from its other instructions.
-/
namespace DualEngine.IR

inductive Ty where
  | void
  | i1
  | i8
  | i32
  | i64
  | double
  | pointer (target : Ty)
  | array (size : Nat) (element : Ty)
deriving DecidableEq, Repr, Inhabited

def Ty.write : Ty → String
  | .void => "void"
  | .i1 => "i1"
  | .i8 => "i8"
  | .i32 => "i32"
  | .i64 => "i64"
  | .double => "double"
  | .pointer target => target.write ++ "*"
  | .array size element => "[" ++ toString size ++ " x " ++ element.write ++ "]"

/-- Pointer to text. -/
def Ty.text : Ty := .pointer .i8

/-- Pointer to the length of an integer array, which the elements follow. -/
def Ty.ints : Ty := .pointer .i32

/-- What a pointer of the type points at. -/
def Ty.pointee : Ty → Ty
  | .pointer target => target
  | _ => .void

/-- A register, a global, or a constant. The type of a global is that of its address. -/
inductive Operand where
  | register (name : String) (type : Ty)
  | global (name : String) (type : Ty)
  | int (value : Int) (type : Ty)
  | double (value : Float)
  | null (type : Ty)
deriving Inhabited

def Operand.type : Operand → Ty
  | .register _ type => type
  | .global _ type => type
  | .int _ type => type
  | .double _ => .double
  | .null type => type

/-- The name and type of a function. -/
structure Signature where
  name : String
  returns : Ty
  params : List Ty
  variadic : Bool := false
deriving DecidableEq, Repr, Inhabited

inductive BinaryOp where
  | add | sub | mul | sdiv | srem
  | fadd | fsub | fmul | fdiv
deriving DecidableEq, Repr

inductive IntTest where
  | eq | ne | slt | sgt | sle | sge
deriving DecidableEq, Repr

/-- Tests of doubles: all but `une` are false if an operand is a NaN. -/
inductive FloatTest where
  | oeq | olt | ogt | ole | oge | une
deriving DecidableEq, Repr

inductive Conversion where
  | sitofp | uitofp | fptosi | zext | sext | bitcast
deriving DecidableEq, Repr

inductive Operation where
  | binary (op : BinaryOp) (left right : Operand)
  | icmp (test : IntTest) (left right : Operand)
  | fcmp (test : FloatTest) (left right : Operand)
  | convert (how : Conversion) (value : Operand) (type : Ty)
  | load (address : Operand)
  | store (value address : Operand)
  | alloca (type : Ty)
  | element (base index : Operand)
  | select (condition yes no : Operand)
  | phi (type : Ty) (incoming : List (Operand × String))
  | call (callee : Signature) (args : List Operand)

/-- The type of an operation's result; `void` if it has none. -/
def Operation.type : Operation → Ty
  | .binary _ left _ => left.type
  | .icmp .. => .i1
  | .fcmp .. => .i1
  | .convert _ _ type => type
  | .load address => address.type.pointee
  | .store .. => .void
  | .alloca type => .pointer type
  | .element base _ => base.type
  | .select _ yes _ => yes.type
  | .phi type _ => type
  | .call callee _ => callee.returns

structure Instruction where
  name : String
  operation : Operation

def Instruction.result (i : Instruction) : Operand := .register i.name i.operation.type

inductive Terminator where
  | jump (target : String)
  | branch (condition : Operand) (yes no : String)
  | ret (value : Operand)
  | retVoid

structure Block where
  label : String
  body : List Instruction := []
  terminator : Option Terminator := none

/-- A function; one without blocks is only declared. -/
structure Function where
  signature : Signature
  params : List String
  blocks : List Block := []

inductive Global where
  | function (f : Function)
  | external (name : String) (type : Ty)
  | text (name contents : String)

def Global.name : Global → String
  | .function f => f.signature.name
  | .external name _ => name
  | .text name _ => name

/-- The type of a constant text: its bytes and a final zero. -/
def textType (contents : String) : Ty := .array (contents.utf8ByteSize + 1) .i8

structure Module where
  globals : List Global := []

end DualEngine.IR
