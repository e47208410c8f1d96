import DualEngine.IR.Basic
import DualEngine.Text.Quoted

/-! # The text of a module -/
namespace DualEngine.IR

/-- A name in quotes; a backslash or a quote in it is written by its code. -/
def quotedName (name : String) : String :=
  let escape (c : Char) : List Char :=
    if c == '\\' then ['\\', '5', 'c'] else if c == '"' then ['\\', '2', '2'] else [c]
  "\"" ++ String.ofList (name.toList.flatMap escape) ++ "\""

def localName (name : String) : String := "%" ++ quotedName name

def globalName (name : String) : String := "@" ++ quotedName name

/-- The bits of a double in hexadecimal, at least sixteen characters wide. -/
def doubleText (x : Float) : String :=
  let digits := Nat.toDigits 16 x.toBits.toNat
  String.ofList (List.replicate (14 - digits.length) ' ' ++ '0' :: 'x' :: digits)

namespace Operand

/-- An operand without its type. -/
def write : Operand → String
  | .register name _ => localName name
  | .global name _ => globalName name
  | .int value _ => toString value
  | .double value => doubleText value
  | .null _ => "null"

def writeTyped (o : Operand) : String := o.type.write ++ " " ++ o.write

end Operand

def BinaryOp.text : BinaryOp → String
  | .add => "add"
  | .sub => "sub"
  | .mul => "mul"
  | .sdiv => "sdiv"
  | .srem => "srem"
  | .fadd => "fadd"
  | .fsub => "fsub"
  | .fmul => "fmul"
  | .fdiv => "fdiv"

def IntTest.text : IntTest → String
  | .eq => "eq"
  | .ne => "ne"
  | .slt => "slt"
  | .sgt => "sgt"
  | .sle => "sle"
  | .sge => "sge"

def FloatTest.text : FloatTest → String
  | .oeq => "oeq"
  | .olt => "olt"
  | .ogt => "ogt"
  | .ole => "ole"
  | .oge => "oge"
  | .une => "une"

def Conversion.text : Conversion → String
  | .sitofp => "sitofp"
  | .uitofp => "uitofp"
  | .fptosi => "fptosi"
  | .zext => "zext"
  | .sext => "sext"
  | .bitcast => "bitcast"

def commas (parts : List String) : String := ", ".intercalate parts

/-- The callee of a call: its full type is shown if it takes further arguments. -/
def Signature.writeCallee (s : Signature) : String :=
  if s.variadic then
    s.returns.write ++ " (" ++ commas (s.params.map Ty.write ++ ["..."]) ++ ") "
      ++ globalName s.name
  else s.returns.write ++ " " ++ globalName s.name

def Operation.write : Operation → String
  | .binary op left right =>
    op.text ++ " " ++ left.writeTyped ++ ", " ++ right.write
  | .icmp test left right =>
    "icmp " ++ test.text ++ " " ++ left.writeTyped ++ ", " ++ right.write
  | .fcmp test left right =>
    "fcmp " ++ test.text ++ " " ++ left.writeTyped ++ ", " ++ right.write
  | .convert how value type =>
    how.text ++ " " ++ value.writeTyped ++ " to " ++ type.write
  | .load address =>
    "load " ++ address.type.pointee.write ++ ", " ++ address.writeTyped
  | .store value address =>
    "store " ++ value.writeTyped ++ ", " ++ address.writeTyped
  | .alloca type => "alloca " ++ type.write
  | .element base index =>
    "getelementptr " ++ base.type.pointee.write ++ ", " ++ base.writeTyped ++ ", "
      ++ index.writeTyped
  | .select condition yes no =>
    "select  " ++ condition.writeTyped ++ ", " ++ yes.writeTyped ++ ", " ++ no.writeTyped
  | .phi type incoming =>
    let pair (i : Operand × String) := "[" ++ i.1.write ++ ", " ++ localName i.2 ++ "]"
    "phi  " ++ type.write ++ " " ++ commas (incoming.map pair)
  | .call callee args =>
    "call " ++ callee.writeCallee ++ "(" ++ commas (args.map Operand.writeTyped) ++ ")"

def Instruction.write (i : Instruction) : String :=
  if i.operation.type = .void then i.operation.write
  else localName i.name ++ " = " ++ i.operation.write

def Terminator.write : Terminator → String
  | .jump target => "br label " ++ localName target
  | .branch condition yes no =>
    "br " ++ condition.writeTyped ++ ", label " ++ localName yes ++ ", label " ++ localName no
  | .ret value => "ret " ++ value.writeTyped
  | .retVoid => "ret void"

def Block.lines (b : Block) : List String :=
  let instructions := b.body.map Instruction.write ++ b.terminator.toList.map Terminator.write
  (b.label ++ ":") :: instructions.map ("  " ++ ·)

/-- The lines of a function; an empty one ends it. -/
def Function.lines (f : Function) : List String :=
  let params := (f.signature.params.zip f.params).map fun p => p.1.write ++ " " ++ localName p.2
  let all := if f.signature.variadic then params ++ ["..."] else params
  let header := f.signature.returns.write ++ " " ++ globalName f.signature.name ++ "(" ++ commas all
    ++ ")"
  if f.blocks.isEmpty then ["declare " ++ header, ""]
  else ["define " ++ header, "\x7b"] ++ f.blocks.flatMap Block.lines ++ ["\x7d", ""]

/-- The characters that stand for themselves in a constant text. -/
def isPlain (b : UInt8) : Bool :=
  0x20 ≤ b && b < 0x7F && b != 0x22 && b != 0x5C

def byteText (b : UInt8) : List Char :=
  if isPlain b then [Char.ofNat b.toNat] else '\\' :: Text.hexDigits 2 b.toNat

def Global.lines : Global → List String
  | .function f => f.lines
  | .external name type => [globalName name ++ " = external global " ++ type.write]
  | .text name contents =>
    let bytes := contents.toUTF8.toList ++ [0]
    [globalName name ++ " = internal constant " ++ (textType contents).write ++ " c\""
      ++ String.ofList (bytes.flatMap byteText) ++ "\""]

/-- The lines of a module. -/
def Module.lines (m : Module) : List String :=
  ["; ModuleID = \"duet_repl\"", "target triple = \"unknown-unknown-unknown\"",
    "target datalayout = \"\"", ""] ++ m.globals.flatMap Global.lines

def Module.write (m : Module) : String := "\n".intercalate m.lines

end DualEngine.IR
