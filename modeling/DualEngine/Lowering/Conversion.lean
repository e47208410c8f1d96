import DualEngine.Lowering.Library

/-! # Conversions between kinds in generated code -/
namespace DualEngine.Lowering
open IR

/-- The value that storage of a kind starts with. Pointers refer to what outlives the module. -/
def zero : Kind → Lower (Option Operand)
  | .int => pure (some (int32 0))
  | .float => pure (some (.double 0.0))
  | .bool => pure (some (.int 0 .i1))
  | .string => do
    let address ← external emptyText (.array 1 .i8)
    some <$> cast .bitcast address .text ""
  | .intArray => do
    let address ← external emptyArray (.array 1 .i32)
    some <$> cast .bitcast address .ints ""
  | .none => pure none

/-- A number or a bool as a double. -/
def toFloat (value : Typed) : Lower Operand :=
  match value.kind with
  | .float => pure value.operand
  | .bool => cast .uitofp value.operand .double ""
  | _ => cast .sitofp value.operand .double ""

def boolText (operand : Operand) : Lower Operand := do
  let yes ← textConstant "true" "str"
  let no ← textConstant "false" "str"
  emit (.select operand yes no) ""

/-- The directive that formats a value, and the argument for it. -/
def formatted : Option Typed → Lower (String × Operand)
  | none => return ("%s", ← textConstant "none" "str")
  | some ⟨operand, kind⟩ =>
    match kind with
    | .int => pure ("%d", operand)
    | .float => pure ("%g", operand)
    | .string => pure ("%s", operand)
    | .bool => return ("%s", ← boolText operand)
    | .none => return ("%s", ← textConstant "none" "str")
    | .intArray => mismatch (.unformatted .intArray)

/-- Room for the text of any number. -/
def numberSize : Int := 32

/-- The text of a scalar. -/
def textOf (value : Typed) : Lower Operand := do
  match value.kind with
  | .string => pure value.operand
  | .int | .float =>
    let (directive, arg) ← formatted value
    let buffer ← emit (.call malloc [.int numberSize .i64]) "textbuf"
    let format ← textConstant directive "fmt"
    let _ ← emit (.call sprintf [buffer, format, arg]) ""
    pure buffer
  | _ => return (← formatted value).2

/-- The texts of two values joined in a new buffer, which is never freed. -/
def concat (left right : Option Typed) : Lower Operand := do
  let (leftDirective, leftArg) ← formatted left
  let (rightDirective, rightArg) ← formatted right
  let format ← textConstant (leftDirective ++ rightDirective) "concat_fmt"
  let length ←
    emit (.call snprintf [.null .text, .int 0 .i64, format, leftArg, rightArg]) "concatlen"
  let wide ← cast .sext length .i64 ""
  let size ← emit (.binary .add wide (.int 1 .i64)) "concatsize"
  let buffer ← emit (.call malloc [size]) "concatbuf"
  let _ ← emit (.call sprintf [buffer, format, leftArg, rightArg]) ""
  pure buffer

/-- A value as a declared kind; the zero of that kind where no conversion makes sense. There is no
operand exactly if the kind is `none`. -/
def coerce (value : Option Typed) (target : Kind) : Lower (Option Operand) :=
  match value with
  | none => zero target
  | some v =>
    if v.kind = target then pure (some v.operand)
    else match target, v.kind with
      | .none, _ => pure none
      | .string, .intArray => zero .string
      | .string, .none => zero .string
      | .string, _ => some <$> textOf v
      | .float, .int => some <$> toFloat v
      | .float, .bool => some <$> toFloat v
      | .int, .float => some <$> cast .fptosi v.operand .i32 ""
      | .int, .bool => some <$> cast .zext v.operand .i32 ""
      | .bool, .int => some <$> emit (.icmp .ne v.operand (int32 0)) ""
      | .bool, .float => some <$> emit (.fcmp .une v.operand (.double 0.0)) ""
      | kind, _ => zero kind

end DualEngine.Lowering
