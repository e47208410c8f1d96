import DualEngine.Lowering.Conversion

/-! # Arrays and output in generated code

An array is a buffer with its length and its elements. It is printed by a loop, any other value by
one call.
-/
namespace DualEngine.Lowering
open IR

/-- An array's length and elements in a new buffer. -/
def buildArray (elements : List Operand) : Lower Typed := do
  let raw ← emit (.call malloc [.int ((elements.length + 1) * 4) .i64]) "arraybuf"
  let buffer ← cast .bitcast raw .ints "arrayptr"
  let _ ← emit (.store (int32 elements.length) buffer) ""
  storeElements buffer 1 elements
  pure ⟨buffer, .intArray⟩
where
  /-- Stores elements from an index on. -/
  storeElements (buffer : Operand) (i : Nat) : List Operand → Lower Unit
    | [] => pure ()
    | element :: rest => do
      let address ← emit (.element buffer (int32 i)) "elemptr"
      let _ ← emit (.store element address) ""
      storeElements buffer (i + 1) rest

/-- Prints a text of the module. -/
def printText (contents : String) : Lower Unit := do
  let plain ← textConstant "%s" "fmt"
  let text ← textConstant contents "str"
  let _ ← emit (.call printf [plain, text]) ""

/-- Prints the element of an array at an index, after a comma unless it is the first, and steps the
index. -/
def printElement (buffer index i : Operand) : Lower Unit := do
  let first ← emit (.icmp .eq i (int32 0)) ""
  let nothing ← textConstant "" "str"
  let comma ← textConstant ", " "str"
  let separator ← emit (.select first nothing comma) ""
  let place ← emit (.binary .add i (int32 1)) ""
  let address ← emit (.element buffer place) "elemptr"
  let element ← emit (.load address) "elem"
  let both ← textConstant "%s%d" "fmt"
  let _ ← emit (.call printf [both, separator, element]) ""
  let next ← emit (.binary .add i (int32 1)) ""
  let _ ← emit (.store next index) ""

/-- Prints an array: a loop over its elements, between brackets. -/
def printArray (buffer : Operand) : Lower Unit := do
  let length ← emit (.load buffer) "arraylen"
  printText "["
  let index ← entryAlloca .i32 "i"
  let _ ← emit (.store (int32 0) index) ""
  let condition ← addBlock "print.cond"
  let body ← addBlock "print.body"
  let done ← addBlock "print.end"
  terminate (.jump condition)
  enter condition
  let i ← emit (.load index) "idx"
  let more ← emit (.icmp .slt i length) "more"
  terminate (.branch more body done)
  enter body
  printElement buffer index i
  terminate (.jump condition)
  enter done
  printText "]\n"

def printValue (value : Option Typed) : Lower Unit := do
  match value with
  | some ⟨buffer, .intArray⟩ => printArray buffer
  | _ =>
    let (directive, arg) ← formatted value
    let format ← textConstant (directive ++ "\n") "fmt"
    let _ ← emit (.call printf [format, arg]) ""

end DualEngine.Lowering
