import DualEngine.Lowering.Conversion

/-! # Operators in generated code

A float operand makes arithmetic and comparison work on doubles. Strings and bools are compared by
their texts, two bools directly.
-/
namespace DualEngine.Lowering
open IR

def intOp : ArithOp → BinaryOp × String
  | .add => (.add, "addtmp")
  | .sub => (.sub, "subtmp")
  | .mul => (.mul, "multmp")
  | _ => (.sdiv, "divtmp")

def floatOp : ArithOp → BinaryOp × String
  | .add => (.fadd, "faddtmp")
  | .sub => (.fsub, "fsubtmp")
  | .mul => (.fmul, "fmultmp")
  | _ => (.fdiv, "fdivtmp")

def intTest : CompareOp → IntTest
  | .lt => .slt
  | .gt => .sgt
  | .le => .sle
  | .ge => .sge
  | .eq => .eq
  | _ => .ne

def floatTest : CompareOp → FloatTest
  | .lt => .olt
  | .gt => .ogt
  | .le => .ole
  | .ge => .oge
  | .eq => .oeq
  | _ => .une

def arithmetic (left : Option Typed) (op : ArithOp) (right : Option Typed) : Lower Typed := do
  match (kindOf left).arithmetic? op (kindOf right), left, right with
  | some .string, l, r => return ⟨← concat l r, .string⟩
  | some .float, some l, some r =>
    let a ← toFloat l
    let b ← toFloat r
    let (op, name) := floatOp op
    return ⟨← emit (.binary op a b) name, .float⟩
  | some kind, some l, some r =>
    let (op, name) := intOp op
    return ⟨← emit (.binary op l.operand r.operand) name, kind⟩
  | _, _, _ => mismatch (.operands op.symbol (kindOf left) (kindOf right))

def comparison (left : Option Typed) (op : CompareOp) (right : Option Typed) : Lower Typed := do
  match (kindOf left).comparable op (kindOf right), left, right with
  | true, some l, some r =>
    if l.kind.isNumeric && r.kind.isNumeric then
      if l.kind = .float ∨ r.kind = .float then
        let a ← toFloat l
        let b ← toFloat r
        return ⟨← emit (.fcmp (floatTest op) a b) "fcmptmp", .bool⟩
      else return ⟨← emit (.icmp (intTest op) l.operand r.operand) "cmptmp", .bool⟩
    else if l.kind = .bool ∧ r.kind = .bool then
      return ⟨← emit (.icmp (intTest op) l.operand r.operand) "boolcmp", .bool⟩
    else
      let a ← textOf l
      let b ← textOf r
      let order ← emit (.call strcmp [a, b]) "strcmp"
      return ⟨← emit (.icmp (intTest op) order (int32 0)) "strcmptmp", .bool⟩
  | _, _, _ => mismatch (.incomparable (kindOf left) (kindOf right) op.symbol)

/-- A value as the condition of a branch; an integer holds if it is not zero. -/
def truth (value : Option Typed) : Lower Operand :=
  match value with
  | some ⟨operand, .bool⟩ => pure operand
  | some ⟨operand, .int⟩ => emit (.icmp .ne operand (int32 0)) "cond"
  | _ => mismatch (.condition (kindOf value))

/-- A drawn number brought between two bounds, both included; bounds in the wrong order are
exchanged. -/
def randomBetween (drawn : Operand) : Option Typed → Option Typed → Lower Typed
  | some ⟨a, .int⟩, some ⟨b, .int⟩ => do
    let swapped ← emit (.icmp .sgt a b) "swapped"
    let low ← emit (.select swapped b a) "low"
    let high ← emit (.select swapped a b) "high"
    let diff ← emit (.binary .sub high low) "diff"
    let size ← emit (.binary .add diff (int32 1)) "rangesize"
    let rest ← emit (.binary .srem drawn size) "modtmp"
    return ⟨← emit (.binary .add rest low) "randomInRange", .int⟩
  | _, _ => mismatch .bounds

end DualEngine.Lowering
