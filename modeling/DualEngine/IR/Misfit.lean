import DualEngine.IR.Basic

/-! # Instructions that do not fit together

The operands of arithmetic and of a choice are of one type, a stored value is of the type that its
address points at, and the arguments of a call are of the types of the parameters. An instruction
for which this fails is not built.
-/
namespace DualEngine.IR

inductive Misfit where
  | operands (left right : Ty)
  | choice
  | stored (value address : Ty)
  | argument (place : Nat) (expected got : Ty)
  | missingArgument
deriving DecidableEq, Repr

def Misfit.message : Misfit → String
  | .operands left right =>
    "Operands must be the same type, got (" ++ left.write ++ ", " ++ right.write ++ ")"
  | .choice => ""
  | .stored value address =>
    "cannot store " ++ value.write ++ " to " ++ address.write ++ ": mismatching types"
  | .argument place expected got =>
    "Type of #" ++ toString place ++ " arg mismatch: " ++ expected.write ++ " != " ++ got.write
  | .missingArgument => "list index out of range"

/-- The first argument that does not fit its parameter, counted from `place`. Further arguments
than there are parameters fit. -/
def argumentMisfit? (place : Nat) : List Ty → List Operand → Option Misfit
  | [], _ => none
  | _ :: _, [] => some .missingArgument
  | expected :: params, arg :: args =>
    if arg.type = expected then argumentMisfit? (place + 1) params args
    else some (.argument place expected arg.type)

def Operation.misfit? : Operation → Option Misfit
  | .binary _ left right =>
    if left.type = right.type then none else some (.operands left.type right.type)
  | .select _ yes no => if yes.type = no.type then none else some .choice
  | .store value address =>
    if address.type = .pointer value.type then none else some (.stored value.type address.type)
  | .call callee args => argumentMisfit? 1 callee.params args
  | _ => none

end DualEngine.IR
