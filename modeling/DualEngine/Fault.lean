import DualEngine.IR.Misfit
import DualEngine.Report
import DualEngine.Value.Kind

/-! # Faults of a submission

What stops evaluating or lowering a tree. The two engines share the causes; a few texts belong to
one engine only.
-/
namespace DualEngine

/-- Operands, conditions or arguments of the wrong kind. -/
inductive Mismatch where
  | assignedParameter (name : String)
  | assignedNone (name : String)
  | element (kind : Kind)
  | stringOperator (symbol : String)
  | concatenation (kind : Kind)
  | operands (symbol : String) (left right : Kind)
  | comparedKind (kind : Kind)
  | ordering (symbol : String) (left right : Kind)
  | incomparable (left right : Kind) (symbol : String)
  | stepped (name : String) (kind : Kind)
  | steppedParameter (name : String)
  | condition (kind : Kind)
  | bounds
  | arity (function : String) (expected got : Nat)
  | argument (parameter function : String) (kind : Kind)
  | unformatted (kind : Kind)
deriving DecidableEq, Repr

def Mismatch.message : Mismatch → String
  | .assignedParameter name => "Cannot assign to parameter '" ++ name ++ "'"
  | .assignedNone name => "Cannot assign a value of type none to '" ++ name ++ "'"
  | .element kind => "Array elements must be int, got " ++ kind.text
  | .stringOperator symbol => "Operator '" ++ symbol ++ "' is not defined for strings"
  | .concatenation kind => "Cannot concatenate " ++ kind.text ++ " with a string"
  | .operands symbol left right =>
    "Unsupported operand types for '" ++ symbol ++ "': " ++ left.text ++ " and " ++ right.text
  | .comparedKind kind => "Cannot compare values of type " ++ kind.text
  | .ordering symbol left right =>
    "Operator '" ++ symbol ++ "' needs numeric operands, got " ++ left.text ++ " and " ++ right.text
  | .incomparable left right symbol =>
    "Cannot compare " ++ left.text ++ " and " ++ right.text ++ " with '" ++ symbol ++ "'"
  | .stepped name kind =>
    "Cannot increment or decrement '" ++ name ++ "' of type " ++ kind.text
  | .steppedParameter name => "Cannot increment or decrement parameter '" ++ name ++ "'"
  | .condition kind => "Condition must be bool, got " ++ kind.text
  | .bounds => "random() bounds must be int"
  | .arity function expected got =>
    function ++ "() takes " ++ toString expected ++ " arguments, got " ++ toString got
  | .argument parameter function kind =>
    "Argument '" ++ parameter ++ "' of " ++ function ++ "() must be numeric, got " ++ kind.text
  | .unformatted kind => "Cannot format a value of type " ++ kind.text

inductive Fault where
  | undefinedVariable (name : String)
  | undefinedFunction (name : String)
  | divideByZero
  | invalidOperator (symbol : String)
  | mismatch (cause : Mismatch)
  | emptyRange (low high : Int)
  | misfit (cause : IR.Misfit)
  | notEvaluated (shape : String)
  | notLowered (shape : String)
deriving DecidableEq, Repr

def misfitCategory : IR.Misfit → Category
  | .operands .. => .invalidValue
  | .choice => .violation
  | .stored .. | .argument .. => .unsupported
  | .missingArgument => .missingItem

def Fault.report : Fault → Report
  | .undefinedVariable name => Report.undefinedVariable name none
  | .undefinedFunction name => Report.undefinedFunction name none
  | .divideByZero => Report.divideByZero
  | .invalidOperator symbol => Report.invalidOperator symbol
  | .mismatch cause => { category := .typeMismatch, message := cause.message }
  | .emptyRange low high =>
    { category := .evaluation
      message := "Empty random range [" ++ toString low ++ ", " ++ toString high ++ ")" }
  | .misfit cause => { category := misfitCategory cause, message := cause.message }
  | .notEvaluated shape =>
    { category := .evaluation, message := "No visit_" ++ shape ++ " method in Interpreter" }
  | .notLowered shape =>
    { category := .backend, message := "No visit_" ++ shape ++ " method in CodeGen" }

end DualEngine
