/-! # Reports of failures

What a user is told: a category, the stage that failed, a message with an optional hint, and the
place in the source if there is one.
-/
namespace DualEngine

/-- The stage of a submission in which a failure shows. -/
inductive Stage where
  | parse
  | lower
  | execute
deriving DecidableEq, Repr

def Stage.text : Stage → String
  | .parse => "parse"
  | .lower => "lower"
  | .execute => "execute"

inductive Category where
  | general
  | parse
  | evaluation
  | undefinedVariable
  | undefinedFunction
  | typeMismatch
  | divideByZero
  | invalidOperator
  | backend
  | invalidValue
  | unsupported
  | missingItem
  | violation
deriving DecidableEq, Repr

namespace Category

/-- The categories of failures that evaluating a tree can meet. -/
def isEvaluation : Category → Bool
  | .evaluation | .undefinedVariable | .undefinedFunction | .typeMismatch | .divideByZero
  | .invalidOperator => true
  | _ => false

/-- Failures that a shell reports and survives; the others end the program. -/
def isReported : Category → Bool
  | .invalidValue | .unsupported | .missingItem | .violation => false
  | _ => true

/-- The stage that a failure of the category belongs to unless said otherwise. -/
def stage : Category → Stage
  | .parse => .parse
  | .backend => .lower
  | _ => .execute

end Category

structure Report where
  category : Category
  stage : Stage := category.stage
  message : String
  hint : Option String := none
  line : Option Int := none
  column : Option Int := none

namespace Report

def undefinedVariable (name : String) (hint : Option String) : Report :=
  { category := .undefinedVariable, message := "Undefined variable '" ++ name ++ "'", hint }

def undefinedFunction (name : String) (hint : Option String) : Report :=
  { category := .undefinedFunction, message := "Undefined function '" ++ name ++ "'", hint }

def divideByZero : Report :=
  { category := .divideByZero, message := "Division by zero" }

def invalidOperator (symbol : String) : Report :=
  { category := .invalidOperator, message := "Invalid operator '" ++ symbol ++ "'" }

/-- A value of a type that has no use where it is given. -/
def unsupported (message : String) : Report := { category := .unsupported, message }

/-- The same failure, met while lowering. -/
def lowering (r : Report) : Report := { r with stage := .lower }

/-- A coordinate of the place; zero stands for none. -/
def coordinate : Option Int → String
  | none => ""
  | some n => if n = 0 then "" else toString n ++ ":"

/-- The place, the message and the hint in parentheses, as far as they are there. -/
def text (r : Report) : String :=
  let place := coordinate r.line ++ coordinate r.column
  let located := if place.isEmpty then r.message else place ++ " " ++ r.message
  match r.hint with
  | none => located
  | some hint => if hint.isEmpty then located else located ++ " (" ++ hint ++ ")"

end Report
end DualEngine
