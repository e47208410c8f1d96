import DualEngine.Value.Kind

/-! # Syntax trees

Statements and expressions are one type, so a tree may hold a statement where the parser would
only put an expression. `missing` stands where a part is left out: the else part of an `if`, the
parts of a `for`, the bounds of `random`.
-/
namespace DualEngine

inductive Node where
  | sequence (statements : List Node)
  | number (value : Int)
  | float (value : Float)
  | string (value : String)
  | boolean (value : Bool)
  | identifier (name : String)
  | binary (left : Node) (op : ArithOp) (right : Node)
  | comparison (left : Node) (op : CompareOp) (right : Node)
  | assign (name : String) (expression : Node)
  | increment (name : String)
  | decrement (name : String)
  | branch (condition thenPart elsePart : Node)
  | loop (start condition step body : Node)
  | print (expression : Node)
  | random (low high : Node)
  | define (name : String) (params : List String) (body : Node)
  | call (name : String) (args : List Node)
  | array (elements : List Node)
  | missing
  | bare
deriving Inhabited

namespace Node

/-- The name of a node's shape. -/
def shape : Node → String
  | .sequence _ => "Sequence"
  | .number _ => "Number"
  | .float _ => "Float"
  | .string _ => "String"
  | .boolean _ => "Boolean"
  | .identifier _ => "Identifier"
  | .binary .. => "BinaryOp"
  | .comparison .. => "Comparison"
  | .assign .. => "Assign"
  | .increment _ => "Increment"
  | .decrement _ => "Decrement"
  | .branch .. => "If"
  | .loop .. => "ForLoop"
  | .print _ => "Print"
  | .random .. => "Random"
  | .define .. => "FunctionDef"
  | .call .. => "FunctionCall"
  | .array _ => "Array"
  | .missing => "NoneType"
  | .bare => "Node"

def isMissing : Node → Bool
  | .missing => true
  | _ => false

mutual

/-- The statement that gives a tree its value: the last one, through sequences at the end. -/
def lastStatement : Node → Node
  | .sequence statements => lastOf statements
  | node => node

def lastOf : List Node → Node
  | [] => .missing
  | [node] => lastStatement node
  | _ :: rest => lastOf rest

end

end Node
end DualEngine
