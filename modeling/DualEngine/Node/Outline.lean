import DualEngine.Decimal.Shortest
import DualEngine.Node.Basic
import DualEngine.Report
import DualEngine.Text.Quoted

/-! # Outlines of trees

A tree as indented lines: the shape of a node with its plain fields, then every child under its
label, two steps deeper. The statements of a sequence have no labels and stand one step deeper.
-/
namespace DualEngine.Node

/-- Parts between parentheses; a single part is followed by a comma. -/
def tuple : List String → String
  | [] => "()"
  | [part] => "(" ++ part ++ ",)"
  | parts => "(" ++ ", ".intercalate parts ++ ")"

def truthWord (b : Bool) : String := if b then "True" else "False"

mutual

/-- The whole node on one line. -/
def inline : Node → String
  | .sequence statements => "Sequence(statements=" ++ tuple (inlines statements) ++ ")"
  | .number value => "Number(value=" ++ toString value ++ ")"
  | .float value => "Float(value=" ++ Decimal.shortest value ++ ")"
  | .string value => "String(value=" ++ Text.quoted value ++ ")"
  | .boolean value => "Boolean(value=" ++ truthWord value ++ ")"
  | .identifier name => "Identifier(name=" ++ Text.quoted name ++ ")"
  | .binary left op right =>
    "BinaryOp(left=" ++ left.inline ++ ", op=" ++ Text.quoted op.symbol ++ ", right="
      ++ right.inline ++ ")"
  | .comparison left op right =>
    "Comparison(left=" ++ left.inline ++ ", op=" ++ Text.quoted op.symbol ++ ", right="
      ++ right.inline ++ ")"
  | .assign name expression =>
    "Assign(name=" ++ Text.quoted name ++ ", expression=" ++ expression.inline ++ ")"
  | .increment name => "Increment(name=" ++ Text.quoted name ++ ")"
  | .decrement name => "Decrement(name=" ++ Text.quoted name ++ ")"
  | .branch condition thenPart elsePart =>
    "If(condition=" ++ condition.inline ++ ", then_part=" ++ thenPart.inline ++ ", else_part="
      ++ elsePart.inline ++ ")"
  | .loop start condition step body =>
    "ForLoop(initialization=" ++ start.inline ++ ", condition=" ++ condition.inline ++ ", step="
      ++ step.inline ++ ", body=" ++ body.inline ++ ")"
  | .print expression => "Print(expression=" ++ expression.inline ++ ")"
  | .random low high => "Random(min_value=" ++ low.inline ++ ", max_value=" ++ high.inline ++ ")"
  | .define name params body =>
    "FunctionDef(name=" ++ Text.quoted name ++ ", params=" ++ tuple (params.map Text.quoted)
      ++ ", body=" ++ body.inline ++ ")"
  | .call name args =>
    "FunctionCall(name=" ++ Text.quoted name ++ ", args=" ++ tuple (inlines args) ++ ")"
  | .array elements => "Array(elements=" ++ tuple (inlines elements) ++ ")"
  | .missing => "None"
  | .bare => "Node()"

def inlines : List Node → List String
  | [] => []
  | node :: rest => node.inline :: inlines rest

end

/-- A list of nodes is shown as children if its first node is there, else as one plain field. -/
def isChildren : List Node → Bool
  | [] => false
  | node :: _ => !node.isMissing

def pad (indent : Nat) : String := String.ofList (List.replicate (2 * indent) ' ')

/-- The first line of a node: its shape and its plain fields. -/
def headLine (indent : Nat) (shape : String) (fields : List String) : String :=
  pad indent ++ " ".intercalate (shape :: fields)

/-- The plain field of a part that is left out. -/
def absentField (label : String) (part : Node) : List String :=
  if part.isMissing then [label ++ "=None"] else []

/-- A labelled child with its lines; a part that is left out has none. -/
def childLines (indent : Nat) (label : String) (part : Node) (lines : List String) :
    List String :=
  if part.isMissing then [] else (pad (indent + 1) ++ label ++ ":") :: lines

mutual

/-- The lines of a tree at a depth of indentation. -/
def outlineLines (indent : Nat) : Node → List String
  | .sequence statements => headLine indent "Sequence" [] :: statementLines (indent + 1) statements
  | .number value => [headLine indent "Number" ["value=" ++ toString value]]
  | .float value => [headLine indent "Float" ["value=" ++ Decimal.shortest value]]
  | .string value => [headLine indent "String" ["value=" ++ Text.quoted value]]
  | .boolean value => [headLine indent "Boolean" ["value=" ++ truthWord value]]
  | .identifier name => [headLine indent "Identifier" ["name=" ++ Text.quoted name]]
  | .binary left op right =>
    headLine indent "BinaryOp"
        (absentField "left" left ++ ["op=" ++ Text.quoted op.symbol] ++ absentField "right" right)
      :: childLines indent "left" left (left.outlineLines (indent + 2))
        ++ childLines indent "right" right (right.outlineLines (indent + 2))
  | .comparison left op right =>
    headLine indent "Comparison"
        (absentField "left" left ++ ["op=" ++ Text.quoted op.symbol] ++ absentField "right" right)
      :: childLines indent "left" left (left.outlineLines (indent + 2))
        ++ childLines indent "right" right (right.outlineLines (indent + 2))
  | .assign name expression =>
    headLine indent "Assign"
        (["name=" ++ Text.quoted name] ++ absentField "expression" expression)
      :: childLines indent "expression" expression (expression.outlineLines (indent + 2))
  | .increment name => [headLine indent "Increment" ["name=" ++ Text.quoted name]]
  | .decrement name => [headLine indent "Decrement" ["name=" ++ Text.quoted name]]
  | .branch condition thenPart elsePart =>
    headLine indent "If"
        (absentField "condition" condition ++ absentField "then_part" thenPart
          ++ absentField "else_part" elsePart)
      :: childLines indent "condition" condition (condition.outlineLines (indent + 2))
        ++ childLines indent "then_part" thenPart (thenPart.outlineLines (indent + 2))
        ++ childLines indent "else_part" elsePart (elsePart.outlineLines (indent + 2))
  | .loop start condition step body =>
    headLine indent "ForLoop"
        (absentField "initialization" start ++ absentField "condition" condition
          ++ absentField "step" step ++ absentField "body" body)
      :: childLines indent "initialization" start (start.outlineLines (indent + 2))
        ++ childLines indent "condition" condition (condition.outlineLines (indent + 2))
        ++ childLines indent "step" step (step.outlineLines (indent + 2))
        ++ childLines indent "body" body (body.outlineLines (indent + 2))
  | .print expression =>
    headLine indent "Print" (absentField "expression" expression)
      :: childLines indent "expression" expression (expression.outlineLines (indent + 2))
  | .random low high =>
    headLine indent "Random" (absentField "min_value" low ++ absentField "max_value" high)
      :: childLines indent "min_value" low (low.outlineLines (indent + 2))
        ++ childLines indent "max_value" high (high.outlineLines (indent + 2))
  | .define name params body =>
    headLine indent "FunctionDef"
        (["name=" ++ Text.quoted name, "params=" ++ tuple (params.map Text.quoted)]
          ++ absentField "body" body)
      :: childLines indent "body" body (body.outlineLines (indent + 2))
  | .call name args =>
    if isChildren args then
      headLine indent "FunctionCall" ["name=" ++ Text.quoted name] :: itemLines indent "args" 0 args
    else
      [headLine indent "FunctionCall"
        ["name=" ++ Text.quoted name, "args=" ++ tuple (inlines args)]]
  | .array elements =>
    if isChildren elements then
      headLine indent "Array" [] :: itemLines indent "elements" 0 elements
    else [headLine indent "Array" ["elements=" ++ tuple (inlines elements)]]
  | .missing => [pad indent ++ "<none>"]
  | .bare => [headLine indent "Node" []]

/-- The items of a list, each labelled with its place. -/
def itemLines (indent : Nat) (label : String) (i : Nat) : List Node → List String
  | [] => []
  | node :: rest =>
    (pad (indent + 1) ++ label ++ "[" ++ toString i ++ "]:")
      :: outlineLines (indent + 2) node ++ itemLines indent label (i + 1) rest

def statementLines (indent : Nat) : List Node → List String
  | [] => []
  | node :: rest => outlineLines indent node ++ statementLines indent rest

end

def outline (node : Node) (indent : Nat) : String :=
  "\n".intercalate (node.outlineLines indent)

mutual

/-- Whether a tree can be shown: no bare node has lines of its own in it. -/
def isShowable : Node → Bool
  | .sequence statements => areShowable statements
  | .binary left _ right => left.isShowable && right.isShowable
  | .comparison left _ right => left.isShowable && right.isShowable
  | .assign _ expression => expression.isShowable
  | .branch condition thenPart elsePart =>
    condition.isShowable && thenPart.isShowable && elsePart.isShowable
  | .loop start condition step body =>
    start.isShowable && condition.isShowable && step.isShowable && body.isShowable
  | .print expression => expression.isShowable
  | .random low high => low.isShowable && high.isShowable
  | .define _ _ body => body.isShowable
  | .call _ args => !isChildren args || areShowable args
  | .array elements => !isChildren elements || areShowable elements
  | .bare => false
  | _ => true

def areShowable : List Node → Bool
  | [] => true
  | node :: rest => node.isShowable && areShowable rest

end

/-- The outline of a tree that can be shown. -/
def outline? (node : Node) (indent : Nat) : Except Report String :=
  if node.isShowable then .ok (node.outline indent)
  else .error (Report.unsupported "must be called with a dataclass type or instance")

end DualEngine.Node
