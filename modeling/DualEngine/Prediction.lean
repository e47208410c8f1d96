import DualEngine.Context.Basic

/-! # Predicted kinds

The kind of value a tree ends in, told from the tree and the context alone. Names and functions
bound earlier in the tree are tracked beside the context; whatever cannot be told is `Kind.none`.

The return kind of a function starts from `float` and is predicted again under its own assumption
until it no longer changes, or as many times as there are kinds.
-/
namespace DualEngine.Prediction

/-- What earlier statements of a tree have bound: kinds of names, return kinds of functions, and
the functions whose return kind was settled, newest first. -/
structure State where
  names : Table Kind := {}
  functions : Table Kind := {}
  settled : List (String × Kind) := []

/-- The number of kinds. -/
def rounds : Nat := 6

/-- Predicts a body under the assumption that its function `name` returns `kind`, at most `n`
times, until the assumption is confirmed. -/
def settle (body : State → Kind × State) (name : String) (scope functions : Table Kind) :
    Nat → Kind → List (String × Kind) → Kind × List (String × Kind)
  | 0, kind, settled => (kind, settled)
  | n + 1, kind, settled =>
    let (predicted, inner) := body ⟨scope, functions.insert name kind, settled⟩
    if predicted = kind then (kind, inner.settled)
    else settle body name scope functions n predicted inner.settled

/-- The return kind of a function whose parameters are floats. -/
def returnKind (body : State → Kind × State) (name : String) (params : List String)
    (overlay functions : Table Kind) (settled : List (String × Kind)) :
    Kind × List (String × Kind) :=
  let scope := params.foldl (fun scope param => scope.insert param .float) overlay
  let (kind, settled) := settle body name scope functions rounds .float settled
  (kind, (name, kind) :: settled)

variable {σ : Type}

def nameKind (c : Context σ) (s : State) (name : String) : Kind :=
  match s.names.get? name with
  | some kind => kind
  | none =>
    match c.get? name with
    | some symbol => symbol.kind
    | none => .none

def functionKind (c : Context σ) (s : State) (name : String) : Kind :=
  match s.functions.get? name with
  | some kind => kind
  | none =>
    match c.getFunction? name with
    | some function => function.returns
    | none => .none

/-- A name takes the kind of what is assigned to it, unless that has none. -/
def declare (s : State) (name : String) (kind : Kind) : State :=
  if kind = .none then s else { s with names := s.names.insert name kind }

mutual

def predict (c : Context σ) : Node → State → Kind × State
  | .sequence statements, s => predictAll c statements .none s
  | .number _, s => (.int, s)
  | .float _, s => (.float, s)
  | .string _, s => (.string, s)
  | .boolean _, s => (.bool, s)
  | .identifier name, s => (nameKind c s name, s)
  | .binary left op right, s =>
    let (l, s) := predict c left s
    let (r, s) := predict c right s
    ((l.arithmetic? op r).getD .none, s)
  | .comparison left _ right, s =>
    let (_, s) := predict c left s
    let (_, s) := predict c right s
    (.bool, s)
  | .assign name expression, s =>
    let (kind, s) := predict c expression s
    (kind, declare s name kind)
  | .increment _, s => (.int, s)
  | .decrement _, s => (.int, s)
  | .branch condition thenPart elsePart, s =>
    let (_, s) := predict c condition s
    let (t, s) := predict c thenPart s
    let (e, s) := predict c elsePart s
    (if elsePart.isMissing then .none else if t = e then t else .none, s)
  | .loop start condition step body, s =>
    let (_, s) := predict c start s
    let (_, s) := predict c condition s
    let (kind, s) := predict c body s
    let (_, s) := predict c step s
    (kind, s)
  | .print expression, s => predict c expression s
  | .random _ _, s => (.int, s)
  | .define name params body, s =>
    let (kind, settled) :=
      returnKind (fun inner => predict c body inner) name params s.names s.functions s.settled
    (.none, { s with functions := s.functions.insert name kind, settled })
  | .call name args, s =>
    let (_, s) := predictAll c args .none s
    (functionKind c s name, s)
  | .array _, s => (.intArray, s)
  | .missing, s => (.none, s)
  | .bare, s => (.none, s)

/-- Nodes one after the other; the kind is that of the last, or `last` if there is none. -/
def predictAll (c : Context σ) : List Node → Kind → State → Kind × State
  | [], last, s => (last, s)
  | node :: rest, _, s =>
    let (kind, s) := predict c node s
    predictAll c rest kind s

end

/-- The kind of a submission's value. -/
def predictResult (c : Context σ) (node : Node) : Kind := (predict c node {}).1

/-- The return kind of a definition, where `overlay` and `functions` are bound beside the
context; with it the functions settled on the way, newest first. -/
def predictFunction (c : Context σ) (overlay functions : Table Kind) (name : String)
    (params : List String) (body : Node) : Kind × List (String × Kind) :=
  returnKind (predict c body) name params overlay functions []

end DualEngine.Prediction
