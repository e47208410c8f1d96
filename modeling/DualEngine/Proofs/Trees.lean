import DualEngine.Node.Basic
import DualEngine.Proofs.Computation

/-! # Parts of trees

What a tree is built from is said of its subtrees. Expressions and statements are told apart: no
statement stands inside an expression.
-/
namespace DualEngine
namespace Node

variable {shapes : List String} {node : Node}

theorem eq_missing (h : node.isMissing = true) : node = .missing := by
  cases node <;> first | rfl | cases h

/-- The trees right below a tree. -/
def children : Node → List Node
  | .sequence statements => statements
  | .binary left _ right => [left, right]
  | .comparison left _ right => [left, right]
  | .assign _ expression => [expression]
  | .branch condition thenPart elsePart => [condition, thenPart, elsePart]
  | .loop start condition step body => [start, condition, step, body]
  | .print expression => [expression]
  | .random low high => [low, high]
  | .define _ _ body => [body]
  | .call _ args => args
  | .array elements => elements
  | _ => []

theorem sizeOf_lt_of_mem_children {child : Node} (h : child ∈ node.children) :
    sizeOf child < sizeOf node := by
  cases node with
  | sequence nodes | call name nodes | array nodes =>
    have hlt : sizeOf child < sizeOf nodes := List.sizeOf_lt_of_mem h
    simp only [sequence.sizeOf_spec, call.sizeOf_spec, array.sizeOf_spec]
    omega
  | binary | comparison | assign | branch | loop | print | random | define =>
    simp only [children, List.mem_cons, List.not_mem_nil, or_false] at h
    rcases h with rfl | rfl | rfl | rfl <;> simp <;> omega
  | _ => simp [children] at h

/-- What holds of a tree if it holds of its children, holds of every tree. -/
theorem induction {P : Node → Prop} (h : ∀ node, (∀ child ∈ node.children, P child) → P node)
    (node : Node) : P node :=
  h node fun child _ => induction h child
termination_by sizeOf node
decreasing_by exact sizeOf_lt_of_mem_children ‹_›

mutual

/-- A tree and all trees inside it. -/
def subtrees : Node → List Node
  | .sequence statements => .sequence statements :: subtreesOf statements
  | .binary left op right => .binary left op right :: (left.subtrees ++ right.subtrees)
  | .comparison left op right => .comparison left op right :: (left.subtrees ++ right.subtrees)
  | .assign name expression => .assign name expression :: expression.subtrees
  | .branch condition thenPart elsePart => .branch condition thenPart elsePart ::
      (condition.subtrees ++ (thenPart.subtrees ++ elsePart.subtrees))
  | .loop start condition step body => .loop start condition step body ::
      (start.subtrees ++ (condition.subtrees ++ (step.subtrees ++ body.subtrees)))
  | .print expression => .print expression :: expression.subtrees
  | .random low high => .random low high :: (low.subtrees ++ high.subtrees)
  | .define name params body => .define name params body :: body.subtrees
  | .call name args => .call name args :: subtreesOf args
  | .array elements => .array elements :: subtreesOf elements
  | node => [node]

def subtreesOf : List Node → List Node
  | [] => []
  | node :: rest => node.subtrees ++ subtreesOf rest

end

theorem subtreesOf_eq (nodes : List Node) : subtreesOf nodes = nodes.flatMap subtrees := by
  induction nodes with
  | nil => rfl
  | cons node rest ih => rw [subtreesOf, ih, List.flatMap_cons]

theorem subtrees_eq (node : Node) : node.subtrees = node :: node.children.flatMap subtrees := by
  cases node <;> simp [subtrees, children, subtreesOf_eq]

theorem mem_subtrees_self (node : Node) : node ∈ node.subtrees := by
  rw [subtrees_eq]
  exact List.mem_cons_self

theorem subtrees_subset {child : Node} (h : child ∈ node.children) :
    child.subtrees ⊆ node.subtrees := by
  intro t ht
  rw [subtrees_eq]
  exact List.mem_cons_of_mem _ (List.mem_flatMap.mpr ⟨child, h, ht⟩)

/-- The names that a tree steps. -/
def stepped (node : Node) : List String :=
  node.subtrees.flatMap fun
    | .increment name | .decrement name => [name]
    | _ => []

/-- The names that a tree assigns. -/
def assigned (node : Node) : List String :=
  node.subtrees.flatMap fun
    | .assign name _ => [name]
    | _ => []

/-- The functions that a tree defines. -/
def defined (node : Node) : List String :=
  node.subtrees.flatMap fun
    | .define name _ _ => [name]
    | _ => []

theorem flatMap_subtrees_subset {α : Type} (f : Node → List α) {child : Node}
    (h : child ∈ node.children) : child.subtrees.flatMap f ⊆ node.subtrees.flatMap f := by
  intro x hx
  obtain ⟨t, ht, hx⟩ := List.mem_flatMap.mp hx
  exact List.mem_flatMap.mpr ⟨t, subtrees_subset h ht, hx⟩

theorem stepped_subset {child : Node} (h : child ∈ node.children) : child.stepped ⊆ node.stepped :=
  flatMap_subtrees_subset _ h

theorem assigned_subset {child : Node} (h : child ∈ node.children) :
    child.assigned ⊆ node.assigned :=
  flatMap_subtrees_subset _ h

theorem defined_subset {child : Node} (h : child ∈ node.children) : child.defined ⊆ node.defined :=
  flatMap_subtrees_subset _ h

theorem mem_assigned_self (x : String) (e : Node) : x ∈ (Node.assign x e).assigned :=
  List.mem_flatMap.mpr ⟨_, mem_subtrees_self _, by simp⟩

theorem mem_defined_self (f : String) (params : List String) (body : Node) :
    f ∈ (Node.define f params body).defined :=
  List.mem_flatMap.mpr ⟨_, mem_subtrees_self _, by simp⟩

/-- No tree of these shapes stands in the tree. -/
def Avoids (shapes : List String) (node : Node) : Prop := ∀ t ∈ node.subtrees, t.shape ∉ shapes

instance (shapes : List String) (node : Node) : Decidable (node.Avoids shapes) :=
  inferInstanceAs (Decidable (∀ t ∈ node.subtrees, t.shape ∉ shapes))

theorem Avoids.self (h : node.Avoids shapes) : node.shape ∉ shapes :=
  h node (mem_subtrees_self node)

theorem Avoids.mono {shapes' : List String} (h : node.Avoids shapes') (hsub : shapes ⊆ shapes') :
    node.Avoids shapes :=
  fun t ht hs => h t ht (hsub hs)

theorem Avoids.child {child : Node} (h : node.Avoids shapes) (hc : child ∈ node.children) :
    child.Avoids shapes :=
  fun t ht => h t (subtrees_subset hc ht)

theorem Avoids.assigned_eq_nil (h : node.Avoids shapes) (hs : "Assign" ∈ shapes) :
    node.assigned = [] := by
  refine List.flatMap_eq_nil_iff.mpr fun t ht => ?_
  cases t with
  | assign x e => exact absurd hs (h _ ht)
  | _ => rfl

theorem Avoids.defined_eq_nil (h : node.Avoids shapes) (hs : "FunctionDef" ∈ shapes) :
    node.defined = [] := by
  refine List.flatMap_eq_nil_iff.mpr fun t ht => ?_
  cases t with
  | define f params body => exact absurd hs (h _ ht)
  | _ => rfl

/-- The body of a definition. -/
def bodies : Node → List Node
  | .define _ _ body => [body]
  | _ => []

/-- No tree of these shapes stands in the body of a function that the tree defines. -/
def FunctionsAvoid (shapes : List String) (node : Node) : Prop :=
  ∀ t ∈ node.subtrees, ∀ body ∈ t.bodies, body.Avoids shapes

instance (shapes : List String) (node : Node) : Decidable (node.FunctionsAvoid shapes) :=
  inferInstanceAs (Decidable (∀ t ∈ node.subtrees, ∀ body ∈ t.bodies, body.Avoids shapes))

theorem FunctionsAvoid.child {child : Node} (h : node.FunctionsAvoid shapes)
    (hc : child ∈ node.children) : child.FunctionsAvoid shapes :=
  fun t ht => h t (subtrees_subset hc ht)

theorem FunctionsAvoid.body {shapes : List String} {name : String} {params : List String}
    {body : Node} (h : (Node.define name params body).FunctionsAvoid shapes) :
    body.Avoids shapes :=
  h _ (mem_subtrees_self _) body (by simp [bodies])

/-! ## Expressions and statements -/

/-- The forms that only a statement has. -/
def isStatementForm : Node → Bool
  | .sequence _ | .assign .. | .branch .. | .loop .. | .define .. => true
  | _ => false

/-- No statement stands in the tree. -/
def isExpression (node : Node) : Bool := node.subtrees.all fun t => !t.isStatementForm

mutual

/-- Statements stand only where one may stand. -/
def isStatement : Node → Bool
  | .sequence statements => areStatements statements
  | .assign _ expression => expression.isExpression
  | .branch condition thenPart elsePart =>
    condition.isExpression && thenPart.isStatement && elsePart.isStatement
  | .loop start condition step body =>
    start.isStatement && condition.isExpression && step.isStatement && body.isStatement
  | .define _ _ body => body.isStatement
  | node => node.isExpression

def areStatements : List Node → Bool
  | [] => true
  | node :: rest => node.isStatement && areStatements rest

end

theorem areStatements_iff (nodes : List Node) :
    areStatements nodes = true ↔ ∀ node ∈ nodes, node.isStatement = true := by
  induction nodes with
  | nil => simp [areStatements]
  | cons node rest ih => simp [areStatements, ih]

theorem isExpression_iff (node : Node) : node.isExpression = true ↔
    node.isStatementForm = false ∧ ∀ child ∈ node.children, child.isExpression = true := by
  unfold isExpression
  rw [subtrees_eq]
  simp only [List.all_cons, List.all_flatMap, Bool.and_eq_true, Bool.not_eq_eq_eq_not,
    Bool.not_true, List.all_eq_true]

theorem isExpression_child {child : Node} (h : node.isExpression = true)
    (hc : child ∈ node.children) : child.isExpression = true :=
  ((isExpression_iff node).mp h).2 child hc

/-- Where only statements have these shapes, expressions avoid them. -/
theorem avoids_of_isExpression (h : node.isExpression = true)
    (hs : ∀ t : Node, t.shape ∈ shapes → t.isStatementForm = true) : node.Avoids shapes := by
  intro t ht hshape
  have hform := List.all_eq_true.mp h t ht
  simp [hs t hshape] at hform

theorem not_isExpression (h : node.isStatementForm = true) : ¬ node.isExpression = true :=
  fun he => by
  rw [((isExpression_iff node).mp he).1] at h
  simp at h

theorem isStatement_of_isExpression (h : node.isExpression = true) : node.isStatement = true := by
  have hform := ((isExpression_iff node).mp h).1
  cases node <;> first | exact h | simp [isStatementForm] at hform

theorem isExpression_of_isStatement (h : node.isStatement = true)
    (hf : node.isStatementForm = false) : node.isExpression = true := by
  cases node with
  | sequence | assign | branch | loop | define => simp [isStatementForm] at hf
  | _ => exact h

/-- The parts of a statement are statements. -/
theorem isStatement_child {child : Node} (h : node.isStatement = true)
    (hc : child ∈ node.children) : child.isStatement = true := by
  cases hf : node.isStatementForm with
  | false =>
    exact isStatement_of_isExpression (isExpression_child (isExpression_of_isStatement h hf) hc)
  | true =>
    cases node with
    | sequence statements => exact (areStatements_iff statements).mp h child hc
    | assign x e =>
      simp only [children, List.mem_singleton] at hc
      exact isStatement_of_isExpression (hc ▸ h)
    | branch condition thenPart elsePart =>
      simp only [isStatement, Bool.and_eq_true] at h
      simp only [children, List.mem_cons, List.not_mem_nil, or_false] at hc
      rcases hc with rfl | rfl | rfl
      · exact isStatement_of_isExpression h.1.1
      · exact h.1.2
      · exact h.2
    | loop start condition step body =>
      simp only [isStatement, Bool.and_eq_true] at h
      simp only [children, List.mem_cons, List.not_mem_nil, or_false] at hc
      rcases hc with rfl | rfl | rfl | rfl
      · exact h.1.1.1
      · exact isStatement_of_isExpression h.1.1.2
      · exact h.1.2
      · exact h.2
    | define name params body =>
      simp only [children, List.mem_singleton] at hc
      exact hc ▸ h
    | _ => simp [isStatementForm] at hf

end Node

end DualEngine
