import DualEngine.Proofs.Changes

/-! # Return kinds of pure functions

A body without assignments is predicted under an assumption on what its own function returns. The
kind it gets depends on the assumption in few ways only: the iteration from `float` ends in a kind
that confirms itself.
-/
namespace DualEngine

namespace Node

mutual

/-- Only literals, the parameters, operators, branches, sequences and calls stand in the tree. -/
def isPure (params : List String) : Node → Bool
  | .number _ | .float _ | .string _ | .boolean _ => true
  | .identifier name => params.contains name
  | .sequence nodes | .call _ nodes => arePure params nodes
  | .binary left _ right | .comparison left _ right => left.isPure params && right.isPure params
  | .branch condition thenPart elsePart =>
    condition.isPure params && thenPart.isPure params &&
      (elsePart.isMissing || elsePart.isPure params)
  | _ => false

def arePure (params : List String) : List Node → Bool
  | [] => true
  | node :: rest => node.isPure params && arePure params rest

end

variable {params : List String} {node child : Node}

theorem arePure_iff (nodes : List Node) :
    arePure params nodes = true ↔ ∀ node ∈ nodes, node.isPure params = true := by
  induction nodes with
  | nil => simp [arePure]
  | cons node rest ih => simp [arePure, ih]

theorem isPure_child (h : node.isPure params = true) (hc : child ∈ node.children) :
    child = .missing ∨ child.isPure params = true := by
  cases node with
  | sequence nodes | call _ nodes => exact .inr ((arePure_iff _).mp h child hc)
  | binary | comparison =>
    simp only [isPure, Bool.and_eq_true] at h
    simp only [children, List.mem_cons, List.not_mem_nil, or_false] at hc
    rcases hc with rfl | rfl
    · exact .inr h.1
    · exact .inr h.2
  | branch condition thenPart elsePart =>
    simp only [isPure, Bool.and_eq_true, Bool.or_eq_true] at h
    simp only [children, List.mem_cons, List.not_mem_nil, or_false] at hc
    rcases hc with rfl | rfl | rfl
    · exact .inr h.1.1
    · exact .inr h.1.2
    · exact h.2.imp eq_missing id
  | number | float | string | boolean | identifier => simp [children] at hc
  | _ => cases h

/-- What a pure tree may hold. -/
def pureForms : List String :=
  ["Number", "Float", "String", "Boolean", "Identifier", "BinaryOp", "Comparison", "If", "Sequence",
    "FunctionCall", "NoneType"]

theorem shape_of_isPure (h : node.isPure params = true) : ∀ t ∈ node.subtrees, t.shape ∈ pureForms := by
  induction node using induction with
  | h node ih =>
  intro t ht
  rw [subtrees_eq, List.mem_cons, List.mem_flatMap] at ht
  rcases ht with rfl | ⟨child, hc, ht⟩
  · cases t with
    | number | float | string | boolean | identifier | sequence | call | binary | comparison
      | branch => simp [shape, pureForms]
    | _ => cases h
  · rcases isPure_child h hc with rfl | hp
    · simp only [subtrees, List.mem_singleton] at ht
      subst ht
      simp [shape, pureForms]
    · exact ih child hc hp t ht

theorem avoids_of_isPure (h : node.isPure params = true) {shapes : List String}
    (hs : ∀ shape ∈ shapes, shape ∉ pureForms) : node.Avoids shapes :=
  fun t ht hm => hs _ hm (shape_of_isPure h t ht)

end Node

namespace Prediction
open Lowering

variable {σ : Type} {c : Context σ} {params : List String} {node body : Node}

/-- A tree without assignments and definitions binds nothing. -/
theorem predict_of_avoids (h : node.Avoids bindingForms) (p : State) :
    (predict c node p).2 = p := by
  induction node using Node.induction generalizing p with
  | h node ih =>
  have part (child : Node) (hc : child ∈ node.children) (q : State) : (predict c child q).2 = q :=
    ih child hc (h.child hc) q
  cases node with
  | sequence nodes | call name args => exact predictAll_expressions part .none p
  | assign | define => exact absurd h.self (by simp [Node.shape, bindingForms])
  | binary left op right | comparison left op right =>
    simp only [predict, part left (by simp [Node.children]), part right (by simp [Node.children])]
  | branch condition thenPart elsePart =>
    simp only [predict, part condition (by simp [Node.children]),
      part thenPart (by simp [Node.children]), part elsePart (by simp [Node.children])]
  | loop start condition step body =>
    simp only [predict, part start (by simp [Node.children]),
      part condition (by simp [Node.children]), part step (by simp [Node.children]),
      part body (by simp [Node.children])]
  | print e => exact part e (by simp [Node.children]) p
  | _ => rfl

/-! ## Kinds under an assumption -/

/-- How the kind of a body can depend on the assumed return kind. -/
structure Settling (f : Kind → Kind) : Prop where
  none : f .none = .none ∨ ∀ k, f k = f .none
  fixed : f .float = .int ∨ f .float = .bool ∨ f .float = .intArray → ∀ k, f k = f .float
  string : f .float = .string → f .string = .string ∨ f .string = .none
  float : f .float = .float → f .string = .float ∨ f .string = .string ∨ f .string = .none

theorem settling_const (k : Kind) : Settling fun _ => k where
  none := .inr fun _ => rfl
  fixed _ _ := rfl
  string := .inl
  float := .inl

theorem settling_id : Settling id where
  none := .inl rfl
  fixed h := by simp at h
  string h := by simp at h
  float _ := .inr (.inl rfl)

theorem Settling.join {f g : Kind → Kind} (hf : Settling f) (hg : Settling g) :
    Settling fun k => if f k = g k then f k else .none := by
  have split {a b k : Kind} (hk : k ≠ .none) (h : (if a = b then a else .none) = k) :
      a = k ∧ b = k := by
    by_cases hab : a = b
    · rw [if_pos hab] at h
      exact ⟨h, hab ▸ h⟩
    · rw [if_neg hab] at h
      exact absurd h.symm hk
  refine ⟨?_, fun h => ?_, fun h => ?_, fun h => ?_⟩
  · rcases hf.none with hn | hconst
    · exact .inl (by simp [hn])
    · rcases hg.none with hn | hconst'
      · exact .inl (by simp [hn])
      · exact .inr fun k => by simp only [hconst k, hconst' k]
  · have hboth : f .float = g .float ∧
        (f .float = .int ∨ f .float = .bool ∨ f .float = .intArray) := by
      rcases h with h | h | h <;> obtain ⟨h1, h2⟩ := split (by decide) h <;> simp [h1, h2]
    have hconst := hf.fixed hboth.2
    have hconst' := hg.fixed (hboth.1 ▸ hboth.2)
    exact fun k => by simp only [hconst k, hconst' k]
  · obtain ⟨h1, h2⟩ := split (by decide) h
    rcases hf.string h1 with e | e <;> rcases hg.string h2 with e' | e' <;> simp [e, e']
  · obtain ⟨h1, h2⟩ := split (by decide) h
    rcases hf.float h1 with e | e | e <;> rcases hg.float h2 with e' | e' | e' <;> simp [e, e']

/-- The operands of an operator whose result has a kind. -/
theorem operands_of_arithmetic {l r k : Kind} {op : ArithOp} (hk : k ≠ .none)
    (h : (l.arithmetic? op r).getD .none = k) :
    k = .int ∧ l = .int ∧ r = .int ∨
      k = .float ∧ (l = .float ∧ r.isNumeric = true ∨ r = .float ∧ l.isNumeric = true) ∨
      k = .string ∧ op = .add ∧
        (l = .string ∧ r.isScalar = true ∨ r = .string ∧ l.isScalar = true) := by
  subst h
  by_cases hop : op = .add <;> cases l <;> cases r <;>
    simp [Kind.arithmetic?, Kind.isNumeric, Kind.isScalar, Kind.promote, hop] at hk ⊢

/-- A second round gives the same kind again, a string, or nothing. -/
theorem Settling.next {f : Kind → Kind} (h : Settling f) (hne : f .float ≠ .none) :
    f .string = f .float ∨ f .string = .string ∨ f .string = .none := by
  cases hf : f .float with
  | int => exact .inl (by rw [h.fixed (.inl hf) .string, hf])
  | bool => exact .inl (by rw [h.fixed (.inr (.inl hf)) .string, hf])
  | intArray => exact .inl (by rw [h.fixed (.inr (.inr hf)) .string, hf])
  | float => exact h.float hf
  | string => exact .inr (h.string hf)
  | none => exact absurd hf hne

/-- Operands that are not both numbers give a string or nothing. -/
theorem arithmetic_not_numeric {l r : Kind} (h : (l.isNumeric && r.isNumeric) = false)
    (op : ArithOp) : (l.arithmetic? op r).getD .none = .string ∨
      (l.arithmetic? op r).getD .none = .none := by
  unfold Kind.arithmetic?
  rw [h]
  rw [if_neg Bool.false_ne_true]
  split
  · split
    · exact .inl rfl
    · exact .inr rfl
  · exact .inr rfl

/-- A number of a second round is that of the first. -/
theorem eq_of_isNumeric {k k' : Kind} (h : k' = k ∨ k' = .string ∨ k' = .none)
    (hn : k'.isNumeric = true) : k' = k := by
  rcases h with h | rfl | rfl
  · exact h
  · cases hn
  · cases hn

theorem Settling.arithmetic {f g : Kind → Kind} (hf : Settling f) (hg : Settling g) (op : ArithOp) :
    Settling fun k => ((f k).arithmetic? op (g k)).getD .none := by
  have none_left (k : Kind) : (Kind.none.arithmetic? op k).getD .none = .none := by
    cases k <;> simp [Kind.arithmetic?, Kind.isNumeric, Kind.isScalar]
  have none_right (k : Kind) : (k.arithmetic? op .none).getD .none = .none := by
    cases k <;> simp [Kind.arithmetic?, Kind.isNumeric, Kind.isScalar]
  refine ⟨?_, fun h => ?_, fun h => ?_, fun h => ?_⟩
  · rcases hf.none with hn | hconst
    · exact .inl (by rw [hn, none_left])
    · rcases hg.none with hn | hconst'
      · exact .inl (by rw [hn, none_right])
      · exact .inr fun k => by rw [hconst k, hconst' k]
  · have hints : f .float = .int ∧ g .float = .int := by
      rcases h with h | h | h <;>
        rcases operands_of_arithmetic (by decide) h with ⟨hk, hi⟩ | ⟨hk, -⟩ | ⟨hk, -⟩ <;>
        first | exact hi | cases hk
    have hconst := hf.fixed (.inl hints.1)
    have hconst' := hg.fixed (.inl hints.2)
    exact fun k => by rw [hconst k, hconst' k]
  · rcases operands_of_arithmetic (by decide) h with ⟨hk, -⟩ | ⟨hk, -⟩ | ⟨-, rfl, hs⟩
    · cases hk
    · cases hk
    · refine arithmetic_not_numeric ?_ .add
      have hl := hf.next (by rintro e; simp [e, Kind.isScalar] at hs)
      have hr := hg.next (by rintro e; simp [e, Kind.isScalar] at hs)
      rw [Bool.and_eq_false_iff]
      by_contra hboth
      simp only [not_or, Bool.not_eq_false] at hboth
      rw [← eq_of_isNumeric hl hboth.1, ← eq_of_isNumeric hr hboth.2] at hs
      rcases hs with ⟨e, -⟩ | ⟨e, -⟩
      · rw [e] at hboth
        cases hboth.1
      · rw [e] at hboth
        cases hboth.2
  · rcases operands_of_arithmetic (by decide) h with ⟨hk, -⟩ | ⟨-, hs⟩ | ⟨hk, -⟩
    · cases hk
    · have hl := hf.next (by rintro e; simp [e, Kind.isNumeric] at hs)
      have hr := hg.next (by rintro e; simp [e, Kind.isNumeric] at hs)
      by_cases hboth : (f .string).isNumeric = true ∧ (g .string).isNumeric = true
      · rw [← eq_of_isNumeric hl hboth.1, ← eq_of_isNumeric hr hboth.2] at hs
        have hfloat : f .string = .float ∨ g .string = .float := hs.imp And.left And.left
        exact .inl (by simp [Kind.arithmetic?, Kind.promote, hboth, hfloat])
      · refine .inr (arithmetic_not_numeric ?_ op)
        simpa using hboth
    · cases hk

theorem settling_predictAll {nodes : List Node} {names functions : Table Kind} {name : String}
    {l : List (String × Kind)}
    (hkeeps : ∀ node ∈ nodes, ∀ p, (predict c node p).2 = p)
    (h : ∀ node ∈ nodes, Settling fun k => (predict c node ⟨names, functions.insert name k, l⟩).1)
    {last : Kind → Kind} (hlast : Settling last) :
    Settling fun k => (predictAll c nodes (last k) ⟨names, functions.insert name k, l⟩).1 := by
  induction nodes generalizing last with
  | nil => exact hlast
  | cons node rest ih =>
    simp only [predictAll, hkeeps node List.mem_cons_self]
    exact ih (fun n hn => hkeeps n (List.mem_cons_of_mem _ hn))
      (fun n hn => h n (List.mem_cons_of_mem _ hn)) (h node List.mem_cons_self)

theorem settling_predict (h : node.Avoids bindingForms) (names functions : Table Kind)
    (name : String) (l : List (String × Kind)) :
    Settling fun k => (predict c node ⟨names, functions.insert name k, l⟩).1 := by
  induction node using Node.induction with
  | h node ih =>
  have part (child : Node) (hc : child ∈ node.children) := ih child hc (h.child hc)
  have keeps (child : Node) (hc : child ∈ node.children) (p : State) : (predict c child p).2 = p :=
    predict_of_avoids (h.child hc) p
  cases node with
  | sequence nodes => exact settling_predictAll keeps part (settling_const .none)
  | binary left op right =>
    simp only [predict, keeps left (by simp [Node.children]), keeps right (by simp [Node.children])]
    exact (part left (by simp [Node.children])).arithmetic (part right (by simp [Node.children])) op
  | branch condition thenPart elsePart =>
    simp only [predict, keeps condition (by simp [Node.children]),
      keeps thenPart (by simp [Node.children])]
    by_cases hm : elsePart.isMissing = true
    · simp only [hm, if_true]
      exact settling_const .none
    · simp only [hm]
      exact (part thenPart (by simp [Node.children])).join (part elsePart (by simp [Node.children]))
  | loop start condition step body =>
    simp only [predict, keeps start (by simp [Node.children]),
      keeps condition (by simp [Node.children])]
    exact part body (by simp [Node.children])
  | print e => exact part e (by simp [Node.children])
  | call f args =>
    have hargs (p : State) : (predictAll c args .none p).2 = p :=
      predictAll_expressions keeps .none p
    simp only [predict, hargs]
    by_cases hf : name = f
    · have hid : (fun k => functionKind c ⟨names, functions.insert name k, l⟩ f) = id := by
        funext k
        simp [functionKind, Table.get?_insert, hf]
      rw [hid]
      exact settling_id
    · have hconst : (fun k => functionKind c ⟨names, functions.insert name k, l⟩ f) =
          fun _ => functionKind c ⟨names, functions, l⟩ f := by
        funext k
        simp [functionKind, Table.get?_insert, hf]
      rw [hconst]
      exact settling_const _
  | identifier x => exact settling_const (nameKind c ⟨names, functions, l⟩ x)
  | assign | define => exact absurd h.self (by simp [Node.shape, bindingForms])
  | _ => exact settling_const _

/-! ## The iteration -/

theorem settle_succ {body : State → Kind × State} (hbody : ∀ p, (body p).2 = p) (name : String)
    (scope functions : Table Kind) (n : Nat) (kind : Kind) (l : List (String × Kind)) :
    (settle body name scope functions (n + 1) kind l).1 =
      if (body ⟨scope, functions.insert name kind, l⟩).1 = kind then kind
      else (settle body name scope functions n (body ⟨scope, functions.insert name kind, l⟩).1 l).1 := by
  rw [settle]
  simp only [hbody]
  split <;> rfl

/-- The iteration ends in a kind that confirms itself. -/
theorem settle_fixed {body : State → Kind × State} (hbody : ∀ p, (body p).2 = p) (name : String)
    (scope functions : Table Kind) (n : Nat) (l : List (String × Kind))
    (h : Settling fun k => (body ⟨scope, functions.insert name k, l⟩).1) :
    (body ⟨scope, functions.insert name
      (settle body name scope functions (n + 3) .float l).1, l⟩).1 =
        (settle body name scope functions (n + 3) .float l).1 := by
  set f : Kind → Kind := fun k => (body ⟨scope, functions.insert name k, l⟩).1 with hf
  have hsucc (m : Nat) (k : Kind) : (settle body name scope functions (m + 1) k l).1 =
      if f k = k then k else (settle body name scope functions m (f k) l).1 :=
    settle_succ hbody name scope functions m k l
  show f _ = _
  by_cases h1 : f .float = .float
  · rw [hsucc, if_pos h1, h1]
  rw [hsucc, if_neg h1]
  by_cases h2 : f (f .float) = f .float
  · rw [hsucc, if_pos h2, h2]
  rw [hsucc, if_neg h2]
  -- only a string can be given up, and then nothing is left
  have h3 : f (f (f .float)) = f (f .float) := by
    cases hk : f .float with
    | float => exact absurd hk h1
    | int => rw [hk, h.fixed (.inl hk) .int, hk] at h2; exact absurd rfl h2
    | bool => rw [hk, h.fixed (.inr (.inl hk)) .bool, hk] at h2; exact absurd rfl h2
    | intArray => rw [hk, h.fixed (.inr (.inr hk)) .intArray, hk] at h2; exact absurd rfl h2
    | string =>
      rcases h.string hk with hs | hs
      · rw [hk, hs] at h2
        exact absurd rfl h2
      · rcases h.none with hn | hconst
        · rw [hs, hn]
        · rw [hconst .float, ← hconst .string, hs] at hk
          cases hk
    | none =>
      rcases h.none with hn | hconst
      · rw [hn, hn]
      · rw [hconst (f .none)]
  rw [hsucc, if_pos h3, h3]

/-- The kind of a body under an assumption on what its function returns. -/
def bodyKind (c : Context σ) (name : String) (params : List String) (body : Node)
    (assumed : Kind) : Kind :=
  (predict c body ⟨params.foldl (fun scope param => scope.insert param .float) {},
    Table.insert {} name assumed, []⟩).1

/-- The recorded return kind of a function that assigns nothing is the kind of its body. -/
theorem bodyKind_predictFunction (h : body.Avoids bindingForms) (name : String) :
    bodyKind c name params body (predictFunction c {} {} name params body).1 =
      (predictFunction c {} {} name params body).1 :=
  settle_fixed (predict_of_avoids h) name _ _ 3 [] (settling_predict h _ _ name [])

end Prediction
end DualEngine
