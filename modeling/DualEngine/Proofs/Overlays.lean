import DualEngine.Proofs.Predictions

/-! # Bindings beside a context

In the middle of a submission the names and functions that it has bound stand beside the context;
an engine that has got to the same place has them in its context. The return kind of a definition
is predicted the same from both.
-/
namespace DualEngine

namespace Context
variable {σ : Type} (c : Context σ)

/-- With every name of a table bound to storage of its kind. The first entry for a name is the one
that counts, so it is added last. -/
def bindNames (storage : String → σ) (kinds : Table Kind) : Context σ :=
  kinds.entries.foldr (fun entry c => c.add entry.1 (storage entry.1) entry.2) c

/-- With every function of a table defined with its return kind. -/
def bindFunctions (code : String → List String × Node) (kinds : Table Kind) : Context σ :=
  kinds.entries.foldr (fun entry c =>
    c.addFunction entry.1 ⟨(code entry.1).1, (code entry.1).2, entry.2⟩) c

theorem kind_add (x y : String) (storage : σ) (kind : Kind) :
    ((c.add x storage kind).get? y).map Symbol.kind =
      if x = y then some kind else (c.get? y).map Symbol.kind := by
  simp only [get?, add, Table.get?_insert]
  split <;> rfl

theorem returns_addFunction (f g : String) (d : Definition) :
    ((c.addFunction f d).getFunction? g).map Definition.returns =
      if f = g then some d.returns else (c.getFunction? g).map Definition.returns := by
  simp only [getFunction?, addFunction, Table.get?_insert]
  split <;> rfl

theorem kind_bindNames (storage : String → σ) (kinds : Table Kind) (x : String) :
    ((c.bindNames storage kinds).get? x).map Symbol.kind =
      (kinds.get? x).or ((c.get? x).map Symbol.kind) := by
  obtain ⟨entries⟩ := kinds
  induction entries with
  | nil => rfl
  | cons entry rest ih =>
    obtain ⟨y, kind⟩ := entry
    simp only [bindNames, List.foldr_cons, kind_add, Table.get?, Table.find?] at ih ⊢
    split
    · rfl
    · exact ih

theorem returns_bindFunctions (code : String → List String × Node) (kinds : Table Kind)
    (f : String) :
    ((c.bindFunctions code kinds).getFunction? f).map Definition.returns =
      (kinds.get? f).or ((c.getFunction? f).map Definition.returns) := by
  obtain ⟨entries⟩ := kinds
  induction entries with
  | nil => rfl
  | cons entry rest ih =>
    obtain ⟨g, kind⟩ := entry
    simp only [bindFunctions, List.foldr_cons, returns_addFunction, Table.get?, Table.find?] at ih ⊢
    split
    · rfl
    · exact ih

theorem get?_bindFunctions (code : String → List String × Node) (kinds : Table Kind) (x : String) :
    (c.bindFunctions code kinds).get? x = c.get? x := by
  obtain ⟨entries⟩ := kinds
  induction entries with
  | nil => rfl
  | cons entry rest ih => exact ih

theorem getFunction?_bindNames (storage : String → σ) (kinds : Table Kind) (f : String) :
    (c.bindNames storage kinds).getFunction? f = c.getFunction? f := by
  obtain ⟨entries⟩ := kinds
  induction entries with
  | nil => rfl
  | cons entry rest ih => exact ih

end Context

namespace Prediction
variable {σ : Type}

/-- What stands beside the context is known as well as what is added to it. -/
theorem alike_bound (c : Context σ) (overlay known : Table Kind) (storage : String → σ)
    (code : String → List String × Node) (l l' : List (String × Kind)) :
    Alike c ⟨overlay, known, l⟩
      ((c.bindNames storage overlay).bindFunctions code known) ⟨{}, {}, l'⟩ where
  names x := by
    have hbound : ((((c.bindNames storage overlay).bindFunctions code known).get? x).map
        Symbol.kind) = (overlay.get? x).or ((c.get? x).map Symbol.kind) := by
      rw [Context.get?_bindFunctions, Context.kind_bindNames]
    exact hbound.symm
  functions f := by
    have hbound : ((((c.bindNames storage overlay).bindFunctions code known).getFunction? f).map
        Definition.returns) = (known.get? f).or ((c.getFunction? f).map Definition.returns) := by
      rw [Context.returns_bindFunctions, Context.getFunction?_bindNames]
    exact hbound.symm

/-- The return kind of a definition does not depend on whether names and functions are bound beside
the context or in it, whatever their storage and their code. -/
theorem return_kind_of_bound (c : Context σ) (overlay known : Table Kind) (storage : String → σ)
    (code : String → List String × Node) (name : String) (params : List String) (body : Node) :
    (predictFunction c overlay known name params body).1 =
      (predictFunction ((c.bindNames storage overlay).bindFunctions code known) {} {}
        name params body).1 :=
  returnKind_alike name params (fun h => predict_alike body h)
    (alike_bound c overlay known storage code [] []) [] []

end Prediction
end DualEngine
