import DualEngine.Node.Parse
import DualEngine.Proofs.ReturnKinds

/-! # Return kinds that confirm themselves

The return kind of a function is predicted again under its own assumption, as many times as there
are kinds. That is enough wherever the assumption ever stops changing, and it does so for every body
that binds nothing. A body that assigns can make the assumption change for ever, because an
assignment without a kind is passed over.
-/
namespace DualEngine

instance : Fintype Kind where
  elems := {.int, .float, .string, .bool, .none, .intArray}
  complete k := by cases k <;> decide

/-- An iteration that ever stops does so within as many steps as there are elements. -/
theorem isFixedPt_iterate_card {α : Type} [Fintype α] {f : α → α} {x : α} {n : Nat}
    (h : Function.IsFixedPt f (f^[n] x)) : Function.IsFixedPt f (f^[Fintype.card α] x) := by
  have hlater (m : Nat) (hm : n ≤ m) : f^[m] x = f^[n] x := by
    obtain ⟨k, rfl⟩ := Nat.exists_eq_add_of_le hm
    rw [Nat.add_comm, Function.iterate_add_apply]
    exact h.iterate k
  -- among the first elements of the orbit two are the same, and from there on it goes round
  obtain ⟨i, j, hne, hij⟩ := Fintype.exists_ne_map_eq_of_card_lt
    (fun k : Fin (Fintype.card α + 1) => f^[k] x) (by simp)
  wlog hlt : i < j generalizing i j
  · exact this j i hne.symm hij.symm (lt_of_le_of_ne (not_lt.mp hlt) hne.symm)
  have hround (k : Nat) : f^[i + k * (j - i)] x = f^[i] x := by
    induction k with
    | zero => simp
    | succ k ih =>
      have hsplit : (i : Nat) + (k + 1) * (j - i) = k * (j - i) + j := by
        rw [Nat.succ_mul]
        omega
      rw [hsplit, Function.iterate_add_apply, ← hij, ← Function.iterate_add_apply, Nat.add_comm, ih]
  have hi : f^[i] x = f^[n] x := by
    rw [← hround n]
    refine hlater _ ?_
    have := Nat.le_mul_of_pos_right n (Nat.sub_pos_of_lt hlt)
    omega
  obtain ⟨k, hk⟩ := Nat.exists_eq_add_of_le (Nat.lt_succ_iff.mp i.isLt)
  have hcard : f^[Fintype.card α] x = f^[n] x := by
    rw [hk, Nat.add_comm, Function.iterate_add_apply, hi]
    exact h.iterate k
  rw [hcard]
  exact h

namespace Prediction

variable {σ : Type} {c : Context σ} {overlay functions : Table Kind} {name : String}
  {params : List String} {body : Node}

/-- The kind of a body whose parameters are floats, if its own function returns `assumed`. -/
def assumedKind (c : Context σ) (overlay functions : Table Kind) (name : String)
    (params : List String) (body : Node) (assumed : Kind) : Kind :=
  (predict c body ⟨params.foldl (fun scope param => scope.insert param .float) overlay,
    functions.insert name assumed, []⟩).1

theorem predict_settled (node : Node) (names functions : Table Kind) (l l' : List (String × Kind)) :
    (predict c node ⟨names, functions, l⟩).1 = (predict c node ⟨names, functions, l'⟩).1 := by
  have halike : Alike c ⟨names, functions, l⟩ c ⟨names, functions, l'⟩ :=
    ⟨fun _ => rfl, fun _ => rfl⟩
  exact (predict_alike node halike).1

/-- A kind that confirms itself ends the iteration, and so does not change by going on. -/
theorem settle_eq_iterate (n : Nat) (kind : Kind) (l : List (String × Kind)) :
    (settle (predict c body) name
      (params.foldl (fun scope param => scope.insert param .float) overlay) functions n kind l).1 =
        (assumedKind c overlay functions name params body)^[n] kind := by
  induction n generalizing kind l with
  | zero => rfl
  | succ n ih =>
    have hkind : (predict c body ⟨params.foldl (fun scope param => scope.insert param .float) overlay,
        functions.insert name kind, l⟩).1 = assumedKind c overlay functions name params body kind :=
      predict_settled body _ _ l []
    rw [settle, Function.iterate_succ_apply]
    simp only [hkind]
    split
    · rename_i hfixed
      rw [hfixed]
      exact (Function.IsFixedPt.iterate hfixed n).symm
    · exact ih _ _

theorem predictFunction_eq_iterate : (predictFunction c overlay functions name params body).1 =
    (assumedKind c overlay functions name params body)^[Fintype.card Kind] .float :=
  settle_eq_iterate rounds .float []

/-- A predicted return kind confirms itself exactly if going on would ever lead to a kind that does,
and it always does so for a body without assignments and definitions. -/
theorem return_kind_stable_iff (c : Context σ) (overlay functions : Table Kind) (name : String)
    (params : List String) (body : Node) :
    (assumedKind c overlay functions name params body
        (predictFunction c overlay functions name params body).1 =
          (predictFunction c overlay functions name params body).1 ↔
      ∃ n, Function.IsFixedPt (assumedKind c overlay functions name params body)
        ((assumedKind c overlay functions name params body)^[n] .float)) ∧
    (body.Avoids Lowering.bindingForms → assumedKind c overlay functions name params body
      (predictFunction c overlay functions name params body).1 =
        (predictFunction c overlay functions name params body).1) := by
  refine ⟨?_, fun h => ?_⟩
  · rw [predictFunction_eq_iterate]
    exact ⟨fun h => ⟨_, h⟩, fun ⟨n, h⟩ => isFixedPt_iterate_card h⟩
  · exact settle_fixed (predict_of_avoids h) name _ functions 3 []
      (settling_predict h _ functions name [])

/-- A recursive definition of a text: the assumption changes once and is then confirmed. -/
theorem repeated_text_return_kind :
    ∃ body, parse "def rep(n) \x7b if (n < 1) \"\" else \"a\" + rep(n - 1) \x7d" =
        .ok (.sequence [.define "rep" ["n"] body]) ∧ body.Avoids Lowering.bindingForms ∧
      (predictFunction ({} : Context Unit) {} {} "rep" ["n"] body).1 = .string ∧
      assumedKind ({} : Context Unit) {} {} "rep" ["n"] body .string = .string := by
  let body : Node := .sequence [.branch (.comparison (.identifier "n") .lt (.number 1)) (.string "")
    (.binary (.string "a") .add (.call "rep" [.binary (.identifier "n") .sub (.number 1)]))]
  have havoids : body.Avoids Lowering.bindingForms := by decide
  have hkind : (predictFunction ({} : Context Unit) {} {} "rep" ["n"] body).1 = .string := by decide
  have hstable := (return_kind_stable_iff ({} : Context Unit) {} {} "rep" ["n"] body).2 havoids
  rw [hkind] at hstable
  exact ⟨body, by cbv, havoids, hkind, hstable⟩

/-- With `float` assumed the two ways of the branch are of different kinds; with nothing assumed
the second assignments are passed over and both are floats again. -/
def waveringBody : Node :=
  .sequence [.assign "y" (.array [.number 1]), .assign "y" (.call "f" [.identifier "p"]),
    .assign "v" (.identifier "p"), .assign "v" (.binary (.identifier "y") .add (.identifier "y")),
    .assign "w" (.identifier "p"), .assign "w" (.binary (.identifier "y") .add (.string "a")),
    .branch (.boolean true) (.identifier "v") (.identifier "w")]

/-- The prediction does not confirm itself, though there is a kind that would. -/
theorem wavering_return_kind :
    parse ("def f(p) \x7b y = [1]; y = f(p); v = p; v = y + y; w = p; w = y + \"a\"; " ++
      "if (true) v else w \x7d") = .ok (.sequence [.define "f" ["p"] waveringBody]) ∧
    assumedKind ({} : Context Unit) {} {} "f" ["p"] waveringBody
        (predictFunction ({} : Context Unit) {} {} "f" ["p"] waveringBody).1 ≠
      (predictFunction ({} : Context Unit) {} {} "f" ["p"] waveringBody).1 ∧
    ∀ kind, assumedKind ({} : Context Unit) {} {} "f" ["p"] waveringBody kind = kind ↔
      kind = .string := by
  have hkind : (predictFunction ({} : Context Unit) {} {} "f" ["p"] waveringBody).1 = .float := by
    decide
  have honly (kind : Kind) :
      assumedKind ({} : Context Unit) {} {} "f" ["p"] waveringBody kind = kind ↔ kind = .string := by
    cases kind <;> decide
  refine ⟨by cbv, ?_, honly⟩
  rw [hkind, Ne, honly]
  decide

end Prediction
end DualEngine
