import DualEngine.Proofs.Sessions
import DualEngine.Proofs.Writes

/-! # Sessions never lose names

A context only ever goes on from a former one: it keeps the names in the order of their first binding,
has every name once, and counts a version for each name that it adds. This holds for every step of a
session in both engines. In evaluation the version counts the writes exactly; a step of the machine
that fails leaves the context as it was.
-/
namespace DualEngine

namespace Table
variable {α : Type}

theorem names_prefix_insert (t : Table α) (name : String) (value : α) :
    t.names <+: (t.insert name value).names := by
  rw [names_insert]
  split
  · exact List.prefix_rfl
  · exact List.prefix_append _ _

theorem length_names_insert_le (t : Table α) (name : String) (value : α) :
    (t.insert name value).names.length ≤ t.names.length + 1 := by
  rw [names_insert]
  split
  · exact Nat.le_succ _
  · rw [List.length_append, List.length_singleton]

end Table

namespace Context
variable {σ : Type} {c c' c'' : Context σ}

/-- The names of `c` come first in `c'`, in their order, and the version is higher by at least the
number of names that are new. -/
structure Continues (c c' : Context σ) : Prop where
  symbols : c.symbols.names <+: c'.symbols.names
  functions : c.functions.names <+: c'.functions.names
  version : c.version ≤ c'.version
  added : (c'.symbols.names.length - c.symbols.names.length) +
    (c'.functions.names.length - c.functions.names.length) ≤ c'.version - c.version

/-- No name occurs twice. -/
structure Distinct (c : Context σ) : Prop where
  symbols : c.symbols.names.Nodup
  functions : c.functions.names.Nodup

theorem Continues.refl (c : Context σ) : c.Continues c :=
  ⟨List.prefix_rfl, List.prefix_rfl, le_rfl, by simp⟩

theorem Continues.trans (h : c.Continues c') (h' : c'.Continues c'') : c.Continues c'' := by
  refine ⟨h.symbols.trans h'.symbols, h.functions.trans h'.functions,
    h.version.trans h'.version, ?_⟩
  have := h.symbols.length_le
  have := h'.symbols.length_le
  have := h.functions.length_le
  have := h'.functions.length_le
  have := h.added
  have := h'.added
  have := h.version
  have := h'.version
  omega

theorem continues_add (c : Context σ) (name : String) (storage : σ) (kind : Kind) :
    c.Continues (c.add name storage kind) := by
  refine ⟨Table.names_prefix_insert _ _ _, List.prefix_rfl, Nat.le_succ _, ?_⟩
  have := Table.length_names_insert_le c.symbols name ⟨storage, kind⟩
  simp only [add]
  omega

theorem continues_addFunction (c : Context σ) (name : String) (d : Definition) :
    c.Continues (c.addFunction name d) := by
  refine ⟨List.prefix_rfl, Table.names_prefix_insert _ _ _, Nat.le_succ _, ?_⟩
  have := Table.length_names_insert_le c.functions name d
  simp only [addFunction]
  omega

theorem Distinct.add (h : c.Distinct) (name : String) (storage : σ) (kind : Kind) :
    (c.add name storage kind).Distinct :=
  ⟨Table.nodup_insert h.symbols _ _, h.functions⟩

theorem Distinct.addFunction (h : c.Distinct) (name : String) (d : Definition) :
    (c.addFunction name d).Distinct :=
  ⟨h.symbols, Table.nodup_insert h.functions _ _⟩

theorem distinct_empty : (empty : Context σ).Distinct := ⟨List.nodup_nil, List.nodup_nil⟩

end Context

/-! ## Evaluation -/

namespace Evaluator

theorem continues_apply (c : Context Value) (w : Write) : c.Continues (w.apply c) := by
  cases w with
  | store name value => exact c.continues_add name value value.kind
  | define name params body => exact c.continues_addFunction name _

theorem distinct_apply {c : Context Value} (h : c.Distinct) (w : Write) : (w.apply c).Distinct := by
  cases w with
  | store name value => exact h.add name value value.kind
  | define name params body => exact h.addFunction name _

theorem version_apply (c : Context Value) (w : Write) : (w.apply c).version = c.version + 1 := by
  cases w <;> rfl

/-- What one write keeps, several keep, and each of them counts. -/
theorem foldl_apply (ws : List Write) (c : Context Value) :
    c.Continues (ws.foldl Write.apply c) ∧
      (ws.foldl Write.apply c).version = c.version + ws.length ∧
      (c.Distinct → (ws.foldl Write.apply c).Distinct) := by
  induction ws generalizing c with
  | nil => exact ⟨.refl c, rfl, fun h => h⟩
  | cons w rest ih =>
    obtain ⟨hcontinues, hversion, hdistinct⟩ := ih (w.apply c)
    refine ⟨(continues_apply c w).trans hcontinues, ?_, fun h => hdistinct (distinct_apply h w)⟩
    rw [List.foldl_cons, hversion, version_apply, List.length_cons]
    omega

/-- The writes are the whole effect of a submission on the context. -/
theorem context_run (fuel : Nat) (node : Node) (s : State) :
    (run fuel node s).2.context = (writes fuel {} node s).foldl Write.apply s.context := by
  have hall : Performs Set.univ (eval fuel {} node) (writes fuel {} node) :=
    performs_eval fuel {} fun _ _ => trivial
  rw [run_state]
  exact (hall s fun _ _ _ _ _ => trivial).1

theorem State.Reachable.distinct {s : State} (h : s.Reachable) : s.context.Distinct := by
  induction h with
  | start g => exact Context.distinct_empty
  | submit _ fuel node ih =>
    rw [context_run]
    exact (foldl_apply _ _).2.2 ih

end Evaluator

/-! ## The machine -/

namespace Lowering
variable {g : Grant} {s s' : State}

theorem Change.continues (h : Change g s s') : s.context.Continues s'.context := by
  cases h with
  | bind hs hn => exact Context.continues_add _ _ _ _
  | define name hn hd => exact Context.continues_addFunction _ _ _
  | _ => exact .refl _

theorem Change.distinct (h : Change g s s') (hd : s.context.Distinct) : s'.context.Distinct := by
  cases h with
  | bind hs hn => exact hd.add _ _ _
  | define name hn _ => exact hd.addFunction _ _
  | _ => exact hd

theorem Changes.continues (h : Changes g s s') : s.context.Continues s'.context := by
  induction h with
  | refl => exact .refl _
  | tail _ hc ih => exact ih.trans hc.continues

theorem Changes.distinct (h : Changes g s s') (hd : s.context.Distinct) : s'.context.Distinct := by
  induction h with
  | refl => exact hd
  | tail _ hc ih => exact hc.distinct ih

theorem lowerSubmission_continues {c : Context Slot} {number nextSlot : Nat} {node : Node}
    {a : Artifact} (h : (lowerSubmission c number nextSlot node).1 = .ok a) :
    c.Continues a.context ∧ (c.Distinct → a.context.Distinct) := by
  have hc := makes_lowerEntry Grant.everything (c := c) (fun _ d _ => Grant.everything_covers d.body)
    (Grant.everything_covers node) number nextSlot (Prediction.predictResult c node)
  cases hrun : lowerEntry (entryName number) (Prediction.predictResult c node) node
      { context := c, nextSlot } with
  | ok u s =>
    rw [hrun] at hc
    rw [lowerSubmission_ok hrun] at h
    cases h
    have hcontinues := hc.continues
    have hdistinct := hc.distinct
    rw [State.context_begun] at hcontinues hdistinct
    exact ⟨hcontinues, hdistinct⟩
  | error cause s =>
    rw [lowerSubmission_error hrun] at h
    cases h

end Lowering

namespace Machine
open Lowering

/-- One submission that is run: the context goes on, and stays if the submission fails. -/
theorem run_continues (s : Session) (fuel : Nat) (generator : Random.Generator) (node : Node) :
    s.context.Continues (s.run fuel generator node).session.context ∧
      (s.context.Distinct → (s.run fuel generator node).session.context.Distinct) := by
  obtain ⟨-, heq | ⟨a, ha, heq⟩⟩ := context_run s fuel generator node
  · rw [heq]
    exact ⟨.refl _, fun h => h⟩
  · rw [heq]
    exact lowerSubmission_continues ha

theorem context_of_failure {s : Session} {fuel : Nat} {generator : Random.Generator} {node : Node}
    {failure : Failure} (h : (s.run fuel generator node).value = .error failure) :
    (s.run fuel generator node).session.context = s.context := by
  unfold Session.run at h ⊢
  rw [lower_eq] at h ⊢
  generalize lowerSubmission s.context s.entries s.slots node = p at h ⊢
  obtain ⟨result, slots⟩ := p
  cases result with
  | error cause => rfl
  | ok a =>
    dsimp only at h ⊢
    cases hrun : runArtifact fuel a { memory := s.memory, generator } with
    | ok v st =>
      rw [hrun] at h
      cases h
    | error halt st => rfl

theorem Session.Reachable.distinct {s : Session} (h : s.Reachable) : s.context.Distinct := by
  induction h with
  | start => exact Context.distinct_empty
  | lower _ node ih =>
    rw [lower_eq]
    exact ih
  | run _ fuel generator node ih => exact (run_continues _ fuel generator node).2 ih

end Machine

open Machine in
/-- At every step of a session, whether it succeeds or not, the context goes on from the former one and
has no name twice. In evaluation the version counts the stores and definitions that are carried out;
in the machine a step that fails, or only lowers, leaves the context as it was. -/
theorem sessions_keep_names :
    (∀ (s : Evaluator.State) (fuel : Nat) (node : Node), s.Reachable →
      s.context.Distinct ∧ s.context.Continues (Evaluator.run fuel node s).2.context ∧
        (Evaluator.run fuel node s).2.context.version =
          s.context.version + (Evaluator.writes fuel {} node s).length) ∧
    ∀ (s : Session) (fuel : Nat) (generator : Random.Generator) (node : Node), s.Reachable →
      s.context.Distinct ∧ s.context.Continues (s.run fuel generator node).session.context ∧
        (∀ failure, (s.run fuel generator node).value = .error failure →
          (s.run fuel generator node).session.context = s.context) ∧
        (s.lower node).2.context = s.context := by
  constructor
  · intro s fuel node hs
    obtain ⟨hcontinues, hversion, -⟩ :=
      Evaluator.foldl_apply (Evaluator.writes fuel {} node s) s.context
    rw [Evaluator.context_run]
    exact ⟨hs.distinct, hcontinues, hversion⟩
  · intro s fuel generator node hs
    refine ⟨hs.distinct, (run_continues s fuel generator node).1, fun failure h => ?_, ?_⟩
    · exact context_of_failure h
    · rw [lower_eq]

open Machine in
/-- A submission that binds a name, retypes another and then fails: evaluation keeps both stores, the
machine nothing. -/
theorem faulty_submission_keeps_names :
    (∃ s s' : Evaluator.State, s.Reachable ∧ s.context.symbols.names = ["x"] ∧
      (Evaluator.run 9 (.sequence [.assign "y" (.number 2), .assign "x" (.string "a"),
        .identifier "z"]) s).2 = s' ∧ s'.context.symbols.names = ["x", "y"] ∧
      s.context.Continues s'.context ∧ s'.context.version = s.context.version + 2) ∧
    ∃ (s : Session) (failure : Failure), s.Reachable ∧ s.context.symbols.names = ["x"] ∧
      (s.run 9 ⟨#[], 0⟩ (.sequence [.assign "y" (.number 2), .assign "x" (.string "a"),
        .identifier "z"])).value = .error failure ∧
      (s.run 9 ⟨#[], 0⟩ (.sequence [.assign "y" (.number 2), .assign "x" (.string "a"),
        .identifier "z"])).session.context = s.context := by
  constructor
  · have hs := Evaluator.State.Reachable.submit (.start ⟨#[], 0⟩) 9
      (.sequence [.assign "x" (.number 1)])
    obtain ⟨-, hcontinues, hversion⟩ := sessions_keep_names.1 _ 9 (.sequence
      [.assign "y" (.number 2), .assign "x" (.string "a"), .identifier "z"]) hs
    have hwrites : (Evaluator.writes 9 {} (.sequence [.assign "y" (.number 2),
        .assign "x" (.string "a"), .identifier "z"]) (Evaluator.run 9 (.sequence
        [.assign "x" (.number 1)]) { generator := ⟨#[], 0⟩ }).2).length = 2 := by cbv
    rw [hwrites] at hversion
    exact ⟨_, _, hs, by cbv, rfl, by cbv, hcontinues, hversion⟩
  · have hs := Session.Reachable.run .start 9 ⟨#[], 0⟩ (.sequence [.assign "x" (.number 1)])
    have hvalue : ((Session.run 9 ⟨#[], 0⟩ {} (.sequence [.assign "x" (.number 1)])).session.run 9
        ⟨#[], 0⟩ (.sequence [.assign "y" (.number 2), .assign "x" (.string "a"),
        .identifier "z"])).value = .error (.lowering (.undefinedVariable "z")) := by cbv
    obtain ⟨-, -, hfailure, -⟩ := sessions_keep_names.2 _ 9 ⟨#[], 0⟩ (.sequence
      [.assign "y" (.number 2), .assign "x" (.string "a"), .identifier "z"]) hs
    exact ⟨_, _, hs, by cbv, hvalue, hfailure _ hvalue⟩

end DualEngine
