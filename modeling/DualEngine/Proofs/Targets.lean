import DualEngine.Proofs.Confinement
import DualEngine.Proofs.Definitions
import DualEngine.Proofs.Retention

/-! # Only targets change

The targets of a submission are the names that are assigned or stepped in it or in a recorded
function. In both engines every other variable keeps its place, its kind and its value, whether the
submission succeeds or not.
-/
namespace DualEngine

/-- The names that are assigned or stepped in a tree or in a recorded function. -/
def Context.targets {σ : Type} (c : Context σ) (node : Node) : List String :=
  node.targets ++ c.functions.entries.flatMap fun entry => entry.2.body.targets

theorem Context.aims_targets {σ : Type} (c : Context σ) (node : Node) :
    c.Aims {x | x ∈ c.targets node} := by
  intro name d hd x hx
  exact List.mem_append_right _ (List.mem_flatMap.mpr ⟨(name, d), Table.mem_of_get? hd, hx⟩)

/-! ## Evaluation -/

namespace Evaluator
variable {targets : Set String}

theorem kept_apply (c : Context Value) {w : Write} (hw : w.Within targets) (keep : String → Bool)
    (hk : ∀ x ∈ targets, keep x = false) :
    (w.apply c).symbols.entries.filter (fun entry => keep entry.1) =
      c.symbols.entries.filter fun entry => keep entry.1 := by
  cases w with
  | store name value => exact Table.filter_put keep (hk name hw) _ _
  | define name params body => rfl

theorem kept_writes {ws : List Write} (hws : ∀ w ∈ ws, w.Within targets) (c : Context Value)
    (keep : String → Bool) (hk : ∀ x ∈ targets, keep x = false) :
    (ws.foldl Write.apply c).symbols.entries.filter (fun entry => keep entry.1) =
      c.symbols.entries.filter fun entry => keep entry.1 := by
  induction ws generalizing c with
  | nil => rfl
  | cons w rest ih =>
    obtain ⟨hw, hrest⟩ := List.forall_mem_cons.mp hws
    rw [List.foldl_cons, ih hrest, kept_apply c hw keep hk]

theorem kept_run (fuel : Nat) (node : Node) (s : State) :
    (run fuel node s).2.context.symbols.entries.filter
        (fun entry => entry.1 ∉ s.context.targets node) =
      s.context.symbols.entries.filter fun entry => entry.1 ∉ s.context.targets node := by
  have hperforms : Performs {x | x ∈ s.context.targets node} (eval fuel {} node)
      (writes fuel {} node) := performs_eval fuel {} fun x hx => List.mem_append_left _ hx
  rw [context_run]
  refine kept_writes (hperforms s (s.context.aims_targets node)).2 s.context
    (fun x => x ∉ s.context.targets node) fun x hx => ?_
  simpa using hx

end Evaluator

/-! ## The machine -/

namespace Lowering
open IR

theorem Changes.created_names {g : Grant} {s s' : State} (h : Changes g s s') :
    ∀ slot ∈ s'.created, slot ∈ s.created ∨ slot.name ∈ g.names := by
  induction h with
  | refl => exact fun _ hs => .inl hs
  | tail _ hc ih =>
    intro slot hs
    cases hc with
    | slot name hk hn =>
      rcases List.mem_append.mp hs with hs | hs
      · exact ih slot hs
      · obtain rfl := List.mem_singleton.mp hs
        exact .inr hn
    | _ => exact ih slot hs

theorem ordinary_targetCells (targets : Set String) : Machine.Ordinary (targetCells targets) := by
  constructor
  · rintro (h | ⟨slot, -, h⟩)
    · exact absurd h (by decide)
    · exact slot.symbol_ne (by decide) h.symm
  · rintro (h | ⟨slot, -, h⟩)
    · exact absurd h (by decide)
    · exact slot.symbol_ne (by decide) h.symm

/-- A submission binds none but its targets, and its module writes to none but their cells. -/
theorem lowerSubmission_secured {c : Context Slot} {number nextSlot next : Nat} {node : Node}
    {a : Artifact} {targets : Set String} (hc : Orderly c nextSlot) (haims : c.Aims targets)
    (hn : ∀ x ∈ node.targets, x ∈ targets)
    (h : lowerSubmission c number nextSlot node = (.ok a, next)) :
    Machine.Secured (targetCells targets) a ∧
      ∀ keep : String → Bool, (∀ x ∈ targets, keep x = false) →
        a.context.symbols.entries.filter (fun entry => keep entry.1) =
          c.symbols.entries.filter fun entry => keep entry.1 := by
  let g : Grant := ⟨targets, Set.univ⟩
  have hall : g.CoversAll c := fun name d hd =>
    ⟨fun x hx => haims name d hd x (List.mem_append_left _ hx), fun _ _ => trivial⟩
  have hnode : g.Covers node :=
    ⟨fun x hx => hn x (List.mem_append_left _ hx), fun _ _ => trivial⟩
  have hchanges := makes_lowerEntry g hall hnode number nextSlot (Prediction.predictResult c node)
  have hconfined := lowerSubmission_confined haims hn hc.slotted.proper.name h
  cases hrun : lowerEntry (entryName number) (Prediction.predictResult c node) node
      { context := c, nextSlot } with
  | error cause s =>
    rw [lowerSubmission_error hrun] at h
    cases h
  | ok u s =>
    rw [lowerSubmission_ok hrun] at h
    cases h
    rw [hrun] at hchanges
    have hnamed : Named s := Changes.named (named_begun _ _ _ _) hchanges
    refine ⟨⟨hconfined, fun slot hs => ?_, hnamed.distinct, hnamed.library⟩, fun keep hk => ?_⟩
    · rcases hchanges.created_names slot hs with hs | hs
      · rw [State.created_begun] at hs
        cases hs
      · exact symbol_mem_targetCells hs
    · have hkept := hchanges.kept_symbols keep hk
      rwa [State.context_begun] at hkept

end Lowering

namespace Machine
open Lowering

variable {node : Node} {s : Session}

/-- What a submission leaves of the memory: all of it where lowering fails, and otherwise what a
confined run spares. -/
theorem kept_memory (hs : Orderly s.context s.slots) (hm : s.memory.Closed) (fuel : Nat)
    (generator : Random.Generator) {targets : Set String} (haims : s.context.Aims targets)
    (hn : ∀ x ∈ node.targets, x ∈ targets) :
    Kept s.memory (targetCells targets) (s.run fuel generator node).session.memory := by
  have hsecured (a : Artifact) (next : Nat)
      (h : lowerSubmission s.context s.entries s.slots node = (.ok a, next)) :
      Secured (targetCells targets) a := (lowerSubmission_secured hs haims hn h).1
  unfold Session.run
  rw [lower_eq]
  generalize lowerSubmission s.context s.entries s.slots node = p at hsecured ⊢
  obtain ⟨result, next⟩ := p
  cases result with
  | error cause => exact hm.kept _
  | ok a =>
    have hrun := kept_runArtifact (hsecured a next rfl) (.inl rfl) (ordinary_targetCells targets) fuel
      (s := { memory := s.memory, generator }) hm
    dsimp only
    cases hr : runArtifact fuel a { memory := s.memory, generator } with
    | ok v st | error halt st =>
      rw [hr] at hrun
      exact hrun

theorem closed_initial : Memory.initial.Closed := by
  refine ⟨by decide, ?_⟩
  rintro name w ⟨⟩

/-- Whatever is submitted, no buffer is lost. -/
theorem kept_memory_run (hs : Orderly s.context s.slots) (hm : s.memory.Closed) (fuel : Nat)
    (generator : Random.Generator) (node : Node) :
    Kept s.memory (targetCells Set.univ) (s.run fuel generator node).session.memory :=
  kept_memory hs hm fuel generator (fun _ _ _ x _ => Set.mem_univ x) fun x _ => Set.mem_univ x

/-- The addresses in cells stay those of buffers that are there. -/
theorem Session.Reachable.closed (h : s.Reachable) : s.memory.Closed := by
  induction h with
  | start => exact closed_initial
  | lower _ node ih =>
    rw [lower_eq]
    exact ih
  | @run s h fuel generator node ih => exact (kept_memory_run h.orderly ih fuel generator node).closed

theorem kept_symbols_run (s : Session) (hs : Orderly s.context s.slots) (fuel : Nat)
    (generator : Random.Generator) {targets : Set String} (haims : s.context.Aims targets)
    (hn : ∀ x ∈ node.targets, x ∈ targets) (keep : String → Bool)
    (hk : ∀ x ∈ targets, keep x = false) :
    (s.run fuel generator node).session.context.symbols.entries.filter (fun entry => keep entry.1) =
      s.context.symbols.entries.filter fun entry => keep entry.1 := by
  obtain ⟨-, heq | ⟨a, ha, heq⟩⟩ := context_run s fuel generator node
  · rw [heq]
  · have hpair : lowerSubmission s.context s.entries s.slots node =
        (.ok a, (lowerSubmission s.context s.entries s.slots node).2) := by rw [← ha]
    rw [heq]
    exact (lowerSubmission_secured hs haims hn hpair).2 keep hk

end Machine

open Machine in
/-- A variable that is no target keeps its place among such variables, its kind and its value, and no
such variable is added. -/
theorem only_targets_change :
    (∀ (s : Evaluator.State) (fuel : Nat) (node : Node),
      (Evaluator.run fuel node s).2.context.symbols.entries.filter
          (fun entry => entry.1 ∉ s.context.targets node) =
        s.context.symbols.entries.filter fun entry => entry.1 ∉ s.context.targets node) ∧
    ∀ (s : Session) (fuel : Nat) (generator : Random.Generator) (node : Node), s.Reachable →
      (s.run fuel generator node).session.variables.filter
          (fun entry => entry.1 ∉ s.context.targets node) =
        s.variables.filter fun entry => entry.1 ∉ s.context.targets node := by
  refine ⟨fun s fuel node => Evaluator.kept_run fuel node s, fun s fuel generator node hs => ?_⟩
  have haims := s.context.aims_targets node
  have hn : ∀ x ∈ node.targets, x ∈ {x | x ∈ s.context.targets node} := fun x hx =>
    List.mem_append_left _ hx
  have hmemory := kept_memory hs.orderly hs.closed fuel generator haims hn
  have hsymbols := kept_symbols_run s hs.orderly fuel generator haims hn
    (fun x => x ∉ s.context.targets node) fun x hx => by simpa using hx
  generalize (s.run fuel generator node).session = s' at hmemory hsymbols ⊢
  refine kept_variables (fun x => x ∉ s.context.targets node) hs.orderly.distinct hsymbols
    fun x symbol hx hkeep => ?_
  have hname : symbol.storage.name = x := hs.orderly.slotted.proper.name x symbol hx
  refine hmemory.decode? hs.closed ?_ symbol.storage.kind
  rintro (h | ⟨slot, hslot, h⟩)
  · exact symbol.storage.symbol_ne (by decide) h
  · have heq : x = slot.name := hname.symm.trans (Slot.symbol_injective h).1
    have hnot : x ∉ s.context.targets node := by simpa using hkeep
    exact hnot (heq ▸ hslot)

open Machine in
/-- A loop steps `x` through a recorded function and then fails: `x` is a target, `y` is none and keeps
its array in both engines. -/
theorem failing_loop_keeps_array :
    (∃ s : Evaluator.State, (Evaluator.run 30 (.sequence [.call "f" [.number 1],
        .binary (.number 1) .div (.number 0)]) s).2.context.symbols.entries.filter
          (fun entry => entry.1 ∉ ["x"]) = [("y", ⟨.intArray [4, 5], .intArray⟩)]) ∧
    ∃ s : Session, s.Reachable ∧ (s.run 30 ⟨#[], 0⟩ (.sequence [.call "f" [.number 1],
        .binary (.number 1) .div (.number 0)])).session.variables.filter
          (fun entry => entry.1 ∉ ["x"]) = [("y", .intArray, some (.intArray [4, 5]))] := by
  let first : Node := .sequence [.assign "x" (.number 1),
    .assign "y" (.array [.number 4, .number 5]), .define "f" ["n"] (.increment "x")]
  constructor
  · have h := only_targets_change.1 (Evaluator.run 30 first { generator := ⟨#[], 0⟩ }).2 30
      (.sequence [.call "f" [.number 1], .binary (.number 1) .div (.number 0)])
    have ht : (Evaluator.run 30 first { generator := ⟨#[], 0⟩ }).2.context.targets
        (.sequence [.call "f" [.number 1], .binary (.number 1) .div (.number 0)]) = ["x"] := by
      cbv
    rw [ht] at h
    exact ⟨_, h.trans (by cbv)⟩
  · have hs := Session.Reachable.run .start 30 ⟨#[], 0⟩ first
    have h := only_targets_change.2 _ 30 ⟨#[], 0⟩
      (.sequence [.call "f" [.number 1], .binary (.number 1) .div (.number 0)]) hs
    have ht : (Session.run 30 ⟨#[], 0⟩ {} first).session.context.targets
        (.sequence [.call "f" [.number 1], .binary (.number 1) .div (.number 0)]) = ["x"] := by
      cbv
    rw [ht] at h
    exact ⟨_, hs, h.trans (by cbv)⟩

end DualEngine
