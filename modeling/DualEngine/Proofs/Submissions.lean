import DualEngine.Proofs.EntryRuns

/-! # Runs of submissions

A submission starts where memory mirrors the variables of the evaluation. If the code of its tree
follows the evaluation, then the run of the whole submission ends, and the committed session mirrors
the variables again.
-/
namespace DualEngine

namespace Machine
open IR Lowering

/-- The symbols of the session are in order, and the shared buffers are in place. -/
structure Session.Sound (s : Session) : Prop where
  orderly : Orderly s.context s.slots
  founded : s.memory.Founded

/-- The names `D` have slots of the kinds of their values, and these hold the values. -/
def Memory.Keeps (m : Memory) (D : Bindings) (c : Context Value) : Prop :=
  ∀ x sym v, D x sym → c.value? x = some v →
    v.kind = sym.kind ∧ ∃ w, m.cells.get? sym.storage.symbol = some w ∧ Holds m v w

end Machine

namespace Lowering
open IR Machine

variable {c : Context Slot} {number nextSlot : Nat} {node : Node} {a : Artifact} {r : Lowered}
  {s t : State} {code : List Instruction} {exit : Terminator} {m : Memory} {D : Bindings}
  {st st' : Evaluator.State} {g : Random.Generator}

/-- The entry function, called. -/
def startSnap (a : Artifact) (m : Memory) (g : Random.Generator) : Snap :=
  ⟨{}, started a { memory := m, generator := g }⟩

/-- At the start memory mirrors the variables that it kept. -/
theorem accords_start (hE : Entry c number nextSlot node a r s t code exit) (hm : m.Founded)
    (hkeeps : m.Keeps D st.context)
    (hold : ∀ x sym v, D x sym → st.context.value? x = some v → sym.storage.number < nextSlot)
    (hcovers : ∀ x v, st.context.value? x = some v → ∃ sym, D x sym) (g : Random.Generator) :
    Accords (imageOf a m) a.module.globals D st.context.functions {} st.out {} st
      (startSnap a m g) where
  serves := hE.serves m
  grounded := hm.grounded a
  mirrors := by
    intro x sym v hx hv
    obtain ⟨hkind, w, hw, hholds⟩ := hkeeps x sym v hx hv
    rw [coerce_of_kind_eq hkind]
    refine ⟨w, ?_, hholds.rests a⟩
    show (loaded a m).1.cells.get? _ = _
    rw [cells_loaded, get?_prepared a m fun slot hslot heq => ?_]
    · exact hw
    · have hnumber := hE.slots slot hslot
      rw [(Slot.symbol_injective heq).2] at hnumber
      exact absurd (hold x sym v hx hv) (by omega)
  kinds x sym v hx hv := (hkeeps x sym v hx hv).1
  covers := hcovers
  functions := rfl
  out := by
    show st.out = st.out ++ ""
    simp
  bound x y h := by cases h
  free x _ := rfl

/-- The finished entry function is part of its module. -/
theorem Entry.world (hE : Entry c number nextSlot node a r s t code exit) (hD : D.Proper)
    (hsingle : ∀ x sym sym', D x sym → D x sym' → sym = sym') :
    World (entryFunction c number node (t.ended exit)) (t.ended exit) a.module.globals D
      t.functions where
  blocks := rfl
  texts := hE.texts
  functions _ _ h := h
  proper := hD
  single := hsingle

/-- What is left to do after the tree of a submission. -/
theorem Entry.settles (hE : Entry c number nextSlot node a r s t code exit)
    (hp : Poised {} (entryStart c number nextSlot node)) : Settles [] s (t.ended exit) := by
  obtain ⟨new, hm⟩ := hE.moves
  have ha := (hm.poised hp).active
  have ha' := ha.appends hE.appends
  have hend : Settles [] (t.passed exit t.draft.current) (t.ended exit) := .refl _ _
  exact Settles.of_appends ha hE.appends (Settles.of_passed ha' hend)

/-- Before the first instruction no stack cell needs to be made. -/
theorem places_start {whole : State} (hs : Starts s) (he : s.entry = some s.draft.current)
    (hset : Settles [] s whole) (b : Snap) : Places whole s b := by
  intro k block i hk _ _ _ hnow
  rw [hset.entry, he, Option.some.injEq] at hk
  obtain ⟨now, hb, hi⟩ := hnow hk.symm
  subst hk
  cases hs.symm.trans hb
  cases hi

/-- From the start of a function its call gives what it gives from the point of the first block. -/
theorem execute_of_ends {image : Image} {f : Function} {whole : State} {b : Snap}
    {result : EStateM.Result Halt Machine.State (Option Word)} (hf : f.blocks = whole.draft.blocks)
    (hs : Starts s) (hset : Settles [] s whole)
    (h : Ends image f (here whole s "" b) result) :
    ∃ n, ∀ fuel, n ≤ fuel → execute image fuel f s.draft.current "" b.frame b.state = result := by
  obtain ⟨block, hb, heq⟩ := here_starts hs hset "" b
  rw [heq] at h
  obtain ⟨n, hn⟩ := h
  refine ⟨n + 1, fun fuel hfuel => ?_⟩
  obtain ⟨k, rfl⟩ : ∃ k, fuel = k + 1 := ⟨fuel - 1, by omega⟩
  rw [execute_startOf (by rw [hf]; exact hb), hn k (by omega)]

/-- A submission whose tree has been run ends and leaves memory to the session. -/
theorem Entry.finishes (hE : Entry c number nextSlot node a r s t code exit)
    (ho : Orderly c nextSlot) {F : Table Definition} {before previous : String} {b : Snap}
    {u : Value} {ran : Bool}
    (hfollows : Follows (imageOf a m) (entryFunction c number node (t.ended exit)) (t.ended exit)
      (entryStart c number nextSlot node) "" (startSnap a m g) s previous b)
    (hag : Accords (imageOf a m) a.module.globals D F {} before {} st' b)
    (hret : Returned (imageOf a m) b r u ran) :
    ∃ n m' g' out, m'.Founded ∧ m'.Keeps D st'.context ∧ st'.out = before ++ out ∧
      ∀ fuel, n ≤ fuel → runArtifact fuel a { memory := m, generator := g } =
        .ok (if ran then u else .none) { memory := m', generator := g', out } := by
  have hp : Poised {} (entryStart c number nextSlot node) := poised_begun ho number _
  have hstarts : Starts (entryStart c number nextSlot node) := starts_begun c nextSlot number _
  obtain ⟨new, hmoves⟩ := hE.moves
  have hactive := (hmoves.poised hp).active
  have hactive' := hactive.appends hE.appends
  have hend : Settles [] (t.passed exit t.draft.current) (t.ended exit) := .refl _ _
  have hset := Settles.of_passed hactive' hend
  have hset0 := Settles.of_grows hp.active (hmoves.grown hp) (hE.settles hp)
  have hhoused := (hmoves.grown hp).evolves.housed (housed_begun c nextSlot number _)
  have hgrows : Grows [] s t := grows_appends hactive hE.appends
  -- the end of the entry function
  have hserves : Serves (imageOf a m) b.memory t.globals :=
    ⟨fun name contents hg => hag.serves.texts name contents (hE.texts name contents hg),
      hag.serves.constants, hag.serves.library⟩
  obtain ⟨b', word, hruns, hcloses, hexits⟩ := hE.runs _ b u ran hserves hret
  have hplaces := hfollows.places.appends hE.appends hset hhoused hruns
  obtain ⟨b'', hleads, hquiet, -⟩ := leads_exit (imageOf a m)
    (entryFunction c number node (t.ended exit)) (leaves_ended hactive' exit) (.refl _ _)
    List.not_mem_nil (hgrows.evolves.housed hhoused)
    hplaces previous
  have hpath := hfollows.leads.trans (leads_appends hE.appends hactive hset hruns previous)
  have hends := (hpath.trans hleads).ends ((hexits b'' hquiet).ends previous t.draft.current)
  obtain ⟨n, hn⟩ := execute_of_ends rfl hstarts hset0 hends
  -- what the machine makes of it
  refine ⟨n, freeConstants b''.memory (loaded a m).2, b''.state.generator, b''.state.out,
    ?_, ?_, ?_, ?_⟩
  · exact Grounded.founded (hag.grounded.extend (hcloses.heap.trans hquiet.heap))
  · intro x sym v hx hv
    obtain ⟨hkind, w, hw, hrests⟩ := hag.read hx hv
    refine ⟨hkind, w, ?_, (hrests.extend (hcloses.heap.trans hquiet.heap)).freed⟩
    have hne : resultPresent ≠ sym.storage.symbol := Ne.symm (sym.storage.symbol_ne (by decide))
    rw [freeConstants_cells, hquiet.cells, hcloses.cells, Table.get?_insert, if_neg hne]
    exact hw
  · rw [hag.out, ← hcloses.out, ← hquiet.out]
  · intro fuel hfuel
    have hexecute := hn fuel hfuel
    have hresult := hcloses.result hquiet
    rw [← hE.kind] at hresult
    have hlabel : firstLabel (entryFunction c number node (t.ended exit)) =
        (entryStart c number nextSlot node).draft.current := by
      have hentry : (t.ended exit).entry = (entryStart c number nextSlot node).entry := hset0.entry
      show (t.ended exit).entry.getD "" = _
      rw [hentry]
      rfl
    rw [runArtifact_run fuel (hE.function m), hlabel]
    exact (bind_ok hexecute).trans (bind_ok hresult)

end Lowering
end DualEngine
