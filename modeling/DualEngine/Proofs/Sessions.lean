import DualEngine.Proofs.Loading

/-! # Sessions

Every submission makes slots under numbers of its own, whether it succeeds or not. So the symbols
of a session always have cells of their own, and what is not granted to a submission keeps its
symbol and its cell.
-/
namespace DualEngine

namespace Lowering
open IR

variable {g : Grant} {s s' : State} {start : Nat} {c : Context Slot}

/-- The symbols are proper, each name has one, and their slots have numbers below `next`. -/
structure Orderly (c : Context Slot) (next : Nat) : Prop where
  slotted : Slotted c next
  distinct : c.symbols.names.Nodup

/-- The slots made since `start` are told from all others by their numbers. -/
structure Allotted (start : Nat) (s : State) : Prop where
  orderly : Orderly s.context s.nextSlot
  created : ∀ slot ∈ s.created,
    start ≤ slot.number ∧ slot.number < s.nextSlot ∧ slot.kind ≠ .none
  start_le : start ≤ s.nextSlot

theorem Slotted.add {next : Nat} (h : Slotted c next) {slot : Slot} (hn : slot.number < next)
    (hk : slot.kind ≠ .none) :
    Slotted (c.add slot.name slot slot.kind) next := by
  have hcase {x : String} {sym : Symbol Slot} (hx : (c.add slot.name slot slot.kind).get? x = some sym) :
      (slot.name = x ∧ sym = ⟨slot, slot.kind⟩) ∨ c.get? x = some sym := by
    simp only [Context.get?, Context.add, Table.get?_insert] at hx
    split at hx
    · rename_i heq
      exact .inl ⟨heq, (Option.some.inj hx).symm⟩
    · exact .inr hx
  refine ⟨⟨?_, ?_, ?_⟩, ?_⟩
  · intro x sym hx
    rcases hcase hx with ⟨rfl, rfl⟩ | hx
    · rfl
    · exact h.proper.name x sym hx
  · intro x sym hx
    rcases hcase hx with ⟨-, rfl⟩ | hx
    · rfl
    · exact h.proper.kind x sym hx
  · intro x sym hx
    rcases hcase hx with ⟨-, rfl⟩ | hx
    · exact hk
    · exact h.proper.kind_ne x sym hx
  · intro x sym hx
    rcases hcase hx with ⟨-, rfl⟩ | hx
    · exact hn
    · exact h.number x sym hx

theorem Orderly.mono {next next' : Nat} (h : Orderly c next) (hle : next ≤ next') :
    Orderly c next' :=
  ⟨⟨h.slotted.proper, fun x sym hx => (h.slotted.number x sym hx).trans_le hle⟩, h.distinct⟩

theorem orderly_empty : Orderly .empty 0 := by
  have hnone (x : String) : (Context.empty : Context Slot).get? x = none := rfl
  refine ⟨⟨⟨?_, ?_, ?_⟩, ?_⟩, List.nodup_nil⟩
  all_goals
    intro x sym hx
    cases (hnone x).symm.trans hx

theorem Change.allotted (h : Allotted start s) (hc : Change g s s') : Allotted start s' := by
  cases hc with
  | slot name hk hn =>
    have hle : s.nextSlot ≤ s.nextSlot + 1 := Nat.le_succ _
    refine ⟨h.orderly.mono hle, fun slot hs => ?_, h.start_le.trans hle⟩
    rcases List.mem_append.mp hs with hs | hs
    · obtain ⟨h1, h2, h3⟩ := h.created slot hs
      exact ⟨h1, h2.trans_le hle, h3⟩
    · obtain rfl := List.mem_singleton.mp hs
      exact ⟨h.start_le, Nat.lt_succ_self _, hk⟩
  | bind hs hn =>
    obtain ⟨-, hlt, hk⟩ := h.created _ hs
    exact ⟨⟨h.orderly.slotted.add hlt hk, Table.nodup_insert h.orderly.distinct _ _⟩, h.created,
      h.start_le⟩
  | define name hn hd =>
    have hslotted := h.orderly.slotted
    exact ⟨⟨⟨hslotted.proper, hslotted.number⟩, h.orderly.distinct⟩, h.created, h.start_le⟩
  | _ => exact ⟨h.orderly, h.created, h.start_le⟩

theorem Changes.allotted (h : Allotted start s) (hc : Changes g s s') : Allotted start s' := by
  induction hc with
  | refl => exact h
  | tail _ hc ih => exact hc.allotted ih

/-! ## What is not granted -/

theorem Change.kept_symbols (hc : Change g s s') (keep : String → Bool)
    (hk : ∀ x ∈ g.names, keep x = false) :
    s'.context.symbols.entries.filter (fun entry => keep entry.1) =
      s.context.symbols.entries.filter fun entry => keep entry.1 := by
  cases hc with
  | bind hs hn => exact Table.filter_put keep (hk _ hn) _ _
  | _ => rfl

/-- The symbols of names that may not be bound stay, in their order. -/
theorem Changes.kept_symbols (hc : Changes g s s') (keep : String → Bool)
    (hk : ∀ x ∈ g.names, keep x = false) :
    s'.context.symbols.entries.filter (fun entry => keep entry.1) =
      s.context.symbols.entries.filter fun entry => keep entry.1 := by
  induction hc with
  | refl => rfl
  | tail _ hc ih => exact (hc.kept_symbols keep hk).trans ih

theorem Change.kept_functions (hc : Change g s s') (keep : String → Bool)
    (hk : ∀ f ∈ g.functions, keep f = false) :
    s'.context.functions.entries.filter (fun entry => keep entry.1) =
      s.context.functions.entries.filter fun entry => keep entry.1 := by
  cases hc with
  | define name hn hd => exact Table.filter_put keep (hk _ hn) _ _
  | _ => rfl

/-- The functions that may not be defined stay, in their order. -/
theorem Changes.kept_functions (hc : Changes g s s') (keep : String → Bool)
    (hk : ∀ f ∈ g.functions, keep f = false) :
    s'.context.functions.entries.filter (fun entry => keep entry.1) =
      s.context.functions.entries.filter fun entry => keep entry.1 := by
  induction hc with
  | refl => rfl
  | tail _ hc ih => exact (hc.kept_functions keep hk).trans ih

/-! ## Submissions -/

theorem makes_lowerEntry (g : Grant) (hg : g.CoversAll c) {node : Node} (hn : g.Covers node)
    (number nextSlot : Nat) (kind : Kind) :
    Changes g (State.begun { context := c, nextSlot } (entryName number) kind)
      (final (lowerEntry (entryName number) kind node { context := c, nextSlot })) := by
  rw [lowerEntry_run]
  refine Makes.bind (makes_lower (makes_emitEarlier g _) node hn {}) (fun r => ?_) _ ?_
  · exact makes_closeEntry number kind r
  · simpa using hg

theorem allotted_begun {nextSlot : Nat} (h : Orderly c nextSlot) (entry : String) (kind : Kind) :
    Allotted nextSlot (State.begun { context := c, nextSlot } entry kind) := by
  refine ⟨?_, ?_, ?_⟩
  · simpa using h
  · simp
  · simp

/-- The grant of everything that a tree and the recorded functions may bind. -/
def Grant.everything : Grant := ⟨Set.univ, Set.univ⟩

theorem Grant.everything_covers (node : Node) : Grant.everything.Covers node :=
  ⟨fun _ _ => trivial, fun _ _ => trivial⟩

/-- A submission leaves the number of slots at least as high, and gives proper symbols. -/
theorem lowerSubmission_orderly {n nextSlot : Nat} {t : Node} (h : Orderly c nextSlot) :
    nextSlot ≤ (lowerSubmission c n nextSlot t).2 ∧
      ∀ a, (lowerSubmission c n nextSlot t).1 = .ok a →
        Orderly a.context (lowerSubmission c n nextSlot t).2 := by
  have hc := makes_lowerEntry Grant.everything (c := c) (fun _ d _ => Grant.everything_covers d.body)
    (Grant.everything_covers t) n nextSlot (Prediction.predictResult c t)
  have ha := hc.allotted (allotted_begun h _ _)
  cases hrun : lowerEntry (entryName n) (Prediction.predictResult c t) t
      { context := c, nextSlot } with
  | ok u s =>
    rw [hrun] at ha
    rw [lowerSubmission_ok hrun]
    refine ⟨ha.start_le, fun a h => ?_⟩
    cases h
    exact ha.orderly
  | error cause s =>
    rw [hrun] at ha
    rw [lowerSubmission_error hrun]
    exact ⟨ha.start_le, fun a h => nomatch h⟩

end Lowering

namespace Machine
open IR Lowering

/-! ## Reachable sessions -/

/-- A session that submissions lead to, lowered only or run as well. -/
inductive Session.Reachable : Session → Prop
  | start : Session.Reachable {}
  | lower {s : Session} (h : s.Reachable) (node : Node) : Session.Reachable (s.lower node).2
  | run {s : Session} (h : s.Reachable) (fuel : Nat) (generator : Random.Generator) (node : Node) :
      Session.Reachable (s.run fuel generator node).session

theorem lower_eq (s : Session) (node : Node) :
    s.lower node = ((lowerSubmission s.context s.entries s.slots node).1,
      { s with
        entries := s.entries + 1
        slots := (lowerSubmission s.context s.entries s.slots node).2 }) := by
  unfold Session.lower
  generalize lowerSubmission s.context s.entries s.slots node = p
  rfl

/-- A session that is run goes on from the lowered one, with the context of the artifact if it
succeeds. -/
theorem context_run (s : Session) (fuel : Nat) (generator : Random.Generator) (node : Node) :
    (s.run fuel generator node).session.slots =
        (lowerSubmission s.context s.entries s.slots node).2 ∧
      ((s.run fuel generator node).session.context = s.context ∨
        ∃ a, (lowerSubmission s.context s.entries s.slots node).1 = .ok a ∧
          (s.run fuel generator node).session.context = a.context) := by
  unfold Session.run
  rw [lower_eq]
  generalize lowerSubmission s.context s.entries s.slots node = p
  obtain ⟨result, slots⟩ := p
  cases result with
  | error cause => exact ⟨rfl, .inl rfl⟩
  | ok a =>
    dsimp only
    cases runArtifact fuel a { memory := s.memory, generator } with
    | ok v st => exact ⟨rfl, .inr ⟨a, rfl, rfl⟩⟩
    | error halt st => exact ⟨rfl, .inl rfl⟩

/-- What a submission that succeeded consists of. -/
theorem run_ok {s : Session} {fuel : Nat} {generator : Random.Generator} {node : Node} {v : Value}
    (h : (s.run fuel generator node).value = .ok v) :
    ∃ a next st, lowerSubmission s.context s.entries s.slots node = (.ok a, next) ∧
      runArtifact fuel a { memory := s.memory, generator } = .ok v st ∧
      s.run fuel generator node = ⟨some a.module, .ok v, st.out, st.generator,
        { context := a.context, entries := s.entries + 1, slots := next, memory := st.memory }⟩ := by
  unfold Session.run at h ⊢
  rw [lower_eq] at h ⊢
  generalize lowerSubmission s.context s.entries s.slots node = p at h ⊢
  obtain ⟨result, next⟩ := p
  cases result with
  | error cause => cases h
  | ok a =>
    dsimp only at h ⊢
    cases hrun : runArtifact fuel a { memory := s.memory, generator } with
    | error halt st =>
      rw [hrun] at h
      cases h
    | ok w st =>
      rw [hrun] at h
      cases h
      exact ⟨a, next, st, rfl, hrun, rfl⟩

theorem Session.Reachable.orderly {s : Session} (h : s.Reachable) : Orderly s.context s.slots := by
  induction h with
  | start => exact orderly_empty
  | @lower s h node ih =>
    obtain ⟨hle, -⟩ := lowerSubmission_orderly (n := s.entries) (t := node) ih
    rw [lower_eq]
    dsimp only
    exact ih.mono hle
  | @run s h fuel generator node ih =>
    obtain ⟨hle, horderly⟩ := lowerSubmission_orderly (n := s.entries) (t := node) ih
    obtain ⟨hslots, hcontext⟩ := context_run s fuel generator node
    rw [hslots]
    rcases hcontext with heq | ⟨a, ha, heq⟩
    · rw [heq]
      exact ih.mono hle
    · rw [heq]
      exact horderly a ha

/-- The variables of a session: names, kinds and values, in order of first binding. -/
def Session.variables (s : Session) : List (String × Kind × Option Value) :=
  s.context.symbols.entries.map fun entry => (entry.1, entry.2.kind, s.read? entry.2.storage)

/-! ## Memory that reads alike -/

/-- The buffers of `m` are in `m'`, and all other buffers there are freed. -/
def Memory.ReadsAs (m m' : Memory) : Prop :=
  ∀ k : Nat, m'.heap[k]? = m.heap[k]? ∨
    m.heap[k]? = none ∧ ∃ size, m'.heap[k]? = some ⟨size, .freed⟩

variable {m m' : Memory}

theorem Memory.ReadsAs.text? (h : m.ReadsAs m') (a : Address) : m'.text? a = m.text? a := by
  unfold Memory.text?
  split
  · rename_i k
    rcases h k with hk | ⟨hk, size, hk'⟩
    · rw [hk]
    · rw [hk, hk']
  · rfl

theorem Memory.ReadsAs.int? (h : m.ReadsAs m') (k i : Nat) : m'.int? k i = m.int? k i := by
  unfold Memory.int?
  rcases h k with hk | ⟨hk, size, hk'⟩
  · rw [hk]
  · rw [hk, hk']

theorem Memory.ReadsAs.array? (h : m.ReadsAs m') (a : Address) : m'.array? a = m.array? a := by
  cases a with
  | heap k i => exact array?_congr (h.int? k) i
  | _ => rfl

/-- Every word stands for the same. -/
theorem Memory.ReadsAs.decode? (h : m.ReadsAs m') (kind : Kind) (w : Word) :
    decode? m' kind w = decode? m kind w := by
  unfold Machine.decode?
  split <;> simp only [h.text?, h.array?]

/-! ## Memory around a run -/

theorem get?_foldl_addSlot (slots : List Slot) (m : Memory) {symbol : String}
    (h : ∀ slot ∈ slots, slot.symbol ≠ symbol) :
    (slots.foldl Memory.addSlot m).cells.get? symbol = m.cells.get? symbol := by
  induction slots generalizing m with
  | nil => rfl
  | cons slot rest ih =>
    rw [List.foldl_cons, ih _ fun other hs => h other (List.mem_cons_of_mem _ hs)]
    exact (Table.get?_insert _ _ _ _).trans (if_neg (h slot List.mem_cons_self))

theorem heap_foldl_addSlot (slots : List Slot) (m : Memory) :
    (slots.foldl Memory.addSlot m).heap = m.heap := by
  induction slots generalizing m with
  | nil => rfl
  | cons slot rest ih => exact ih (m.addSlot slot)

theorem heap_prepared (a : Artifact) (m : Memory) : (prepared a m).heap = m.heap :=
  heap_foldl_addSlot a.created m

theorem cells_loaded (a : Artifact) (m : Memory) : (loaded a m).1.cells = (prepared a m).cells :=
  (loadConstants_spec _ _ _).cells

/-- The cells of other slots are as before. -/
theorem get?_prepared (a : Artifact) (m : Memory) {slot : Slot}
    (h : ∀ other ∈ a.created, other.symbol ≠ slot.symbol) :
    (prepared a m).cells.get? slot.symbol = m.cells.get? slot.symbol := by
  have hpresent : resultPresent ≠ slot.symbol := Ne.symm (slot.symbol_ne (by decide))
  refine (Table.get?_insert _ _ _ _).trans ?_
  rw [if_neg hpresent]
  exact get?_foldl_addSlot a.created m h

/-- If a run leaves the buffers as they were loaded, all words read as before it. -/
theorem readsAs_freed {a : Artifact} (hn : (a.module.globals.map Global.name).Nodup)
    (hheap : m'.heap = (loaded a m).1.heap) :
    m.ReadsAs (freeConstants m' (loaded a m).2) := by
  have L : Loads (prepared a m) {} a.module.globals (loaded a m).1 (loaded a m).2 :=
    loadConstants_spec a.module.globals (prepared a m) {}
  have hsize : (prepared a m).heap.size = m.heap.size := by rw [heap_prepared]
  intro k
  by_cases hk : k < m.heap.size
  · refine .inl ?_
    rw [freeConstants_kept m' (L.nodup List.nodup_nil), hheap, ← heap_prepared a m]
    · exact (L.heap k _ (Array.getElem?_eq_getElem (hsize ▸ hk))).trans
        (Array.getElem?_eq_getElem (hsize ▸ hk)).symm
    · intro name i hc
      rcases L.origin name _ hc with hold | ⟨-, k', hk', hle, -⟩
      · cases hold
      · cases hk'
        omega
  · have hnone : m.heap[k]? = none := Array.getElem?_eq_none (by omega)
    by_cases hk' : k < (loaded a m).1.heap.size
    · obtain ⟨name, hc⟩ := L.added k (by omega) hk' hn
      refine .inr ⟨hnone, (loaded a m).1.heap[k].size, ?_⟩
      rw [freeConstants_freed m' hc, hheap, Array.getElem?_eq_getElem hk']
      rfl
    · refine .inl ?_
      rw [heap_freeConstants, hheap, Array.getElem?_eq_none (by omega), hnone]
      simp

end Machine
end DualEngine
