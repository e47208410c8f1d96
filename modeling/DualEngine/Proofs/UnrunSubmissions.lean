import DualEngine.Proofs.RenamedRuns

/-! # Submissions that are not run

A submission that is only lowered, or that cannot be lowered, uses up numbers of slots and of entry
functions and changes nothing else. A session that goes on after it does what it would have done
without it, with other numbers in its modules.
-/
namespace DualEngine.Machine
open IR Lowering

variable {ρ : Renaming} {d e : Nat}

/-! ## Sessions under a renaming -/

/-- The session with other names, after `d` more slots and `e` more entry functions. -/
noncomputable def Session.rename (ρ : Renaming) (d e : Nat) (s : Session) : Session where
  context := s.context.rename ρ
  entries := s.entries + e
  slots := s.slots + d
  memory := s.memory.rename ρ.name

noncomputable def Outcome.rename (ρ : Renaming) (d e : Nat) (o : Outcome) : Outcome :=
  { o with
    module := o.module.map (Module.rename ρ.name)
    session := o.session.rename ρ d e }

/-- Variables have the same values, wherever they are. -/
theorem Session.variables_rename (s : Session) : (s.rename ρ d e).variables = s.variables := by
  have hread (slot : Slot) : (s.rename ρ d e).read? (ρ.slot slot) = s.read? slot := by
    have hcell := Table.get?_rename (Word.rename ρ.name) ρ.injective s.memory.cells slot.symbol
    rw [ρ.name_symbol] at hcell
    simp only [Session.read?, Session.rename, Memory.rename] at hcell ⊢
    rw [hcell]
    cases s.memory.cells.get? slot.symbol with
    | none => rfl
    | some w => exact decode?_rename ρ.name s.memory slot.kind w
  simp only [Session.variables]
  rw [show (s.rename ρ d e).context.symbols.entries =
    s.context.symbols.entries.map fun entry => (entry.1, entry.2.rename ρ) from rfl, List.map_map]
  refine List.map_congr_left fun entry _ => ?_
  exact congrArg (fun v => (entry.1, entry.2.kind, v)) (hread entry.2.storage)

variable {s : Session} {node : Node}

theorem slots_lower (s : Session) (node : Node) :
    (s.lower node).2.slots = (lowerSubmission s.context s.entries s.slots node).2 := by
  rw [lower_eq]

theorem lower_rename (hentry : ρ.entry s.entries = s.entries + e)
    (hnumber : ∀ n, s.slots ≤ n → n < (s.lower node).2.slots → ρ.number n = n + d) :
    (s.rename ρ d e).lower node =
      ((s.lower node).1.map (Artifact.rename ρ), (s.lower node).2.rename ρ d e) := by
  rw [slots_lower] at hnumber
  have h := lowerSubmission_rename s.context s.entries s.slots node hnumber
  rw [hentry] at h
  rw [lower_eq, lower_eq]
  generalize lowerSubmission s.context s.entries s.slots node = p at h
  simp only [Session.rename]
  rw [h]
  simp only [Nat.add_right_comm]

theorem slots_run (fuel : Nat) (generator : Random.Generator) :
    (s.run fuel generator node).session.slots = (s.lower node).2.slots := by
  rw [(context_run s fuel generator node).1, slots_lower]

theorem entries_run (fuel : Nat) (generator : Random.Generator) :
    (s.run fuel generator node).session.entries = s.entries + 1 := by
  unfold Session.run
  rw [lower_eq]
  generalize lowerSubmission s.context s.entries s.slots node = p
  obtain ⟨result, slots⟩ := p
  cases result with
  | error cause => rfl
  | ok a =>
    dsimp only
    cases runArtifact fuel a { memory := s.memory, generator } <;> rfl

theorem run_rename (node : Node) (fuel : Nat) (generator : Random.Generator)
    (hentry : ρ.entry s.entries = s.entries + e)
    (hnumber : ∀ n, s.slots ≤ n → n < (s.run fuel generator node).session.slots →
      ρ.number n = n + d) :
    (s.rename ρ d e).run fuel generator node = (s.run fuel generator node).rename ρ d e := by
  rw [slots_run] at hnumber
  unfold Session.run
  rw [lower_rename hentry hnumber]
  generalize s.lower node = p
  obtain ⟨result, t⟩ := p
  cases result with
  | error cause => rfl
  | ok a =>
    have hrun := echoes_runArtifact (ρ := ρ) fuel a { memory := t.memory, generator }
    dsimp only [Except.map]
    rw [show ({ memory := (t.rename ρ d e).memory, generator } : State) =
      State.rename ρ.name { memory := t.memory, generator } from rfl, hrun]
    cases runArtifact fuel a { memory := t.memory, generator } <;> rfl

/-! ## What a session depends on -/

/-- The renaming keeps all numbers that were given in the session. -/
structure Session.Keeps (s : Session) (ρ : Renaming) : Prop where
  number : ∀ n < s.slots, ρ.number n = n
  entry : ∀ n < s.entries, ρ.entry n = n

theorem slots_le_lower (s : Session) (node : Node) : s.slots ≤ (s.lower node).2.slots := by
  rw [slots_lower]
  exact le_lowerSubmission s.context s.entries s.slots node

theorem slots_le_run (s : Session) (node : Node) (fuel : Nat) (generator : Random.Generator) :
    s.slots ≤ (s.run fuel generator node).session.slots :=
  (slots_le_lower s node).trans_eq (slots_run fuel generator).symm

theorem Session.Keeps.mono {t : Session} (h : t.Keeps ρ) (hs : s.slots ≤ t.slots)
    (he : s.entries ≤ t.entries) : s.Keeps ρ :=
  ⟨fun n hn => h.number n (hn.trans_le hs), fun n hn => h.entry n (hn.trans_le he)⟩

/-- The session is as it was before the renaming. -/
def Session.Fixed (s : Session) (ρ : Renaming) : Prop :=
  s.context.rename ρ = s.context ∧ s.memory.rename ρ.name = s.memory

theorem Session.Fixed.rename_eq (h : s.Fixed ρ) (d e : Nat) :
    s.rename ρ d e = { s with entries := s.entries + e, slots := s.slots + d } := by
  rw [Session.rename, h.1, h.2]

/-- Nothing in a session has a number that was not given in it: a renaming that keeps the numbers
given so far keeps all of it. -/
theorem Session.Reachable.fixed (h : s.Reachable) (hρ : s.Keeps ρ) : s.Fixed ρ := by
  induction h with
  | start => exact ⟨rfl, rfl⟩
  | @lower s h node ih =>
    have hkeeps : s.Keeps ρ := by
      refine hρ.mono (slots_le_lower s node) ?_
      rw [lower_eq]
      exact Nat.le_succ _
    have hfixed := ih hkeeps
    rw [lower_eq]
    exact hfixed
  | @run s h fuel generator node ih =>
    have hentries : (s.run fuel generator node).session.entries = s.entries + 1 :=
      entries_run fuel generator
    have hkeeps : s.Keeps ρ :=
      hρ.mono (slots_le_run s node fuel generator) ((Nat.le_succ _).trans_eq hentries.symm)
    have hentry : ρ.entry s.entries = s.entries + 0 :=
      hρ.entry s.entries ((Nat.lt_succ_self _).trans_eq hentries.symm)
    -- the renamed run is the run itself, so what it ends in is its own renaming
    have hsame : s.rename ρ 0 0 = s := (ih hkeeps).rename_eq 0 0
    have hrun := run_rename (d := 0) node fuel generator hentry
      fun n _ hn => hρ.number n hn
    rw [hsame] at hrun
    generalize s.run fuel generator node = o at hrun
    have hsession : o.session = o.session.rename ρ 0 0 := congrArg Outcome.session hrun
    exact ⟨(congrArg Session.context hsession).symm, (congrArg Session.memory hsession).symm⟩

/-! ## Going on after a submission that is not run -/

/-- Runs submissions one after another. -/
def Session.runAll (fuel : Nat) : Random.Generator → Session → List Node → List Outcome
  | _, _, [] => []
  | generator, s, node :: rest =>
    let o := s.run fuel generator node
    o :: Session.runAll fuel o.generator o.session rest

theorem runAll_rename (fuel : Nat) (generator : Random.Generator) (nodes : List Node)
    (hnumber : ∀ n, s.slots ≤ n → ρ.number n = n + d)
    (hentry : ∀ n, s.entries ≤ n → ρ.entry n = n + e) :
    Session.runAll fuel generator (s.rename ρ d e) nodes =
      (Session.runAll fuel generator s nodes).map (Outcome.rename ρ d e) := by
  induction nodes generalizing s generator with
  | nil => rfl
  | cons node rest ih =>
    have hslots := slots_le_run s node fuel generator
    have hentries : (s.run fuel generator node).session.entries = s.entries + 1 :=
      entries_run fuel generator
    have hrun := run_rename node fuel generator (hentry s.entries le_rfl)
      fun n hn _ => hnumber n hn
    have hrest := ih (s := (s.run fuel generator node).session)
      (s.run fuel generator node).generator (fun n hn => hnumber n (hslots.trans hn))
      fun n hn => hentry n ((Nat.le_succ _).trans (hentries.symm.le.trans hn))
    rw [Session.runAll, Session.runAll, hrun]
    generalize s.run fuel generator node = o at hrest
    exact congrArg (List.cons (o.rename ρ d e)) hrest

/-- The same became of the submission, up to the names in its module. -/
structure Outcome.Matches (ρ : Renaming) (o o' : Outcome) : Prop where
  module : o'.module = o.module.map (Module.rename ρ.name)
  value : o'.value = o.value
  out : o'.out = o.out
  generator : o'.generator = o.generator
  bindings : o'.session.variables = o.session.variables
  functions : o'.session.context.functions = o.session.context.functions
  version : o'.session.context.version = o.session.context.version

theorem Outcome.matches_rename (o : Outcome) : o.Matches ρ (o.rename ρ d e) where
  module := rfl
  value := rfl
  out := rfl
  generator := rfl
  bindings := o.session.variables_rename
  functions := rfl
  version := rfl

theorem run_of_lower_error {cause : Fault} (h : (s.lower node).1 = .error cause) (fuel : Nat)
    (generator : Random.Generator) : s.run fuel generator node =
      ⟨none, .error (.lowering cause), "", generator, (s.lower node).2⟩ := by
  unfold Session.run
  generalize s.lower node = p at h
  obtain ⟨result, t⟩ := p
  cases h
  rfl

/-- A submission that is only lowered, or cannot be, leaves variables, functions and the version as
they are and prints nothing; every later submission gives what it would have given without it, its
module with higher numbers for the slots and entry functions made since. -/
theorem unrun_submission_invisible (h : s.Reachable) (fuel : Nat) (generator : Random.Generator)
    (extra : Node) (later : List Node) :
    (∀ cause, (s.lower extra).1 = .error cause → s.run fuel generator extra =
      ⟨none, .error (.lowering cause), "", generator, (s.lower extra).2⟩) ∧
    (s.lower extra).2.memory = s.memory ∧ (s.lower extra).2.context = s.context ∧
    (s.lower extra).2.variables = s.variables ∧
    ∃ d, (s.lower extra).2.slots = s.slots + d ∧
      List.Forall₂ (Outcome.Matches (Renaming.shift s.slots d s.entries 1))
        (Session.runAll fuel generator s later)
        (Session.runAll fuel generator (s.lower extra).2 later) := by
  obtain ⟨d, hd⟩ : ∃ d, (s.lower extra).2.slots = s.slots + d :=
    Nat.exists_eq_add_of_le (slots_le_lower s extra)
  let ρ := Renaming.shift s.slots d s.entries 1
  have hkeeps : s.Keeps ρ := ⟨fun n hn => if_pos hn, fun n hn => if_pos hn⟩
  have hlowered : (s.lower extra).2 = s.rename ρ d 1 := by
    rw [(h.fixed hkeeps).rename_eq, ← hd, lower_eq]
  refine ⟨fun cause hcause => ?_, ?_, ?_, ?_, d, hd, ?_⟩
  · exact run_of_lower_error hcause fuel generator
  · rw [lower_eq]
  · rw [lower_eq]
  · rw [hlowered, Session.variables_rename]
  · have hnumber (n : Nat) (hn : s.slots ≤ n) : ρ.number n = n + d := if_neg (Nat.not_lt.mpr hn)
    have hentry (n : Nat) (hn : s.entries ≤ n) : ρ.entry n = n + 1 := if_neg (Nat.not_lt.mpr hn)
    rw [hlowered, runAll_rename fuel generator later hnumber hentry, List.forall₂_map_right_iff]
    exact List.forall₂_same.mpr fun o _ => o.matches_rename

/-- A submission that makes a slot for `y` and then fails moves the slots of later ones by one. -/
theorem faulty_submission_invisible :
    ∃ s : Session, s.Reachable ∧ s.context.symbols.names = ["x"] ∧
      s.run 9 ⟨#[], 0⟩ (.sequence [.assign "y" (.number 2), .identifier "z"]) =
        ⟨none, .error (.lowering (.undefinedVariable "z")), "", ⟨#[], 0⟩,
          (s.lower (.sequence [.assign "y" (.number 2), .identifier "z"])).2⟩ ∧
      List.Forall₂ (Outcome.Matches (Renaming.shift s.slots 1 s.entries 1))
        (Session.runAll 9 ⟨#[], 0⟩ s [.assign "y" (.number 3), .identifier "y"])
        (Session.runAll 9 ⟨#[], 0⟩
          (s.lower (.sequence [.assign "y" (.number 2), .identifier "z"])).2
          [.assign "y" (.number 3), .identifier "y"]) := by
  have hs := Session.Reachable.run .start 9 ⟨#[], 0⟩ (.sequence [.assign "x" (.number 1)])
  have hfault : ((Session.run 9 ⟨#[], 0⟩ {} (.sequence [.assign "x" (.number 1)])).session.lower
      (.sequence [.assign "y" (.number 2), .identifier "z"])).1 =
        .error (.undefinedVariable "z") := by cbv
  have hslots : ((Session.run 9 ⟨#[], 0⟩ {} (.sequence [.assign "x" (.number 1)])).session.lower
      (.sequence [.assign "y" (.number 2), .identifier "z"])).2.slots =
        (Session.run 9 ⟨#[], 0⟩ {} (.sequence [.assign "x" (.number 1)])).session.slots + 1 := by
    cbv
  obtain ⟨hrun, -, -, -, d, hd, hlater⟩ := unrun_submission_invisible hs 9 ⟨#[], 0⟩
    (.sequence [.assign "y" (.number 2), .identifier "z"])
    [.assign "y" (.number 3), .identifier "y"]
  obtain rfl : d = 1 := Nat.add_left_cancel (hd.symm.trans hslots)
  exact ⟨_, hs, by cbv, hrun _ hfault, hlater⟩

end DualEngine.Machine
