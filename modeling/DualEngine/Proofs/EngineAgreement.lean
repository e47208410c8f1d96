import DualEngine.Proofs.Invariants
import DualEngine.Proofs.Submissions

/-! # The two engines agree

A submission of expressions, assignments, branches and loops is run on both engines, from sessions
in which the machine mirrors the variables of the evaluator. If no assignment changes the kind of a
name, then whatever the evaluator computes, the machine computes too.
-/
namespace DualEngine

namespace Machine
open IR Lowering

/-- Every variable of the evaluator is one of the machine's, of the same kind, and its slot holds
the value. -/
def Session.Mirrors (s : Session) (c : Context Value) : Prop :=
  ∀ x var, c.get? x = some var → ∃ sym, s.context.get? x = some sym ∧ sym.kind = var.kind ∧
    var.storage.kind = var.kind ∧
    ∃ w, s.memory.cells.get? sym.storage.symbol = some w ∧ Holds s.memory var.storage w

theorem Session.Mirrors.keeps {s : Session} {c : Context Value} (h : s.Mirrors c) :
    s.memory.Keeps s.context.bindings c := by
  intro x sym v hx hv
  obtain ⟨var, hvar, rfl⟩ := Option.map_eq_some_iff.mp hv
  obtain ⟨sym', hsym, hkind, hv, hw⟩ := h x var hvar
  obtain rfl := Option.some.inj (hx.symm.trans hsym)
  exact ⟨hv.trans hkind.symm, hw⟩

end Machine

namespace Lowering
open IR Machine

end Lowering

namespace Node

variable {node : Node}

/-- An expression or an assignment. -/
def isSimple (node : Node) : Bool :=
  match node with
  | .assign .. => true
  | node => node.isExpression

/-- The tree is, or ends in, an expression or an assignment. -/
def endsSimply (node : Node) : Bool :=
  match node with
  | .sequence statements => (statements.getLast?.map isSimple).getD false
  | node => node.isSimple

/-- The last statement is an expression, an assignment, or a loop whose body is or ends in one. -/
def endsInValue (node : Node) : Bool :=
  match node with
  | .sequence statements =>
    match statements.getLast? with
    | some (.loop _ _ _ body) => body.endsSimply
    | some last => last.isSimple
    | none => false
  | _ => false

theorem plain_of_isSimple (h : node.isSimple = true) : node.plain = true ∧ node.exact = true := by
  cases node with
  | assign x e => exact ⟨rfl, rfl⟩
  | _ => exact plain_of_isExpression h

/-- A property of the last of some trees. -/
theorem eq_getLast? {f : List Node → Bool} {g : Node → Bool} (hnil : f [] = true)
    (hone : ∀ node, f [node] = g node)
    (hmore : ∀ first second rest, f (first :: second :: rest) = f (second :: rest))
    (nodes : List Node) : f nodes = (nodes.getLast?.map g).getD true := by
  induction nodes with
  | nil => exact hnil
  | cons first rest ih =>
    cases rest with
    | nil => exact hone first
    | cons second rest => rw [hmore, ih, List.getLast?_cons_cons]

theorem plainLast_eq (statements : List Node) :
    plainLast statements = (statements.getLast?.map plain).getD true :=
  eq_getLast? rfl (fun _ => rfl) (fun _ _ _ => rfl) statements

theorem exactLast_eq (statements : List Node) :
    exactLast statements = (statements.getLast?.map exact).getD true :=
  eq_getLast? rfl (fun _ => rfl) (fun _ _ _ => rfl) statements

theorem tellingLast_eq (statements : List Node) :
    tellingLast statements = (statements.getLast?.map telling).getD true :=
  eq_getLast? rfl (fun _ => rfl) (fun _ _ _ => rfl) statements

theorem plain_of_endsSimply (h : node.endsSimply = true) :
    node.plain = true ∧ node.exact = true := by
  cases node with
  | sequence statements =>
    simp only [endsSimply] at h
    cases hlast : statements.getLast? with
    | none => simp [hlast] at h
    | some last =>
      rw [hlast] at h
      simp only [plain, exact, plainLast_eq, exactLast_eq, hlast]
      exact plain_of_isSimple h
  | _ => exact plain_of_isSimple h

/-- Then the value in code is that of the tree. -/
theorem telling_of_endsInValue (h : node.endsInValue = true) :
    node.telling = true ∧ node.exact = true := by
  cases node with
  | sequence statements =>
    simp only [endsInValue] at h
    simp only [telling, exact, tellingLast_eq, exactLast_eq]
    cases hlast : statements.getLast? with
    | none => simp [hlast] at h
    | some last =>
      rw [hlast] at h
      cases last with
      | loop start condition step body => exact plain_of_endsSimply h
      | _ =>
        have hplain := plain_of_isSimple h
        exact ⟨telling_of_plain hplain.1, hplain.2⟩
  | _ => cases h

end Node

namespace Machine
open IR Lowering

variable {s : Session} {st st' : Evaluator.State} {node : Node} {fuel : Nat} {v : Value}
  {a : Artifact} {source : String} {r : Lowered} {generator : Random.Generator}

/-- The run of a submission whose artifact is run. -/
theorem run_of_runArtifact {next : Nat} {state : State}
    (hl : lowerSubmission s.context s.entries s.slots node = (.ok a, next))
    (hr : runArtifact fuel a { memory := s.memory, generator } = .ok v state) :
    s.run fuel generator node = ⟨some a.module, .ok v, state.out, state.generator,
      { context := a.context, entries := s.entries + 1, slots := next, memory := state.memory }⟩ := by
  unfold Session.run
  rw [lower_eq, hl]
  dsimp only
  rw [hr]

/-- A submission whose code follows the evaluation ends and is committed. -/
theorem run_of_follows {next : Nat} {s₁ t : Lowering.State} {code : List Instruction}
    {exit : Terminator} {D : Bindings} {F : Table Definition} {before previous : String}
    {b : Snap} {u : Value} {ran : Bool} (hs : s.Sound)
    (hlower : lowerSubmission s.context s.entries s.slots node = (.ok a, next))
    (hE : Entry s.context s.entries s.slots node a r s₁ t code exit)
    (hfollows : Follows (imageOf a s.memory) (entryFunction s.context s.entries node (t.ended exit))
      (t.ended exit) (entryStart s.context s.entries s.slots node) ""
      (startSnap a s.memory generator) s₁ previous b)
    (hag : Accords (imageOf a s.memory) a.module.globals D F {} before {} st' b)
    (hret : Returned (imageOf a s.memory) b r u ran) :
    ∃ n o, (∀ fuel', n ≤ fuel' → s.run fuel' generator node = o) ∧
      o.value = .ok (if ran then u else .none) ∧ st'.out = before ++ o.out ∧
      o.session.context = s₁.context ∧ o.session.Sound ∧ o.session.memory.Keeps D st'.context := by
  obtain ⟨n, m', g', out, hfounded, hkept, hout, hrun⟩ := hE.finishes hs.orderly hfollows hag hret
  refine ⟨n, _, fun fuel' hf => run_of_runArtifact hlower (hrun fuel' hf), rfl, hout, hE.context,
    ⟨?_, hfounded⟩, hkept⟩
  have horderly := (lowerSubmission_orderly (n := s.entries) (t := node) hs.orderly).2 a
    (by rw [hlower])
  rwa [hlower] at horderly

/-- The run of a regular submission in which no name gets another slot. -/
theorem regular_agreement {s₁ : Lowering.State} (hs : s.Sound)
    (hr : Regular (emitEarlier s.context.functions.entries.length) s.context.functions node)
    (hl : Lowering.lower (emitEarlier s.context.functions.entries.length) {} node
      (entryStart s.context s.entries s.slots node) = .ok r s₁)
    (hnovel : ∀ new, Declares (entryStart s.context s.entries s.slots node) s₁ new →
      Novel (entryStart s.context s.entries s.slots node) new)
    (hkeeps : s.memory.Keeps s.context.bindings st.context)
    (hcovers : ∀ x v, st.context.value? x = some v → ∃ sym, s.context.get? x = some sym)
    (heval : Evaluator.eval fuel {} node st = .ok v st')
    (hport : Evaluator.Portably fuel {} node st)
    (hcalls : ∀ a t code exit, Entry s.context s.entries s.slots node a r s₁ t code exit →
      ∀ name args, Node.call name args ∈ node.subtrees →
        CallsAnswer (imageOf a s.memory) a.module.globals s₁.context.bindings st.context.functions
          s.context.functions t.functions fuel) (generator : Random.Generator) :
    ∃ n u ran o, (∀ fuel', n ≤ fuel' → s.run fuel' generator node = o) ∧
      o.value = .ok (if ran then u else .none) ∧ st'.out = st.out ++ o.out ∧
      o.session.context = s₁.context ∧ o.session.Sound ∧
      o.session.memory.Keeps s₁.context.bindings st'.context ∧
      (∀ x v, st'.context.value? x = some v → ∃ sym, s₁.context.get? x = some sym) ∧
      Tells node r u v ran ∧ st'.context.functions = st.context.functions := by
  obtain ⟨a, next, t, code, exit, hlower, hE⟩ := lowerSubmission_entry hs.orderly hr hl
  have hp : Poised {} (entryStart s.context s.entries s.slots node) :=
    poised_begun hs.orderly s.entries _
  have hcontext : (entryStart s.context s.entries s.slots node).context = s.context := by
    simp [entryStart]
  have hslot : (entryStart s.context s.entries s.slots node).nextSlot = s.slots := by
    simp [entryStart]
  obtain ⟨new, hmoves⟩ := hE.moves
  have hn := hnovel new hmoves.declares
  have hset := hE.settles hp
  have hpath : Path [] {} (entryStart s.context s.entries s.slots node) s₁ (t.ended exit)
      s₁.context.bindings :=
    ⟨hp, housed_begun s.context s.slots s.entries _, ⟨new, hmoves, hn⟩, fun _ _ h => h, hset,
      by simp⟩
  -- the names that have values have kept their symbols
  have hbound {x : String} {v : Value} (hv : st.context.value? x = some v) {sym : Symbol Slot}
      (hx : s₁.context.get? x = some sym) : s.context.get? x = some sym := by
    obtain ⟨sym', hsym⟩ := hcovers x v hv
    have hkept := hn.keeps hmoves.declares (by rw [hcontext]; exact hsym)
    rw [hsym, ← hkept, hx]
  have hkeeps' : s.memory.Keeps s₁.context.bindings st.context :=
    fun x sym v hx hv => hkeeps x sym v (hbound hv hx) hv
  have hstart := accords_start hE hs.founded hkeeps'
    (fun x sym v hx hv => hs.orderly.slotted.number x sym (hbound hv hx))
    (fun x v hv => by
      obtain ⟨sym, hsym⟩ := hcovers x v hv
      exact ⟨sym, hn.keeps hmoves.declares (by rw [hcontext]; exact hsym)⟩) generator
  have hproper := ((hmoves.poised hp).slotted).proper
  have hworld := hE.world hproper fun x sym sym' h h' => Option.some.inj (h.symm.trans h')
  have hplaces := places_start (starts_begun s.context s.slots s.entries _) rfl hpath.start
    (startSnap a s.memory generator)
  obtain ⟨previous, b, u, ran, hfollows, hag, hret, htells⟩ :=
    simulates hworld fuel node "" hl (by rwa [hcontext])
      (fun name args hm => hcontext ▸ hcalls a t code exit hE name args hm) hpath heval hport hstart
      hplaces
  obtain ⟨n, o, hrun, hvalue, hout, hcommitted, hsound, hkept⟩ :=
    run_of_follows hs hlower hE hfollows hag hret
  exact ⟨n, u, ran, o, hrun, hvalue, hout, hcommitted, hsound, hkept, hag.covers, htells,
    hag.functions⟩

end Machine
end DualEngine
