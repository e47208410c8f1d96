import DualEngine.Proofs.EngineAgreement
import DualEngine.Proofs.StaticKinds

/-! # Straight-line code

Without branches a name may get a value of another kind at any time: it has a new slot from then on,
and the old one is not read any more. The two engines agree over whole sessions of such submissions,
and what the evaluator rejects for its kinds is not lowered.
-/
namespace DualEngine

namespace Lowering
open IR Machine

variable {image : Image} {f : Function} {whole : State} {gs : List Global} {D : Bindings}
  {F : Table Definition} {M : Table Signature} {fuel : Nat} {node : Node} {earlier : Earlier}
  {s s' : State} {r : Lowered} {st st' : Evaluator.State} {v : Value} {previous before : String}
  {a : Snap}

/-! ## Statement by statement -/

/-- The same function where other slots stand for the names. -/
theorem World.rebound (hw : World f whole gs D M) {scope : Scope} (hp : Poised scope s) :
    World f whole gs s.context.bindings M :=
  { hw with
    proper := hp.slotted.proper
    single := fun _ _ _ h h' => Option.some.inj (h.symm.trans h') }

section
variable (image : Image) (f : Function) (whole : State) (gs : List Global) (F : Table Definition)

/-- The code of the tree does what evaluation does; before and after it the slots are those of the
context. -/
def Proceeds (fuel : Nat) (node : Node) : Prop :=
  ∀ previous ⦃earlier s r s' st v st' a before⦄, lower earlier {} node s = .ok r s' →
    Regular earlier s.context.functions node → node.Avoids branchingForms → Poised {} s →
    Housed s → Settles [] s' whole → Evaluator.eval fuel {} node st = .ok v st' →
    Evaluator.Portably fuel {} node st →
    Accords image gs s.context.bindings F {} before {} st a → Places whole s a →
    ∃ previous' b, Follows image f whole s previous a s' previous' b ∧
      Accords image gs s'.context.bindings F {} before {} st' b ∧
      CarriesResult image b r.value v ∧ r.ran = none

end

theorem proceeds_expression (hw : World f whole gs D M) (he : node.isExpression = true) :
    Proceeds image f whole gs F fuel node := by
  intro previous earlier s r s' st v st' a before hl hr ha hp hh hset hev hport hag hpl
  obtain ⟨m, -, hran⟩ := (lowers earlier node).expression he hr hp hl
  have hbindings : s'.context.bindings = s.context.bindings := by
    funext x sym
    rcases m.declares.bound x with hb | ⟨slot, hslot, -⟩
    · simp only [Context.bindings, hb]
    · cases hslot
  have hpath : Path [] {} s s' whole s.context.bindings :=
    ⟨hp, hh, ⟨[], m, List.nodup_nil, by simp⟩, fun x sym h => hbindings ▸ h, hset, by simp⟩
  obtain ⟨q, b, hfollows, hag', hcarries⟩ := (simulates (hw.rebound hp) fuel node).expression he
    previous hl hr (fun name args hm => absurd (by simp [Node.shape, branchingForms]) (ha _ hm)) hpath
    hev hport hag hpl
  exact ⟨q, b, hfollows, hbindings ▸ hag', hcarries, hran⟩

/-- Outside branches finding a slot leaves the draft alone and binds the name to it. -/
theorem slotFor_plain {x : String} {k : Kind} {slot : Slot} (h : slotFor {} x k s = .ok slot s') :
    s'.draft = s.draft ∧
      ∀ y, s'.context.get? y = if x = y then some ⟨slot, k⟩ else s.context.get? y := by
  rcases slotFor_straight x k s with ⟨sym, hsym, hk, h1⟩ | h1
  · rw [h1] at h
    cases h
    refine ⟨rfl, fun y => ?_⟩
    split
    · rename_i hxy
      rw [← hxy, hsym, ← hk]
    · rfl
  · rw [h1] at h
    cases h
    exact ⟨rfl, fun y => get?_binding ..⟩

theorem proceeds_assign (hw : World f whole gs D M) (x : String) (e : Node) :
    Proceeds image f whole gs F (fuel + 1) (.assign x e) := by
  intro previous earlier s r s' st v st' a before hl hr ha hp hh hset hev hport hag hpl
  have hme : e ∈ (Node.assign x e).children := by simp [Node.children]
  obtain ⟨he, hre⟩ := hr.assigned
  obtain ⟨-, l, s1, t, h1, h2, rfl⟩ := lower_assign hl
  obtain ⟨st₁, e1, -, -, rfl⟩ := Evaluator.eval_assign_ok hev
  -- what lowering did
  obtain ⟨m1, f1, -⟩ := (lowers earlier e).expression he hre hp h1
  have p1 := m1.poised hp
  have u1 := (m1.grown hp).evolves.used
  have hh1 := (m1.grown hp).evolves.housed hh
  obtain ⟨slot, s2, hvalue, hk, h3, h4⟩ := assign_inv h2
  have ht := f1.value
  rw [hvalue] at ht
  obtain ⟨hslot, new, m2⟩ := slotFor_moves p1 hk h3
  have p2 := m2.poised p1
  have u2 := (m2.grown p1).evolves.used
  obtain ⟨s3, code, h5, A, run⟩ := storeSlot_spec (Fits.mono ht u2) hslot
  rw [h5] at h4
  cases h4
  have m3 := moves_appends {} p2.active A
  have hset2 := Settles.of_grows p2.active (m3.grown p2) hset
  have hset1 := Settles.of_grows p1.active (m2.grown p1) hset2
  obtain ⟨hdraft, hget⟩ := slotFor_plain h3
  -- what the code does
  obtain ⟨q, b1, F1, G1, C₁, -⟩ := proceeds_expression hw he previous h1 hre (ha.child hme) hp hh hset1
    e1 hport.assign hag hpl
  rw [hvalue] at C₁
  obtain ⟨b2, w, hruns, hkeeps, hcells, hrests, hout⟩ :=
    run image b1 v ((hw.rebound hp).serves hset G1.serves) C₁
  refine ⟨q, b2, ?_, ?_, Carries.kept C₁ (Fits.mono ht u2) hkeeps, rfl⟩
  · refine (F1.of_draft_eq hdraft).appends ?_ A p2.active ((m2.grown p1).evolves.housed hh1) hset hruns
      hkeeps
    exact fun _ h => u2 (u1 h)
  · have hx (sym : Symbol Slot) : s'.context.bindings x sym ↔ sym = ⟨slot, t.kind⟩ := by
      simp only [Context.bindings, A.context, hget, if_true, Option.some.injEq]
      exact eq_comm
    have hother (y : String) (sym : Symbol Slot) (hne : y ≠ x) :
        s'.context.bindings y sym ↔ s1.context.bindings y sym := by
      simp only [Context.bindings, A.context, hget, if_neg (Ne.symm hne)]
    exact G1.reassigned hkeeps p2.known (m3.poised p2).slotted.proper hx hother hcells hrests
      C₁.1.symm hout v.kind

theorem proceeds_statements (ih : ∀ node, Proceeds image f whole gs F fuel node) (previous : String)
    {nodes : List Node} {last : Lowered} {w : Value}
    (hl : lowerAll earlier {} nodes last s = .ok r s')
    (hr : ∀ node ∈ nodes, Regular earlier s.context.functions node)
    (ha : ∀ node ∈ nodes, node.Avoids branchingForms) (hp : Poised {} s) (hh : Housed s)
    (hlast : last.Fits s.used) (hran : last.ran = none) (hset : Settles [] s' whole)
    (hev : Evaluator.inOrder (Evaluator.eval fuel {}) nodes w st = .ok v st')
    (hport : Evaluator.PortablyAll fuel {} nodes st)
    (hag : Accords image gs s.context.bindings F {} before {} st a) (hpl : Places whole s a)
    (hcarries : CarriesResult image a last.value w) :
    ∃ previous' b, Follows image f whole s previous a s' previous' b ∧
      Accords image gs s'.context.bindings F {} before {} st' b ∧
      CarriesResult image b r.value v ∧ r.ran = none := by
  induction nodes generalizing s st a last w previous with
  | nil =>
    cases hl
    cases hev
    exact ⟨previous, a, .refl previous hpl, hag, hcarries, hran⟩
  | cons node rest ihr =>
    obtain ⟨l, s1, h1, h2⟩ := lowerAll_cons hl
    obtain ⟨u, st₁, e1, e2⟩ := bind_eq_ok.mp hev
    obtain ⟨port1, port2⟩ := hport.cons e1
    have hre := hr node List.mem_cons_self
    obtain ⟨new, m1, f1, -⟩ := lowers earlier node _ _ _ _ hre hp h1
    have p1 := m1.poised hp
    have hr' : ∀ n ∈ rest, Regular earlier s1.context.functions n :=
      fun n hn => m1.declares.functions ▸ hr n (List.mem_cons_of_mem _ hn)
    obtain ⟨new', m2, -⟩ := lowerAll_moves (fun n _ => lowers earlier n) hr' p1 f1 h2
    obtain ⟨q, b, F1, G1, C₁, hran1⟩ := ih node previous h1 hre (ha node List.mem_cons_self) hp hh
      (Settles.of_grows p1.active (m2.grown p1) hset) e1 port1 hag hpl
    obtain ⟨q', b', F2, G2, C₂, hran2⟩ := ihr q h2 hr' (fun n hn => ha n (List.mem_cons_of_mem _ hn))
      p1 ((m1.grown hp).evolves.housed hh) f1 hran1 e2 port2 G1 F1.places C₁
    exact ⟨q', b', F1.trans F2 (m1.grown hp).evolves.used (m2.grown p1).evolves.used, G2, C₂, hran2⟩

theorem proceeds (hw : World f whole gs D M) (fuel : Nat) (node : Node) :
    Proceeds image f whole gs F fuel node := by
  induction fuel generalizing node with
  | zero =>
    intro previous earlier s r s' st v st' a before hl hr ha hp hh hset hev
    cases hev
  | succ fuel ih =>
    intro previous earlier s r s' st v st' a before hl hr ha hp hh hset hev hport hag hpl
    cases hform : node.isStatementForm with
    | false =>
      exact proceeds_expression hw (Node.isExpression_of_isStatement hr.statement hform) previous hl hr
        ha hp hh hset hev hport hag hpl
    | true =>
      cases node with
      | sequence nodes =>
        exact proceeds_statements (w := .none) ih previous hl hr.statements
          (fun n hn => ha.child hn) hp hh (fits_none _) rfl hset hev hport.sequence hag hpl rfl
      | assign x e =>
        exact proceeds_assign hw x e previous hl hr ha hp hh hset hev hport hag hpl
      | branch | loop | define => exact absurd ha.self (by simp [Node.shape, branchingForms])
      | _ => cases hform

end Lowering

/-- The variables that the evaluator has: names, kinds and values, in order of first binding. -/
def Evaluator.State.variables (st : Evaluator.State) : List (String × Kind × Option Value) :=
  st.context.symbols.entries.map fun entry => (entry.1, entry.2.kind, some entry.2.storage)

namespace Machine
open IR Lowering

variable {s : Session} {st st' : Evaluator.State} {node : Node} {fuel : Nat} {v : Value}
  {source : String}

/-! ## Submission by submission -/

/-- The machine has the variables of the evaluator, and memory holds their values. -/
structure Aligned (s : Session) (st : Evaluator.State) : Prop where
  sound : s.Sound
  matched : st.context.Matches s.context
  keeps : s.memory.Keeps s.context.bindings st.context

theorem Aligned.covers (h : Aligned s st) (x : String) (v : Value)
    (hx : st.context.value? x = some v) : ∃ sym, s.context.get? x = some sym := by
  obtain ⟨var, hvar, -⟩ := Option.map_eq_some_iff.mp hx
  rcases h.matched.bound x with ⟨hnone, -⟩ | ⟨-, sym, -, hsym, -⟩
  · cases hnone.symm.trans hvar
  · exact ⟨sym, hsym⟩

/-- A submission whose evaluation succeeds is lowered, run and committed. -/
theorem Aligned.submit (h : Aligned s st)
    (hr : Regular (emitEarlier s.context.functions.entries.length) s.context.functions node)
    (ha : node.Avoids branchingForms) (hev : Evaluator.eval fuel {} node st = .ok v st')
    (hport : Evaluator.Portably fuel {} node st) (generator : Random.Generator) :
    ∃ n o, (∀ fuel', n ≤ fuel' → s.run fuel' generator node = o) ∧ o.value = .ok v ∧
      st'.out = st.out ++ o.out ∧ Aligned o.session st' := by
  have hcontext : (entryStart s.context s.entries s.slots node).context = s.context := by
    simp [entryStart]
  have hp : Poised {} (entryStart s.context s.entries s.slots node) :=
    poised_begun h.sound.orderly s.entries _
  have hboth := concerts (emitEarlier s.context.functions.entries.length) fuel node st
    (entryStart s.context s.entries s.slots node) (by rwa [hcontext]) ha hp
    (by rw [hcontext]; exact h.matched) hport
  rw [hev] at hboth
  obtain ⟨r, s1, hl, -, hmatched⟩ := hboth
  obtain ⟨a, next, t, code, exit, hlower, hE⟩ := lowerSubmission_entry h.sound.orderly hr hl
  obtain ⟨new, hmoves⟩ := hE.moves
  have hset := hE.settles hp
  have hworld := hE.world hp.slotted.proper fun x sym sym' h h' => Option.some.inj (h.symm.trans h')
  have hstart := accords_start hE h.sound.founded h.keeps
    (fun x sym v hx _ => h.sound.orderly.slotted.number x sym hx) h.covers generator
  have hplaces := places_start (starts_begun s.context s.slots s.entries _) rfl
    (Settles.of_grows hp.active (hmoves.grown hp) hset) (startSnap a s.memory generator)
  obtain ⟨previous, b, hfollows, hag, hcarries, hran⟩ := proceeds hworld fuel node "" hl
    (by rwa [hcontext]) ha hp (housed_begun s.context s.slots s.entries _) hset hev hport
    (by rw [hcontext]; exact hstart) hplaces
  have hret : Returned (imageOf a s.memory) b r v true :=
    ⟨hcarries, fun o ho => absurd ho (by simp [hran]), fun _ => rfl⟩
  obtain ⟨n, o, hrun, hvalue, hout, hcommitted, hsound, hkept⟩ :=
    run_of_follows h.sound hlower hE hfollows hag hret
  refine ⟨n, o, hrun, hvalue, hout, hsound, ?_, ?_⟩
  · rwa [hcommitted]
  · rwa [hcommitted]

/-- What memory keeps is what the session reads. -/
theorem Aligned.read? (h : Aligned s st) {x : String} {sym : Symbol Slot} {var : Symbol Value}
    (hsym : s.context.get? x = some sym) (hvar : st.context.get? x = some var) :
    s.read? sym.storage = some var.storage := by
  obtain ⟨hkind, w, hw, hholds⟩ := h.keeps x sym var.storage hsym (by rw [Context.value?, hvar]; rfl)
  rw [Session.read?, hw, h.sound.orderly.slotted.proper.kind x sym hsym, ← hkind]
  exact hholds.decode

end Machine
end DualEngine
