import DualEngine.Proofs.Sessions

/-! # Submissions that define a function

Evaluation records a definition and does nothing else. The machine lowers the body of the function
as well, and with it those of recorded functions that the body calls. Lowering binds the names that
are assigned in these bodies, and records the functions that are defined in them. All else stays.
-/
namespace DualEngine

variable {σ : Type}

/-- The names that are assigned in a tree or in a recorded function. -/
def Context.touched (c : Context σ) (body : Node) : List String :=
  body.assigned ++ c.functions.entries.flatMap fun entry => entry.2.body.assigned

/-- The functions that are defined in a tree or in a recorded function. -/
def Context.redefined (c : Context σ) (body : Node) : List String :=
  body.defined ++ c.functions.entries.flatMap fun entry => entry.2.body.defined

namespace Lowering
open IR

variable {c : Context Slot} {name : String} {params : List String} {body : Node} {a : Artifact}
  {nextSlot : Nat}

/-- What lowering the body of a definition may bind. -/
def bodyGrant (c : Context Slot) (body : Node) : Grant :=
  ⟨{ x | x ∈ c.touched body }, { f | f ∈ c.redefined body }⟩

theorem bodyGrant_covers (c : Context Slot) (body : Node) : (bodyGrant c body).Covers body :=
  ⟨fun _ hx => List.mem_append_left _ hx, fun _ hf => List.mem_append_left _ hf⟩

theorem bodyGrant_coversAll (c : Context Slot) (body : Node) : (bodyGrant c body).CoversAll c := by
  intro f d hd
  have hm := Table.mem_of_get? hd
  exact ⟨fun x hx => List.mem_append_right _ (List.mem_flatMap.mpr ⟨_, hm, hx⟩),
    fun f hf => List.mem_append_right _ (List.mem_flatMap.mpr ⟨_, hm, hf⟩)⟩

/-- The definition that is recorded, with the return kind predicted for it. -/
def recorded (c : Context σ) (name : String) (params : List String) (body : Node) : Definition :=
  ⟨params, body, (Prediction.predictFunction c {} {} name params body).1⟩

/-- The block of an entry function that only says that there is a result. -/
def presentBlock (x : String) : Block :=
  ⟨"entry", [⟨x, .store (.int 1 .i8) (.global resultPresent (.pointer .i8))⟩], some .retVoid⟩

/-- Nothing follows a tree without a value but this block. -/
theorem closeEntry_nothing {entry : String} {s s' : State} (hd : s.draft = entryDraft)
    (h : closeEntry entry .none {} s = .ok ⟨⟩ s') :
    ∃ (x : String) (s1 : State), s' = s1.closed entry [] [presentBlock x] := by
  obtain ⟨o, s1, s2, s3, h1, h2, h3, rfl⟩ := closeEntry_inv h
  obtain ⟨rfl, rfl⟩ : o = none ∧ s1 = s := pure_eq_ok.mp h1
  obtain ⟨t, ht, A⟩ := external_spec s1 resultPresent .i8
  obtain ⟨x, u, hu, A', -⟩ := emit_spec t
    (.store (.int 1 .i8) (.global resultPresent (.pointer .i8))) "" rfl
  have hpresence : storePresence none s1 = .ok ⟨⟩ u :=
    (bind_ok ht).trans ((bind_ok hu).trans rfl)
  obtain rfl : u = s2 := (EStateM.Result.ok.inj (hpresence.symm.trans h2)).2
  obtain rfl : u.ended .retVoid = s3 := (EStateM.Result.ok.inj h3).2
  have hblocks : u.draft.blocks = [{ presentBlock x with terminator := none }] := by
    rw [(A.trans A').blocks, hd]
    rfl
  have hcurrent : u.draft.current = "entry" := by
    rw [(A.trans A').current, hd]
    rfl
  refine ⟨x, u.ended .retVoid, ?_⟩
  have hended : (u.ended .retVoid).draft.blocks = [presentBlock x] := by
    simp only [State.ended, Draft.update, hblocks, hcurrent]
    rfl
  rw [hended]

/-- The start of a submission, with the definition recorded. -/
def defining (c : Context Slot) (number nextSlot : Nat) (name : String) (params : List String)
    (body : Node) : State :=
  { State.begun { context := c, nextSlot } (entryName number) .none with
    context := c.addFunction name (recorded c name params body) }

theorem named_defining (c : Context Slot) (number nextSlot : Nat) (name : String)
    (params : List String) (body : Node) : Named (defining c number nextSlot name params body) := by
  have h := named_begun c nextSlot number .none
  exact ⟨h.distinct, h.known, h.inside, h.outside, h.texts, h.library⟩

theorem allotted_defining (h : Orderly c nextSlot) (number : Nat) (name : String)
    (params : List String) (body : Node) :
    Allotted nextSlot (defining c number nextSlot name params body) := by
  have hb := allotted_begun h (entryName number) .none
  refine ⟨⟨⟨h.slotted.proper, ?_⟩, h.distinct⟩, hb.created, hb.start_le⟩
  intro x sym hx
  simpa [defining] using h.slotted.number x sym hx

/-- A definition is lowered by putting its function into the module. -/
theorem lower_defining {number next : Nat}
    (h : lowerSubmission c number nextSlot (.sequence [.define name params body]) = (.ok a, next)) :
    ∃ callee s1 s2, emitFunction name (recorded c name params body)
        (fun inner => lower (emitEarlier c.functions.entries.length) inner body)
        (defining c number nextSlot name params body) = .ok callee s1 ∧
      closeEntry (entryName number) .none {} s1 = .ok ⟨⟩ s2 ∧
      a = ⟨⟨s2.globals⟩, entryName number, .none, s2.context, s2.created⟩ := by
  obtain ⟨r, s1, s2, h1, h2, rfl, -⟩ := lowerSubmission_inv h
  have hkind : Prediction.predictResult c (.sequence [.define name params body]) = .none := rfl
  rw [hkind] at h1 h2 ⊢
  rw [lower] at h1
  obtain ⟨l, s3, h3, h4⟩ := lowerAll_cons h1
  obtain ⟨rfl, rfl⟩ : r = l ∧ s1 = s3 := pure_eq_ok.mp h4
  obtain ⟨callee, h5, rfl⟩ := lower_define h3
  have hrecorded : State.definition (State.begun { context := c, nextSlot } (entryName number) .none)
      name params body = recorded c name params body := by
    simp only [State.context_begun, State.definition]
    rfl
  rw [hrecorded, State.context_begun] at h5
  exact ⟨callee, s1, s2, h5, h2, rfl⟩

/-- What lowering a definition amounts to: the definition is recorded, and then only what the
bodies may bind is bound; the entry function does nothing. -/
theorem defining_inv {number next : Nat}
    (h : lowerSubmission c number nextSlot (.sequence [.define name params body]) = (.ok a, next)) :
    ∃ x s, Changes (bodyGrant c body) (defining c number nextSlot name params body) s ∧
      Global.function ⟨entrySignature (entryName number) .none, [], [presentBlock x]⟩ ∈ s.globals ∧
      a = ⟨⟨s.globals⟩, entryName number, .none, s.context, s.created⟩ := by
  obtain ⟨callee, s1, s2, h5, h2, rfl⟩ := lower_defining h
  have hcovers : (bodyGrant c body).CoversAll (defining c number nextSlot name params body).context := by
    intro f d hd
    simp only [defining, Context.getFunction?, Context.addFunction, Table.get?_insert] at hd
    split at hd
    · cases hd
      exact bodyGrant_covers c body
    · exact bodyGrant_coversAll c body f d hd
  have hbody : Makes (bodyGrant c body) (emitFunction name (recorded c name params body)
      fun inner => lower (emitEarlier c.functions.entries.length) inner body) :=
    Makes.emitFunction fun inner =>
      makes_lower (makes_emitEarlier _ _) body (bodyGrant_covers c body) inner
  have c₁ := hbody.ok hcovers h5
  have c₂ := (makes_closeEntry number .none {}).ok (hcovers.changes c₁) h2
  have hdeclared : Declared s2 (entrySignature (entryName number) .none) :=
    Changes.declared (s := defining c number nextSlot name params body)
      (declared_begun c nextSlot number .none) (c₁.trans c₂)
  have hdraft : s1.draft = entryDraft := by
    obtain ⟨b, t1, t2, -, -, -, rfl⟩ := emitFunction_inv h5
    rfl
  obtain ⟨x, s5, rfl⟩ := closeEntry_nothing hdraft h2
  exact ⟨x, _, c₁.trans c₂, mem_closed _ hdeclared, rfl⟩

end Lowering

namespace Machine
open IR Lowering

variable {a : Artifact} {s : Session}

theorem result_none (word : Option Word) (st : State) : result .none word st = .ok .none st := by
  unfold result
  rw [bind_ok (get_run st)]
  generalize st.memory.cells.get? resultPresent = present
  cases present with
  | none => rfl
  | some w =>
    cases w with
    | byte n =>
      by_cases hn : n = 0
      · subst hn
        rfl
      · simp [hn, pure_run]
    | _ => rfl

/-- A run of an entry function that does nothing frees the constants, and that is all. -/
theorem runArtifact_present {s : Lowering.State} (hn : Named s) {x : String}
    {signature : Signature} (ha : a = ⟨⟨s.globals⟩, signature.name, .none, s.context, s.created⟩)
    (hf : Global.function ⟨signature, [], [presentBlock x]⟩ ∈ s.globals) {fuel : Nat}
    {st st' : State} {v : Value} (h : runArtifact fuel a st = .ok v st') :
    v = .none ∧ st' = { st with
      memory := freeConstants ((loaded a st.memory).1.setCell resultPresent (.byte 1))
        (loaded a st.memory).2 } := by
  have hglobals : a.module.globals = s.globals := by rw [ha]
  have hentry : a.entry = signature.name := by rw [ha]
  have hkind : a.kind = .none := by rw [ha]
  have hserves := serves_loaded hn hglobals st.memory
  have hfound : (imageOf a st.memory).function? a.entry =
      some ⟨signature, [], [presentBlock x]⟩ := by
    rw [imageOf, hglobals, hentry]
    exact function?_of_mem hn.distinct hf (by simp)
  have haddress : (imageOf a st.memory).address resultPresent = .cell resultPresent := by
    rw [Image.address, hserves.no_constant (by decide)]
    rfl
  rw [runArtifact_run fuel hfound] at h
  cases fuel with
  | zero => cases h
  | succ fuel =>
    have hexecute : execute (imageOf a st.memory) (fuel + 1) ⟨signature, [], [presentBlock x]⟩
        "entry" "" {} (started a st) = .ok none { st with
          memory := (loaded a st.memory).1.setCell resultPresent (.byte 1) } := by
      rw [execute_succ _ fuel _ _ _ _ (b := presentBlock x) rfl]
      simp only [presentBlock, runBody, operate, operand, haddress]
      rfl
    have hclosing := (bind_ok hexecute).symm.trans h
    unfold closing at hclosing
    rw [hkind, bind_ok (result_none none _)] at hclosing
    cases hclosing
    exact ⟨rfl, rfl⟩

/-- A name that is not touched keeps its place, its kind and its value. -/
theorem kept_variables {s' : Session} (keep : String → Bool) (hs : s.context.symbols.names.Nodup)
    (hsymbols : s'.context.symbols.entries.filter (fun entry => keep entry.1) =
      s.context.symbols.entries.filter fun entry => keep entry.1)
    (hread : ∀ x symbol, s.context.get? x = some symbol → keep x = true →
      s'.read? symbol.storage = s.read? symbol.storage) :
    s'.variables.filter (fun entry => keep entry.1) =
      s.variables.filter fun entry => keep entry.1 := by
  have hfilter (u : Session) : u.variables.filter (fun entry => keep entry.1) =
      (u.context.symbols.entries.filter fun entry => keep entry.1).map
        fun entry => (entry.1, entry.2.kind, u.read? entry.2.storage) := by
    rw [Session.variables, List.filter_map]
    rfl
  rw [hfilter, hfilter, hsymbols]
  refine List.map_congr_left fun entry hentry => ?_
  obtain ⟨hmem, hkeep⟩ := List.mem_filter.mp hentry
  rw [hread entry.1 entry.2 (Table.get?_of_mem hs hmem) hkeep]

/-- After such a run every other slot reads as before. -/
theorem read?_present {u : Session} {slot : Slot} (hn : (a.module.globals.map Global.name).Nodup)
    (hm : u.memory = freeConstants ((loaded a s.memory).1.setCell resultPresent (.byte 1))
      (loaded a s.memory).2) (hslot : ∀ other ∈ a.created, other.symbol ≠ slot.symbol) :
    u.read? slot = s.read? slot := by
  have hpresent : resultPresent ≠ slot.symbol := Ne.symm (slot.symbol_ne (by decide))
  have hcells : u.memory.cells.get? slot.symbol = s.memory.cells.get? slot.symbol := by
    rw [hm, freeConstants_cells]
    refine (Table.get?_insert _ _ _ _).trans ?_
    rw [if_neg hpresent, cells_loaded]
    exact get?_prepared a s.memory hslot
  have hreads : s.memory.ReadsAs u.memory := by
    rw [hm]
    exact readsAs_freed hn rfl
  unfold Session.read?
  rw [hcells]
  congr 1
  funext w
  exact hreads.decode? slot.kind w

/-- The machine runs a definition: nothing happens but what lowering the bodies binds. -/
theorem run_define (hs : Orderly s.context s.slots) {name : String} {params : List String}
    {body : Node} {fuel : Nat} {generator : Random.Generator} {v : Value} {o : Outcome}
    (ho : s.run fuel generator (.sequence [.define name params body]) = o) (h : o.value = .ok v) :
    v = .none ∧ o.out = "" ∧ o.generator = generator ∧
      o.session.variables.filter (fun entry => entry.1 ∉ s.context.touched body) =
        s.variables.filter (fun entry => entry.1 ∉ s.context.touched body) ∧
      o.session.context.functions.entries.filter
          (fun entry => entry.1 ≠ name ∧ entry.1 ∉ s.context.redefined body) =
        s.context.functions.entries.filter
          (fun entry => entry.1 ≠ name ∧ entry.1 ∉ s.context.redefined body) ∧
      (name ∉ s.context.redefined body →
        o.session.context.getFunction? name = some (recorded s.context name params body)) := by
  rw [← ho] at h
  obtain ⟨a, next, st, hlower, hrun, heq⟩ := run_ok h
  obtain ⟨x, t, hc, hf, ha⟩ := defining_inv hlower
  have hnamed : Named t := Changes.named (named_defining _ _ _ _ _ _) hc
  have hallotted : Allotted s.slots t := Changes.allotted (allotted_defining hs _ _ _ _) hc
  obtain ⟨rfl, hst⟩ := runArtifact_present hnamed ha hf hrun
  have hout : o.out = "" := by rw [← ho, heq, hst]
  have hgenerator : o.generator = generator := by rw [← ho, heq, hst]
  have hmemory : o.session.memory =
      freeConstants ((loaded a s.memory).1.setCell resultPresent (.byte 1)) (loaded a s.memory).2 := by
    rw [← ho, heq, hst]
  have hcontext : o.session.context = t.context := by rw [← ho, heq, ha]
  have hglobals : a.module.globals = t.globals := by rw [ha]
  have hcreated : a.created = t.created := by rw [ha]
  refine ⟨rfl, hout, hgenerator, ?_, ?_, fun hname => ?_⟩
  · refine kept_variables (fun x => x ∉ s.context.touched body) hs.distinct ?_
      fun x symbol hx _ => ?_
    · rw [hcontext]
      exact hc.kept_symbols (fun x => x ∉ s.context.touched body) fun x hx => by
        simpa [bodyGrant] using hx
    · refine read?_present (hglobals ▸ hnamed.distinct) hmemory fun other hother hsymbol => ?_
      have hle := (hallotted.created other (hcreated ▸ hother)).1
      have hslot := hs.slotted.number x symbol hx
      have hnumber := (Slot.symbol_injective hsymbol).2
      omega
  · rw [hcontext]
    refine (hc.kept_functions (fun f => f ≠ name ∧ f ∉ s.context.redefined body) fun f hf => ?_).trans
      (Table.filter_put (fun f => f ≠ name ∧ f ∉ s.context.redefined body) ?_ _ _)
    · simpa [bodyGrant] using fun _ => hf
    · simp
  · have hkeep : decide (name ∉ s.context.redefined body) = true := by simpa using hname
    have hfilter := congrArg (Table.find? name)
      (hc.kept_functions (fun f => f ∉ s.context.redefined body) fun f hf => by
        simpa [bodyGrant] using hf)
    rw [Table.find?_filter (fun f => f ∉ s.context.redefined body) hkeep,
      Table.find?_filter (fun f => f ∉ s.context.redefined body) hkeep] at hfilter
    rw [hcontext]
    exact hfilter.trans ((Table.get?_insert _ _ _ _).trans (if_pos rfl))

end Machine

open Lowering Machine

/-- Evaluation records a definition and does nothing else. -/
theorem evaluate_define {name : String} {params : List String} {body : Node} {fuel : Nat}
    {s s' : Evaluator.State} {v : Value}
    (h : Evaluator.run fuel (.sequence [.define name params body]) s = (.ok v, s')) :
    v = .none ∧ s'.out = s.out ∧ s'.generator = s.generator ∧
      s'.context.symbols = s.context.symbols ∧
      s'.context.functions =
        s.context.functions.insert name (recorded s.context name params body) := by
  match fuel with
  | 0 => cases h
  | 1 => cases h
  | fuel + 2 =>
    cases h
    exact ⟨rfl, rfl, rfl, rfl, rfl⟩

/-- A submission that defines a function has no value, prints nothing and draws no number. The
evaluator only records the definition. The machine leaves all variables as they were but those that
are assigned in the body or in a recorded function, and all functions but the defined one and those
that are defined in these bodies. -/
theorem definition_frame (name : String) (params : List String) (body : Node) :
    (∀ (s s' : Evaluator.State) (fuel : Nat) (v : Value),
      Evaluator.run fuel (.sequence [.define name params body]) s = (.ok v, s') →
      v = .none ∧ s'.out = s.out ∧ s'.generator = s.generator ∧
        s'.context.symbols = s.context.symbols ∧
        s'.context.functions =
          s.context.functions.insert name (recorded s.context name params body)) ∧
    ∀ (s : Session) (fuel : Nat) (generator : Random.Generator) (v : Value) (o : Outcome),
      s.Reachable → s.run fuel generator (.sequence [.define name params body]) = o →
      o.value = .ok v →
      v = .none ∧ o.out = "" ∧ o.generator = generator ∧
        o.session.variables.filter (fun entry => entry.1 ∉ s.context.touched body) =
          s.variables.filter (fun entry => entry.1 ∉ s.context.touched body) ∧
        o.session.context.functions.entries.filter
            (fun entry => entry.1 ≠ name ∧ entry.1 ∉ s.context.redefined body) =
          s.context.functions.entries.filter
            (fun entry => entry.1 ≠ name ∧ entry.1 ∉ s.context.redefined body) ∧
        (name ∉ s.context.redefined body →
          o.session.context.getFunction? name = some (recorded s.context name params body)) :=
  ⟨fun _ _ _ _ h => evaluate_define h,
    fun _ _ _ _ _ hs ho h => run_define hs.orderly ho h⟩

/-- A variable stays, although the body of a function that is defined reads it. -/
theorem definition_keeps_read_variable :
    ∃ (s : Session) (o : Outcome), s.Reachable ∧ s.variables = [("x", .int, some (.int 1))] ∧
      s.run 10 ⟨#[], 0⟩ (.sequence [.define "f" ["n"]
        (.sequence [.binary (.identifier "n") .add (.identifier "x")])]) = o ∧
      o.value = .ok .none ∧ o.out = "" ∧
      o.session.variables.filter (fun entry => entry.1 ∉ []) = [("x", .int, some (.int 1))] := by
  have hvariables : (Session.run 10 ⟨#[], 0⟩ {} (.sequence [.assign "x" (.number 1)])
      ).session.variables = [("x", .int, some (.int 1))] := by cbv
  have hfunctions : (Session.run 10 ⟨#[], 0⟩ {} (.sequence [.assign "x" (.number 1)])
      ).session.context.functions.entries = [] := by cbv
  have hvalue : (Session.run 10 ⟨#[], 0⟩ (Session.run 10 ⟨#[], 0⟩ {}
      (.sequence [.assign "x" (.number 1)])).session (.sequence [.define "f" ["n"]
      (.sequence [.binary (.identifier "n") .add (.identifier "x")])])).value = .ok .none := by cbv
  have hs := Session.Reachable.run .start 10 ⟨#[], 0⟩ (.sequence [.assign "x" (.number 1)])
  generalize (Session.run 10 ⟨#[], 0⟩ {} (.sequence [.assign "x" (.number 1)])).session = s at *
  have hbody : (Node.sequence [.binary (.identifier "n") .add (.identifier "x")]).assigned = [] := by
    decide
  obtain ⟨-, hout, -, hframe, -⟩ := (definition_frame "f" ["n"] _).2 s 10 _ _ _ hs rfl hvalue
  rw [Context.touched, hbody, hfunctions, hvariables] at hframe
  exact ⟨s, _, hs, hvariables, rfl, hvalue, hout, hframe⟩

/-- A body that assigns a name: the machine binds it, although nothing was run. -/
theorem definition_binds_assigned_name :
    ({} : Session).variables = [] ∧
      (Session.run 10 ⟨#[], 0⟩ {} (.sequence [.define "f" []
        (.sequence [.assign "x" (.number 1)])])).value = .ok .none ∧
      (Session.run 10 ⟨#[], 0⟩ {} (.sequence [.define "f" []
        (.sequence [.assign "x" (.number 1)])])).session.variables =
        [("x", .int, some (.int 0))] := by
  refine ⟨rfl, ?_, ?_⟩
  · cbv
  · cbv

end DualEngine
