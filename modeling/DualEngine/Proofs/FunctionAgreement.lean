import DualEngine.Proofs.Definitions
import DualEngine.Proofs.EngineAgreement
import DualEngine.Proofs.FunctionTables

/-! # The two engines agree on pure functions

Functions are defined one after the other, each without assignments, and then called with numbers.
Both engines record the same definitions, and the machine returns whatever the evaluator computes.
-/
namespace DualEngine

namespace Node

theorem plain_of_isPure {params : List String} {node : Node} (h : node.isPure params = true) :
    node.plain = true := by
  induction node using induction with
  | h node ih =>
  cases node with
  | sequence nodes =>
    rw [plain, plainLast_eq]
    cases hlast : nodes.getLast? with
    | none => rfl
    | some last =>
      have hm := List.mem_of_getLast? hlast
      exact ih last hm ((arePure_iff nodes).mp h last hm)
  | branch condition thenPart elsePart =>
    simp only [isPure, Bool.and_eq_true, Bool.or_eq_true] at h
    rw [plain, Bool.and_eq_true]
    refine ⟨ih thenPart (by simp [children]) h.1.2, ?_⟩
    rcases h.2 with hm | hp
    · rw [eq_missing hm]
      rfl
    · exact ih elsePart (by simp [children]) hp
  | loop => cases h
  | _ => rfl

end Node

namespace Lowering
open IR Machine

variable {c : Context Slot} {name : String} {params : List String} {body : Node} {s : State}

/-! ## Functions of a complete module -/

/-- In a module with all functions, every call is answered. -/
theorem answers_of_complete {image : Image} {gs : List Global} (hbuilt : Built c.functions)
    (hcomplete : Complete c ∅ s)
    (hfunctions : ∀ f, Global.function f ∈ s.globals → f.blocks ≠ [] →
      Global.function f ∈ gs ∧ image.function? f.signature.name = some f)
    (htexts : ∀ text contents, Global.text text contents ∈ s.globals →
      Global.text text contents ∈ gs) (n : Nat) :
    Answers image gs c.bindings c.functions s.functions n := by
  -- by induction on the fuel: a body calls functions with less
  induction n using Nat.strong_induction_on with
  | _ n ih =>
  intro name d callee xs before st u st' m hd hcallee hlen heval hport hconcurs
  rcases hcomplete name callee hcallee with hb | ⟨e, earlier, t, r, t1, hE⟩
  · exact absurd hb (Set.notMem_empty name)
  · obtain rfl : d = e := Option.some.inj (hd.symm.trans hE.defined)
    obtain ⟨hmem, hfun⟩ := hfunctions _ hE.function hE.blocks_ne_nil
    exact (hE.mono hmem htexts fun _ _ h => h).answers
      (Node.plain_of_isPure (hbuilt.pure hd).2) hfun ih hlen heval hport hconcurs

/-! ## Definitions -/

/-- Inside a function the prediction of its body knows the kinds of all names. -/
theorem knows_function (c : Context Slot) (name : String) (params : List String) (body : Node) :
    Knows c ⟨params.foldl (fun scope param => scope.insert param .float) {},
        Table.insert {} name (recorded c name params body).returns, []⟩
      (Definition.bodyScope (recorded c name params body))
      (c.addFunction name (recorded c name params body)) := by
  refine ⟨fun x => ?_, fun f => ?_⟩
  · have hscope : ((Definition.bodyScope (recorded c name params body)).params.get? x).isSome =
        decide (x ∈ params) := by
      by_cases hx : x ∈ params
      · obtain ⟨o, ho⟩ := bodyScope_get? (d := recorded c name params body) hx
        simp [ho, hx]
      · cases ho : (Definition.bodyScope (recorded c name params body)).params.get? x with
        | none => simp [hx]
        | some o => exact absurd (List.of_mem_zip (Table.mem_of_get?_ofList ho)).1 hx
    rw [Prediction.name?, Table.get?_foldl_const, hscope]
    by_cases hx : x ∈ params
    · simp [hx]
    · simp [hx, Table.get?, Table.find?, Context.addFunction, Context.get?]
  · show ((Table.insert {} name _).get? f).or _ = ((c.functions.insert name _).get? f).map _
    rw [Table.get?_insert, Table.get?_insert]
    by_cases hf : name = f
    · simp [hf]
    · simp [hf, Table.get?, Table.find?, Context.getFunction?]

/-- A pure definition that can be lowered is recorded, and the table stays built. -/
theorem built_define {number nextSlot next : Nat} {a : Artifact} (hbuilt : Built c.functions)
    (ho : Orderly c nextSlot) (hnew : c.functions.get? name = none)
    (hst : body.isStatement = true) (hpure : body.isPure params = true)
    (h : lowerSubmission c number nextSlot (.sequence [.define name params body]) = (.ok a, next)) :
    a.context = c.addFunction name (recorded c name params body) ∧ Built a.context.functions := by
  obtain ⟨callee, s1, s2, h1, h2, rfl⟩ := lower_defining h
  set start := defining c number nextSlot name params body with hstart
  set d := recorded c name params body with hd
  have havoids : body.Avoids bindingForms := Node.avoids_of_isPure hpure (by decide)
  have hcalm : Calm (c.functions.insert name d) := by
    intro f e hf
    rw [Table.get?_insert] at hf
    split at hf
    · cases hf
      exact ⟨hst, Node.avoids_of_isPure hpure (by decide), havoids⟩
    · exact hbuilt.calm f e hf
  -- nothing is bound but the function
  have hcovers : Grant.nothing.CoversAll start.context :=
    Grant.coversAll_of_avoids fun f e hf => (hcalm f e hf).2.2
  have hmakes : Makes .nothing (emitFunction name d
      fun inner => lower (emitEarlier c.functions.entries.length) inner body) :=
    Makes.emitFunction fun inner =>
      makes_lower (makes_emitEarlier _ _) body (Grant.covers_of_avoids havoids) inner
  have c₁ := hmakes.ok hcovers h1
  have c₂ := (makes_closeEntry number .none {}).ok (hcovers.changes c₁) h2
  have hcontext : s2.context = c.addFunction name d := (Changes.steady (c₁.trans c₂)).context
  refine ⟨hcontext, ?_⟩
  -- the first run of the body
  obtain ⟨b, t1, t2, h3, -⟩ := emitFunction_inv h1
  have hnamed := poised_begun ho number .none
  have htidy : Tidy start := by
    refine ⟨hnamed.tidy.distinct, hnamed.tidy.known, hnamed.tidy.texts, ?_⟩
    intro f e signature _ hf
    have hf : (State.begun { context := c, nextSlot } (entryName number) .none).functions.get? f =
      some signature := hf
    rw [State.functions_begun] at hf
    cases hf
  have hslotted : Slotted start.context start.nextSlot :=
    (allotted_defining ho number name params body).orderly.slotted
  have hself : start.context.getFunction? name = some d :=
    (Table.get?_insert ..).trans (if_pos rfl)
  have hp := poised_inFunction htidy hslotted hself
  have hsite : Site (firstSetting (c.addFunction name d) c.functions.entries.length params)
      (Definition.bodyScope d) (start.inFunction name d) :=
    ⟨hp, rfl, fun x hx => bodyScope_get? hx, fun f hf => absurd hf (Set.notMem_empty f)⟩
  have hr : Regular (emitEarlier c.functions.entries.length)
      (start.inFunction name d).context.functions body :=
    regular_of_isPure hst hpure (dependable_emitEarlier hcalm _)
  have hkind : kindOf b.value = d.returns := by
    rw [(foretells _ body c _ _ _ _ _ hr hp (knows_function c name params body) h3).1]
    exact Prediction.bodyKind_predictFunction havoids name
  show Built s2.context.functions
  rw [hcontext]
  exact .define hbuilt hnew hst hpure ⟨_, _, _, _, _, rfl, hsite, h3, hkind⟩

end Lowering

/-- A number as it is written. -/
def Node.isNumeral : Node → Bool
  | .number _ | .float _ => true
  | _ => false

namespace Machine
open IR Lowering

variable {names params : List String} {name : String} {body : Node} {s : Session}
  {st st' : Evaluator.State} {fuel : Nat} {v : Value}

/-! ## Sessions of definitions and calls -/

/-- The two engines have recorded the same pure functions, under the given names, and no variable is
bound. -/
structure Paired (names : List String) (s : Session) (st : Evaluator.State) : Prop where
  sound : s.Sound
  built : Built s.context.functions
  same : st.context.functions = s.context.functions
  known : ∀ f, f ∈ names ↔ (s.context.functions.get? f).isSome = true
  unbound : ∀ x, s.context.get? x = none
  unbound' : ∀ x, st.context.get? x = none

/-- Where no variable is bound, both engines predict the same. -/
theorem Paired.recorded_eq (h : Paired names s st) (name : String) (params : List String)
    (body : Node) : recorded st.context name params body = recorded s.context name params body := by
  have halike : Prediction.Alike st.context {} s.context {} := by
    refine ⟨fun x => ?_, fun f => ?_⟩
    · rw [Prediction.name?, Prediction.name?, h.unbound, h.unbound']
      rfl
    · rw [Prediction.function?, Prediction.function?, Context.getFunction?, Context.getFunction?,
        h.same]
  unfold recorded
  rw [Definition.mk.injEq]
  exact ⟨rfl, rfl, Prediction.returnKind_alike name params
    (fun hp => Prediction.predict_alike body hp) halike [] []⟩

theorem Paired.define {o : Outcome} {generator : Random.Generator} {u w : Value} {fuel' : Nat}
    (h : Paired names s st) (hnew : name ∉ names) (hst : body.isStatement = true)
    (hpure : body.isPure params = true)
    (ho : s.run fuel generator (.sequence [.define name params body]) = o) (hv : o.value = .ok w)
    (he : Evaluator.run fuel' (.sequence [.define name params body]) st = (.ok u, st')) :
    Paired (name :: names) o.session st' := by
  have hfresh : s.context.functions.get? name = none := by
    rw [h.known] at hnew
    simpa using hnew
  rw [← ho] at hv
  obtain ⟨a, next, state, hlower, hrun, heq⟩ := run_ok hv
  obtain ⟨hcontext, hbuilt⟩ := built_define h.built h.sound.orderly hfresh hst hpure hlower
  obtain ⟨x, t, hc, hf, ha⟩ := defining_inv hlower
  obtain ⟨-, hstate⟩ := runArtifact_present (Changes.named (named_defining _ _ _ _ _ _) hc) ha hf hrun
  obtain ⟨-, -, -, hsymbols, hfunctions⟩ := evaluate_define he
  have hsession : o.session = { context := a.context, entries := s.entries + 1, slots := next,
                                memory := state.memory } := by rw [← ho, heq]
  have horderly := (lowerSubmission_orderly (n := s.entries)
    (t := .sequence [.define name params body]) h.sound.orderly).2 a (by rw [hlower])
  rw [hlower] at horderly
  rw [hsession]
  refine ⟨⟨horderly, ?_⟩, hbuilt, ?_, fun f => ?_, fun y => ?_, fun y => ?_⟩
  · show state.memory.Founded
    rw [hstate]
    have hground := h.sound.founded.grounded a
    exact Grounded.founded ⟨hground.text, hground.array, hground.lastingText, hground.lastingArray⟩
  · show st'.context.functions = a.context.functions
    rw [hcontext, hfunctions, h.recorded_eq, h.same]
    rfl
  · show f ∈ name :: names ↔ (a.context.functions.get? f).isSome = true
    rw [hcontext]
    show _ ↔ ((s.context.functions.insert name _).get? f).isSome = true
    rw [Table.get?_insert, List.mem_cons, h.known]
    by_cases hfn : name = f
    · simp [hfn]
    · simp [hfn, Ne.symm hfn]
  · show a.context.get? y = none
    rw [hcontext]
    exact h.unbound y
  · show st'.context.symbols.get? y = none
    rw [hsymbols]
    exact h.unbound' y

/-- What is called exists. -/
theorem eval_call_defined {f : String} {args : List Node}
    (h : Evaluator.eval fuel {} (.sequence [.call f args]) st = .ok v st') :
    ∃ d, st.context.functions.get? f = some d ∧ args.length = d.params.length := by
  match fuel with
  | 0 => cases h
  | 1 => cases h
  | fuel + 2 =>
    obtain ⟨u, st₁, h1, -⟩ := bind_eq_ok.mp h
    obtain ⟨d, -, -, -, hd, hlen, -⟩ := Evaluator.eval_call_ok h1
    exact ⟨d, hd, hlen⟩

/-- A call with numbers for arguments can be lowered. -/
theorem Paired.fit_call {f : String} {args : List Node} {d : Definition} (h : Paired names s st)
    (hst : (Node.sequence [.call f args]).isStatement = true)
    (hpure : (Node.sequence [.call f args]).isPure [] = true)
    (hargs : ∀ arg ∈ args, arg.isNumeral = true) (hd : s.context.functions.get? f = some d)
    (hlen : args.length = d.params.length) :
    Fit { earlier := emitEarlier s.context.functions.entries.length, context := s.context }
      (.sequence [.call f args]) d.returns := by
  have hdepend := dependable_emitEarlier h.built.calm s.context.functions.entries.length
  have hst' := Node.isStatement_child hst (by simp [Node.children] : Node.call f args ∈ _)
  have hpure' : (Node.call f args).isPure [] = true :=
    (Node.arePure_iff [Node.call f args]).mp hpure _ (List.mem_singleton_self _)
  refine fit_sequence (regular_of_isPure hst hpure hdepend) ⟨_, ?_, rfl⟩
  refine Lowering.fit_call (regular_of_isPure hst' hpure' hdepend) hd hlen (fun arg harg => ?_)
    (.inr (h.built.capable h.built.calm le_rfl (fun _ _ hf => hf) hd))
  cases arg with
  | number n => exact ⟨.int, rfl, fit_number n⟩
  | float x => exact ⟨.float, rfl, fit_float x⟩
  | _ => cases hargs _ harg

theorem isPure_of_isNumeral {f : String} {args : List Node}
    (hargs : ∀ arg ∈ args, arg.isNumeral = true) :
    (Node.sequence [.call f args]).isPure [] = true := by
  refine (Node.arePure_iff _).mpr fun node hm => ?_
  rw [List.mem_singleton.mp hm]
  refine (Node.arePure_iff args).mpr fun arg harg => ?_
  cases arg with
  | number | float => rfl
  | _ => cases hargs _ harg

/-- The machine returns the value of a call with numbers for arguments. -/
theorem Paired.call {f : String} {args : List Node} (h : Paired names s st)
    (hst : (Node.sequence [.call f args]).isStatement = true)
    (hargs : ∀ arg ∈ args, arg.isNumeral = true)
    (heval : Evaluator.run fuel (.sequence [.call f args]) st = (.ok v, st'))
    (hport : Evaluator.Portably fuel {} (.sequence [.call f args]) st)
    (generator : Random.Generator) :
    ∃ n o, (∀ fuel', n ≤ fuel' → s.run fuel' generator (.sequence [.call f args]) = o) ∧
      o.value = .ok v ∧ Paired names o.session st' := by
  have hev : Evaluator.eval fuel {} (.sequence [.call f args]) st = .ok v st' :=
    Evaluator.eval_of_run heval
  have hpure := isPure_of_isNumeral (f := f) hargs
  have hr : Regular (emitEarlier s.context.functions.entries.length) s.context.functions
      (.sequence [.call f args]) :=
    regular_of_isPure hst hpure (dependable_emitEarlier h.built.calm _)
  obtain ⟨d, hd, hlen⟩ := eval_call_defined hev
  -- the call is lowered, and with it the functions that it needs
  have hcontext : (entryStart s.context s.entries s.slots (.sequence [.call f args])).context =
      s.context := by simp [entryStart]
  obtain ⟨r, s1, hl, -, ha⟩ := (h.fit_call hst hpure hargs (h.same ▸ hd) hlen).runs {}
    (entryStart s.context s.entries s.slots (.sequence [.call f args]))
    ⟨poised_begun h.sound.orderly s.entries _, hcontext, by simp, by simp⟩
  have hcontext1 : s1.context = s.context := ha.context.trans hcontext
  have hcomplete : Complete s.context ∅ s1 := by
    refine ha.complete ∅ fun g callee hg => ?_
    rw [entryStart, State.functions_begun] at hg
    cases hg
  have hsteady := steady_of_avoids (Node.avoids_of_isPure hpure (by decide))
    (hcontext ▸ h.built.calm) hl
  obtain ⟨n, u, ran, o, hrun, hvalue, -, hcontext', hsound, -, hcovers, htells, hfunctions⟩ :=
    regular_agreement h.sound hr hl (fun new hd => by
      have hcreated := hd.created
      rw [hsteady.created] at hcreated
      obtain rfl : new = [] := by simpa using hcreated
      exact ⟨List.nodup_nil, by simp⟩)
      (fun x sym v _ hv => by simp [Context.value?, h.unbound'] at hv)
      (fun x v hv => by simp [Context.value?, h.unbound'] at hv) hev hport
      (fun a t code exit hE _ _ _ => by
        refine ⟨fun g e e' he he' => ?_, fun k _ => ?_⟩
        · rw [h.same, he'] at he
          exact Option.some.inj he
        · rw [h.same, hcontext1, hE.appends.functions]
          exact answers_of_complete h.built hcomplete
            (fun g hg hb => by
              obtain ⟨hmem, hfound⟩ := hE.functions g (hE.appends.globals hg) hb
              exact ⟨hmem, hfound s.memory⟩)
            (fun text contents hm => hE.texts text contents (hE.appends.globals hm)) k) generator
  have hends : (Node.sequence [.call f args]).endsInValue = true :=
    Node.isExpression_of_isStatement
      (Node.isStatement_child hst (by simp [Node.children] : Node.call f args ∈ _)) rfl
  obtain ⟨htelling, hexact⟩ := Node.telling_of_endsInValue hends
  rw [hcontext1] at hcontext'
  refine ⟨n, o, hrun, ?_, hsound, ?_, ?_, ?_, ?_, fun x => ?_⟩
  · rw [hvalue, ← htells.value htelling (.inr hexact)]
  · rw [hcontext']
    exact h.built
  · rw [hcontext', hfunctions, h.same]
  · rw [hcontext']
    exact h.known
  · rw [hcontext']
    exact h.unbound
  · cases hx : st'.context.get? x with
    | none => rfl
    | some var =>
      obtain ⟨sym, hsym⟩ := hcovers x var.storage (by rw [Context.value?, hx]; rfl)
      rw [hcontext1, h.unbound] at hsym
      cases hsym

/-- Sessions of the two engines after the same submissions: definitions of pure functions under
different names, which the machine accepts, and calls with numbers that are evaluated portably. -/
inductive Submitted : List String → Session → Evaluator.State → Prop
  | start (generator : Random.Generator) : Submitted [] {} { generator }
  | define {names params : List String} {s : Session} {st st' : Evaluator.State}
      {source name : String} {body : Node} {fuel fuel' : Nat} {generator : Random.Generator}
      {o : Outcome} {u w : Value} (h : Submitted names s st)
      (hparse : parse source = .ok (.sequence [.define name params body])) (hnew : name ∉ names)
      (hpure : body.isPure params = true)
      (ho : s.run fuel generator (.sequence [.define name params body]) = o) (hv : o.value = .ok w)
      (he : Evaluator.run fuel' (.sequence [.define name params body]) st = (.ok u, st')) :
      Submitted (name :: names) o.session st'
  | call {names : List String} {s : Session} {st st' : Evaluator.State} {source f : String}
      {args : List Node} {fuel n : Nat} {generator : Random.Generator} {o : Outcome} {v : Value}
      (h : Submitted names s st) (hparse : parse source = .ok (.sequence [.call f args]))
      (hargs : ∀ arg ∈ args, arg.isNumeral = true)
      (he : Evaluator.run fuel (.sequence [.call f args]) st = (.ok v, st'))
      (hport : Evaluator.Portably fuel {} (.sequence [.call f args]) st)
      (ho : ∀ fuel', n ≤ fuel' → s.run fuel' generator (.sequence [.call f args]) = o) :
      Submitted names o.session st'

end Machine
end DualEngine
