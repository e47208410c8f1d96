import DualEngine.Proofs.FunctionBodies

/-! # Trees that can be lowered

Whether a tree can be lowered is a matter of kinds. `Fit` says that it can be, wherever lowering may
start in a context, and of which kind its value is. What it adds to the module is complete: every
function there was lowered from its definition.
-/
namespace DualEngine.Lowering
open IR Machine

variable {c : Context Slot} {s s' s'' : State} {gs gs' : List Global} {M M' : Table Signature}
  {name : String} {callee : Signature} {d : Definition} {earlier : Earlier} {r : Lowered}
  {scope : Scope} {node : Node} {k : Kind} {nodes : List Node} {new : List Slot}

theorem Emitted.mono {t t1 : State} (h : Emitted c gs M name callee d earlier t r t1)
    (hf : Global.function (functionOf callee d (t1.ended (returnExit r.value))) ∈ gs')
    (ht : ∀ text contents, Global.text text contents ∈ gs → Global.text text contents ∈ gs')
    (hM : ∀ f signature, M.get? f = some signature → M'.get? f = some signature) :
    Emitted c gs' M' name callee d earlier t r t1 :=
  { h with
    function := hf
    texts := fun text contents hm => ht text contents (h.texts text contents hm)
    functions := fun f signature hm => hM f signature (h.functions f signature hm) }

/-- The function of the module was lowered from the definition of its name. -/
def IsEmitted (c : Context Slot) (gs : List Global) (M : Table Signature) (name : String)
    (callee : Signature) : Prop :=
  ∃ d earlier t r t1, Emitted c gs M name callee d earlier t r t1

/-- All functions of the module were lowered from their definitions, but for some that may still be
under construction. -/
def Complete (c : Context Slot) (building : Set String) (s : State) : Prop :=
  ∀ name callee, s.functions.get? name = some callee →
    name ∈ building ∨ IsEmitted c s.globals s.functions name callee

/-- From `s` to `s'` the context stays as it is, and the module stays complete. -/
structure Adds (c : Context Slot) (s s' : State) : Prop where
  context : s'.context = s.context
  complete : ∀ building, Complete c building s → Complete c building s'

theorem Adds.refl (s : State) : Adds c s s := ⟨rfl, fun _ h => h⟩

theorem Adds.trans (h : Adds c s s') (h' : Adds c s' s'') : Adds c s s'' :=
  ⟨h'.context.trans h.context, fun building hc => h'.complete building (h.complete building hc)⟩

theorem adds_of_eq (hc : s'.context = s.context) (hf : s'.functions = s.functions)
    (hg : s.globals ⊆ s'.globals) : Adds c s s' := by
  refine ⟨hc, fun building h name callee hn => ?_⟩
  rw [hf] at hn
  rcases h name callee hn with hb | ⟨d, earlier, t, r, t1, hE⟩
  · exact .inl hb
  · refine .inr ⟨d, earlier, t, r, t1, hE.mono (hg hE.function) (fun _ _ hm => hg hm) ?_⟩
    rw [hf]
    exact fun _ _ h => h

theorem Appends.adds {code : List Instruction} (h : Appends code s s') : Adds c s s' :=
  adds_of_eq h.context h.functions h.globals

theorem adds_opened (s : State) (wanted : String) : Adds c s (s.opened wanted) :=
  adds_of_eq rfl rfl fun _ h => h

theorem adds_passed (s : State) (exit : Terminator) (label : String) :
    Adds c s (s.passed exit label) := adds_of_eq rfl rfl fun _ h => h

theorem adds_forked (s : State) (holds : Operand) : Adds c s (s.forked holds) :=
  ((adds_opened s _).trans ((adds_opened _ _).trans (adds_opened _ _))).trans (adds_passed _ _ _)

/-! ## Places where trees may be lowered -/

/-- Where trees are lowered: how functions of earlier submissions are, the context, the parameters,
and the functions that are under construction. -/
structure Setting where
  earlier : Earlier
  context : Context Slot
  params : List String := []
  building : Set String := ∅

variable {S : Setting}

/-- Lowering may start here. -/
structure Site (S : Setting) (scope : Scope) (s : State) : Prop where
  poised : Poised scope s
  context : s.context = S.context
  params : ∀ x ∈ S.params, ∃ o, scope.params.get? x = some o
  building : ∀ f ∈ S.building, ∃ callee, s.functions.get? f = some callee

theorem Site.moves (h : Site S scope s) (m : Moves scope s s' new) (a : Adds S.context s s') :
    Site S scope s' := by
  refine ⟨m.poised h.poised, a.context.trans h.context, h.params, fun f hf => ?_⟩
  obtain ⟨callee, hc⟩ := h.building f hf
  exact ⟨callee, (m.grown h.poised).evolves.functions f callee hc⟩

theorem Site.forked (h : Site S scope s) (holds : Operand) :
    Site S (scope.branching s.draft.current) (s.forked holds) :=
  ⟨h.poised.forked holds, (State.context_forked s holds).trans h.context, h.params, h.building⟩

theorem Site.turned {holds : Operand} {s3 : State} (h : Site S scope s)
    (m : Moves (scope.branching s.draft.current) (s.forked holds) s3 new)
    (h3 : Site S (scope.branching s.draft.current) s3) :
    Site S (scope.branching s.draft.current) (s3.passed (.jump s.joinLabel) s.elseLabel) :=
  ⟨h.poised.turned m, h3.context, h3.params, h3.building⟩

/-- Wherever lowering may start, the tree can be lowered to a value of the kind. -/
structure Fit (S : Setting) (node : Node) (k : Kind) : Prop where
  regular : Regular S.earlier S.context.functions node
  runs : ∀ scope s, Site S scope s → ∃ r s', lower S.earlier scope node s = .ok r s' ∧
    kindOf r.value = k ∧ Adds S.context s s'

theorem Fit.lower (h : Fit S node k) (hs : Site S scope s) :
    ∃ r s' new, Lowering.lower S.earlier scope node s = .ok r s' ∧ kindOf r.value = k ∧
      Adds S.context s s' ∧ Moves scope s s' new ∧ r.Fits s'.used ∧ Site S scope s' := by
  obtain ⟨r, s', hl, hk, ha⟩ := h.runs scope s hs
  have hr : Regular S.earlier s.context.functions node := hs.context ▸ h.regular
  obtain ⟨new, m, f, -⟩ := lowers S.earlier node scope s r s' hr hs.poised hl
  exact ⟨r, s', new, hl, hk, ha, m, f, hs.moves m ha⟩

/-! ## Literals and parameters -/

theorem regular_leaf (hst : node.isStatement = true) (hleaf : node.children = [])
    (hshape : node.shape ∉ ["Random", "FunctionDef", "FunctionCall"])
    (definitions : Table Definition) : Regular earlier definitions node := by
  have hself : node.subtrees = [node] := by rw [Node.subtrees_eq, hleaf]; rfl
  refine ⟨hst, fun t ht hm => ?_, fun f args hm => ?_⟩
  · rw [hself, List.mem_singleton] at ht
    subst ht
    exact hshape (by simp only [List.mem_cons, List.not_mem_nil, or_false] at hm ⊢; tauto)
  · rw [hself, List.mem_singleton] at hm
    subst hm
    exact absurd (by simp [Node.shape]) hshape

theorem fit_number (n : Int) : Fit S (.number n) .int :=
  ⟨regular_leaf rfl rfl (by simp [Node.shape]) _, fun _ s _ => ⟨_, s, rfl, rfl, .refl s⟩⟩

theorem fit_float (x : Float) : Fit S (.float x) .float :=
  ⟨regular_leaf rfl rfl (by simp [Node.shape]) _, fun _ s _ => ⟨_, s, rfl, rfl, .refl s⟩⟩

theorem fit_boolean (b : Bool) : Fit S (.boolean b) .bool :=
  ⟨regular_leaf rfl rfl (by simp [Node.shape]) _, fun _ s _ => ⟨_, s, rfl, rfl, .refl s⟩⟩

theorem fit_string (text : String) : Fit S (.string text) .string := by
  refine ⟨regular_leaf rfl rfl (by simp [Node.shape]) _, fun _ s _ => ?_⟩
  obtain ⟨o, s1, code, h1, A, -⟩ := textConstant_spec s text "str" (by decide)
  exact ⟨_, s1, (bind_ok h1).trans rfl, rfl, A.adds⟩

theorem fit_parameter {x : String} (hx : x ∈ S.params) :
    Fit S (.identifier x) .float := by
  refine ⟨regular_leaf rfl rfl (by simp [Node.shape]) _, fun scope s hs => ?_⟩
  obtain ⟨o, ho⟩ := hs.params x hx
  exact ⟨_, s, (bind_ok (by rw [loadName_param ho])).trans rfl, rfl, .refl s⟩

/-! ## Operators -/

theorem fit_binary {left right : Node} {op : ArithOp} {kl kr : Kind}
    (hr : Regular S.earlier S.context.functions (.binary left op right)) (hop : ∀ symbol, op ≠ .other symbol)
    (hleft : Fit S left kl) (hright : Fit S right kr)
    (hk : kl.arithmetic? op kr = some k) : Fit S (.binary left op right) k := by
  refine ⟨hr, fun scope s hs => ?_⟩
  obtain ⟨l, s1, _, h1, rfl, a1, -, f1, S1⟩ := hleft.lower hs
  obtain ⟨r, s2, _, h2, rfl, a2, m2, f2, S2⟩ := hright.lower S1
  have hused := (m2.grown S1.poised).evolves.used
  obtain ⟨t, s3, code, h3, A, -, hkind, -⟩ := arithmetic_spec (f1.value.mono hused) f2.value hk
  refine ⟨{ value := some t }, s3, ?_, hkind, a1.trans (a2.trans A.adds)⟩
  cases op with
  | other symbol => exact absurd rfl (hop symbol)
  | _ => exact (bind_ok h1).trans ((bind_ok h2).trans ((bind_ok h3).trans rfl))

theorem fit_comparison {left right : Node} {op : CompareOp} {kl kr : Kind}
    (hr : Regular S.earlier S.context.functions (.comparison left op right))
    (hop : ∀ symbol, op ≠ .other symbol)
    (hleft : Fit S left kl) (hright : Fit S right kr)
    (hk : kl.comparable op kr = true) : Fit S (.comparison left op right) .bool := by
  obtain ⟨hne, hne'⟩ := ne_none_of_comparable hk
  refine ⟨hr, fun scope s hs => ?_⟩
  obtain ⟨l, s1, _, h1, hkl, a1, -, f1, S1⟩ := hleft.lower hs
  obtain ⟨r, s2, _, h2, hkr, a2, m2, f2, S2⟩ := hright.lower S1
  have hused := (m2.grown S1.poised).evolves.used
  obtain ⟨tl, hl⟩ := kindOf_eq_some (r := l.value) (by rwa [hkl])
  obtain ⟨tr, hr'⟩ := kindOf_eq_some (r := r.value) (by rwa [hkr])
  have F1 := f1.value.mono hused
  have F2 := f2.value
  rw [hl] at F1 hkl
  rw [hr'] at F2 hkr
  subst hkl hkr
  obtain ⟨o, s3, code, h3, A, -⟩ := comparison_spec hop F1 F2 hk
  refine ⟨{ value := some ⟨o, .bool⟩ }, s3, ?_, rfl, a1.trans (a2.trans A.adds)⟩
  rw [← hl, ← hr'] at h3
  cases op with
  | other symbol => exact absurd rfl (hop symbol)
  | _ => exact (bind_ok h1).trans ((bind_ok h2).trans ((bind_ok h3).trans rfl))

/-! ## Sequences and branches -/

/-- The trees can be lowered one after the other; `last` and `k` are the kinds of the value before
and after them. -/
def FitAll (S : Setting) : List Node → Kind → Kind → Prop
  | [], last, k => last = k
  | node :: rest, _, k => ∃ kn, Fit S node kn ∧ FitAll S rest kn k

theorem FitAll.lowerAll {last : Lowered} (h : FitAll S nodes (kindOf last.value) k)
    (hs : Site S scope s) :
    ∃ r s', Lowering.lowerAll S.earlier scope nodes last s = .ok r s' ∧ kindOf r.value = k ∧
      Adds S.context s s' := by
  induction nodes generalizing s last with
  | nil => exact ⟨last, s, rfl, h, .refl s⟩
  | cons node rest ih =>
    obtain ⟨kn, hn, hrest⟩ := h
    obtain ⟨l, s1, _, h1, rfl, a1, -, -, S1⟩ := hn.lower hs
    obtain ⟨r, s2, h2, hk, a2⟩ := ih hrest S1
    exact ⟨r, s2, (bind_ok h1).trans h2, hk, a1.trans a2⟩

theorem fit_sequence (hr : Regular S.earlier S.context.functions (.sequence nodes))
    (h : FitAll S nodes .none k) : Fit S (.sequence nodes) k :=
  ⟨hr, fun _ _ hs => FitAll.lowerAll h hs⟩

theorem merge_run (t e : Option Typed) (thenEnd elseEnd : String) (s : State) :
    ∃ r s' code, merge t e thenEnd elseEnd s = .ok r s' ∧ Appends code s s' := by
  unfold merge
  cases t with
  | none => exact ⟨{}, s, [], rfl, .refl s⟩
  | some u =>
    cases e with
    | none => exact ⟨{}, s, [], rfl, .refl s⟩
    | some v =>
      by_cases hk : u.kind = v.kind ∧ u.kind ≠ .none
      · obtain ⟨x, s1, h1, A, -⟩ := emit_spec s
          (.phi (irType u.kind) [(u.operand, thenEnd), (v.operand, elseEnd)]) "ifval" rfl
        refine ⟨{ value := some ⟨.register x (irType u.kind), u.kind⟩ }, s1, _, ?_, A⟩
        simp only [if_pos hk]
        exact (bind_ok h1).trans rfl
      · refine ⟨{}, s, [], ?_, .refl s⟩
        simp only [if_neg hk]
        rfl

/-- A part that may be left out, then without a value. -/
def FitPart (S : Setting) (node : Node) (k : Kind) : Prop :=
  node.isMissing = true ∧ k = .none ∨ node.isMissing = false ∧ Fit S node k

theorem FitPart.lowerPart (h : FitPart S node k) (hs : Site S scope s) :
    ∃ r s', Lowering.lowerPart S.earlier scope node s = .ok r s' ∧ kindOf r.value = k ∧
      Adds S.context s s' := by
  unfold Lowering.lowerPart
  rcases h with ⟨hm, rfl⟩ | ⟨hm, hf⟩
  · rw [if_pos hm]
    exact ⟨{}, s, rfl, rfl, .refl s⟩
  · rw [if_neg (by simp [hm])]
    exact hf.runs scope s hs

theorem fit_branch {condition thenPart elsePart : Node} {kc kt ke : Kind}
    (hr : Regular S.earlier S.context.functions (.branch condition thenPart elsePart))
    (hcond : Fit S condition kc) (hkc : kc = .bool ∨ kc = .int) (hthen : Fit S thenPart kt)
    (helse : FitPart S elsePart ke) :
    Fit S (.branch condition thenPart elsePart) (if kt = ke then kt else .none) := by
  refine ⟨hr, fun scope s hs => ?_⟩
  obtain ⟨l, s1, _, h1, hk1, a1, m1, f1, S1⟩ := hcond.lower hs
  obtain ⟨u, hu⟩ := kindOf_eq_some (r := l.value) (by rw [hk1]; rcases hkc with rfl | rfl <;> simp)
  have F1 := f1.value
  rw [hu] at F1 hk1
  subst hk1
  obtain ⟨holds, s2, code, h2, A2, -⟩ := truth_spec F1 hkc
  rw [← hu] at h2
  have S2 := S1.moves (moves_appends scope S1.poised.active A2) A2.adds
  -- the two ways
  obtain ⟨t, s3, _, h3, rfl, a3, m3, -, S3⟩ := hthen.lower (S2.forked holds)
  obtain ⟨e, s4, h4, rfl, a4⟩ := helse.lowerPart (S2.turned m3 S3)
  obtain ⟨r, s5, code', h5, A5⟩ := merge_run t.value e.value s3.draft.current s4.draft.current
    (s4.passed (.jump s2.joinLabel) s2.joinLabel)
  refine ⟨r, s5, ?_, merge_kind h5, ?_⟩
  · rw [Lowering.lower]
    exact lowerBranch_run h1 h2 h3 h4 h5
  exact a1.trans (A2.adds.trans ((adds_forked s2 holds).trans (a3.trans ((adds_passed _ _ _).trans
    (a4.trans ((adds_passed _ _ _).trans A5.adds))))))

/-! ## Calls -/

theorem lowerArguments_run (function : String) {ps : List String}
    (hlen : nodes.length = ps.length) (h : ∀ node ∈ nodes, ∃ k, k.isNumeric = true ∧ Fit S node k)
    (hs : Site S scope s) :
    ∃ os s', lowerArguments S.earlier scope function ps nodes s = .ok os s' ∧ Adds S.context s s' ∧
      os.map Operand.type = ps.map (fun _ => .double) ∧ Site S scope s' := by
  induction nodes generalizing s ps with
  | nil =>
    cases ps with
    | nil => exact ⟨[], s, rfl, .refl s, rfl, hs⟩
    | cons => simp at hlen
  | cons node rest ih =>
    cases ps with
    | nil => simp at hlen
    | cons p ps =>
      obtain ⟨k, hk, hf⟩ := h node List.mem_cons_self
      obtain ⟨l, s1, _, h1, hkl, a1, -, f1, S1⟩ := hf.lower hs
      obtain ⟨t, ht⟩ := kindOf_eq_some (r := l.value) (by rintro e; rw [← hkl, e] at hk; cases hk)
      have F1 := f1.value
      rw [ht] at F1 hkl
      subst hkl
      obtain ⟨o, s2, code, h2, A2, F2, -⟩ := toFloat_spec F1 (numeric_cases hk)
      have S2 := S1.moves (moves_appends scope S1.poised.active A2) A2.adds
      obtain ⟨os, s3, h3, a3, hos, S3⟩ := ih (by simpa using hlen)
        (fun n hn => h n (List.mem_cons_of_mem _ hn)) S2
      refine ⟨o :: os, s3, ?_, a1.trans (A2.adds.trans a3), ?_, S3⟩
      · rw [lowerArguments, bind_ok h1, ht]
        dsimp only
        have hnumeric : t.kind.isNumeric = true := hk
        rw [if_pos hnumeric]
        exact (bind_ok h2).trans ((bind_ok h3).trans rfl)
      · rw [List.map_cons, hos, F2.type]
        rfl

/-- A function of an earlier submission can be lowered, and the module stays complete. -/
def Capable (earlier : Earlier) (c : Context Slot) (name : String) (d : Definition) : Prop :=
  ∀ s, s.context = c → Tidy s → Slotted s.context s.nextSlot → s.functions.get? name = none →
    ∃ callee s', earlier name d s = .ok callee s' ∧
      ∀ building, Complete c building s → Complete c building s'

theorem fit_call {args : List Node} (hr : Regular S.earlier S.context.functions (.call name args))
    (hd : S.context.functions.get? name = some d) (hlen : args.length = d.params.length)
    (hargs : ∀ arg ∈ args, ∃ k, k.isNumeric = true ∧ Fit S arg k)
    (hcallee : name ∈ S.building ∨ Capable S.earlier S.context name d) :
    Fit S (.call name args) d.returns := by
  refine ⟨hr, fun scope s hs => ?_⟩
  obtain ⟨os, s1, h1, a1, hos, S1⟩ := lowerArguments_run name hlen hargs hs
  -- the function is in the module, or is added to it
  have hcalled : ∃ callee s2, Callee S.earlier name d s1 callee s2 ∧
      ∀ building, Complete S.context building s1 → Complete S.context building s2 := by
    cases hf : s1.functions.get? name with
    | some callee => exact ⟨callee, s1, .inl ⟨hf, rfl⟩, fun _ h => h⟩
    | none =>
      rcases hcallee with hb | hcap
      · obtain ⟨callee, hc⟩ := S1.building name hb
        simp [hf] at hc
      · obtain ⟨callee, s2, h2, hcomplete⟩ := hcap s1 S1.context S1.poised.tidy S1.poised.slotted hf
        exact ⟨callee, s2, .inr ⟨hf, h2⟩, hcomplete⟩
  obtain ⟨callee, s2, h2, hcomplete⟩ := hcalled
  have hdepend : Dependable S.earlier s1.context.functions :=
    S1.context ▸ hr.calls name args (Node.mem_subtrees_self _)
  obtain ⟨I2, -, irName, rfl⟩ := callee_moves hdepend S1.poised (S1.context ▸ hd) h2
  have hmisfit : (Operation.call (Definition.signature d irName) os).misfit? = none := by
    have hfit := argumentMisfit?_append 1 os [] hos
    rwa [List.append_nil] at hfit
  have hcall : ∃ value s3 code,
      callFunction (Definition.signature d irName) d.returns os s2 = .ok value s3 ∧
        Appends code s2 s3 := by
    unfold callFunction
    by_cases hn : d.returns = .none
    · obtain ⟨x, s3, h3, A3, -⟩ := emit_spec s2 _ "" hmisfit
      rw [if_pos hn]
      exact ⟨none, s3, _, (bind_ok h3).trans rfl, A3⟩
    · obtain ⟨x, s3, h3, A3, -⟩ := emit_spec s2 _ "calltmp" hmisfit
      rw [if_neg hn]
      exact ⟨_, s3, _, (bind_ok h3).trans rfl, A3⟩
  obtain ⟨value, s3, code, h3, A3⟩ := hcall
  refine ⟨{ value }, s3, ?_, callFunction_kind _ _ _ _ _ _ h3,
    a1.trans (Adds.trans ⟨I2.context, hcomplete⟩ A3.adds)⟩
  exact lower_call_run (hs.context ▸ hd) hlen h1 h2 h3

end DualEngine.Lowering
