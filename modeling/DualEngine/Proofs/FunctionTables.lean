import DualEngine.Proofs.Fitting

/-! # Tables of pure functions

A function is recorded once its body has been lowered. If the body is pure, it can be lowered again
into any later module: the functions it calls are the ones it called then, and it is of the recorded
kind.
-/
namespace DualEngine.Lowering
open IR Machine

variable {c : Context Slot} {s s' s1 : State} {gs : List Global} {M : Table Signature}
  {name : String} {callee : Signature} {d : Definition} {earlier : Earlier} {r : Lowered}
  {scope : Scope} {node : Node} {building : Set String} {nodes : List Node} {params : List String}

/-! ## Functions put into a module -/

theorem Emitted.blocks_ne_nil (h : Emitted c gs M name callee d earlier s r s1) :
    (s1.ended (returnExit r.value)).draft.blocks ≠ [] := by
  have hp := poised_inFunction h.tidy h.slotted (h.context ▸ h.defined)
  have hF : (s.inFunction name d).context.functions = c.functions := congrArg _ h.context
  obtain ⟨new, m, -, -⟩ := lowers earlier d.body _ _ _ _ (hF ▸ h.regular) hp h.lowered
  exact Lowering.blocks_ne_nil (leaves_ended (m.poised hp).active _)

/-- The state after a function whose draft is `whole`. -/
def State.afterFunction (s : State) (name : String) (d : Definition) (whole : State) : State :=
  { whole.closed (s.functionName name) (Definition.paramNames d) whole.draft.blocks with
    draft := s.draft }

theorem emitFunction_ok
    (h : lower earlier (Definition.bodyScope d) d.body (s.inFunction name d) = .ok r s1)
    (hk : kindOf r.value = d.returns) :
    emitFunction name d (fun inner => lower earlier inner d.body) s =
      .ok (Definition.signature d (s.functionName name))
        (s.afterFunction name d (s1.ended (returnExit r.value))) := by
  have hreturn := returnValue_run r.value s1
  rw [hk] at hreturn
  rw [emitFunction_run]
  exact (bind_ok h).trans ((bind_ok hreturn).trans rfl)

theorem complete_inFunction (h : Complete c building s) (hnew : s.functions.get? name = none)
    (d : Definition) : Complete c (insert name building) (s.inFunction name d) := by
  have hget (f : String) : (s.inFunction name d).functions.get? f =
      if name = f then some (Definition.signature d (s.functionName name))
      else s.functions.get? f := Table.get?_insert ..
  intro f callee hf
  rw [hget] at hf
  split at hf
  · rename_i heq
    exact .inl (heq ▸ Set.mem_insert _ _)
  · rcases h f callee hf with hb | ⟨e, earlier, t, r, t1, hE⟩
    · exact .inl (Set.mem_insert_of_mem _ hb)
    · refine .inr ⟨e, earlier, t, r, t1, hE.mono (List.mem_append_left _ hE.function)
        (fun _ _ hm => List.mem_append_left _ hm) fun g signature hg => ?_⟩
      rw [hget, if_neg]
      · exact hg
      · rintro rfl
        simp [hnew] at hg

/-- When a function gets its blocks, it is no longer under construction. -/
theorem complete_afterFunction (hd : c.functions.get? name = some d) (hc : s.context = c)
    (ht : Tidy s) (hs : Slotted s.context s.nextSlot) (hr : Regular earlier c.functions d.body)
    (hl : lower earlier (Definition.bodyScope d) d.body (s.inFunction name d) = .ok r s1)
    (hsteady : Steady (s.inFunction name d) s1) (hk : kindOf r.value = d.returns)
    (h : Complete c (insert name building) s1) :
    Complete c building (s.afterFunction name d (s1.ended (returnExit r.value))) := by
  have hp := poised_inFunction ht hs (hc ▸ hd)
  have hF : (s.inFunction name d).context.functions = c.functions := congrArg _ hc
  obtain ⟨new, m, -, -⟩ := lowers earlier d.body _ (s.inFunction name d) _ _ (hF ▸ hr) hp hl
  have hevolves := (m.grown hp).evolves
  have hdeclared : Global.function { signature := Definition.signature d (s.functionName name)
                                     params := (openNames (d.params.map fun _ => .double)).1 } ∈
      s1.globals := hevolves.globals (List.mem_append_right _ (List.mem_singleton_self _))
  have hcallee : s1.functions.get? name = some (Definition.signature d (s.functionName name)) :=
    hevolves.functions name _ ((Table.get?_insert ..).trans (if_pos rfl))
  have hglobals : (s.afterFunction name d (s1.ended (returnExit r.value))).globals =
      s1.globals.map (closedGlobal (s.functionName name) (Definition.paramNames d)
        (s1.ended (returnExit r.value)).draft.blocks) := globals_closed _ _ _ _
  have htexts (text contents : String) (hm : Global.text text contents ∈ s1.globals) :
      Global.text text contents ∈
        (s.afterFunction name d (s1.ended (returnExit r.value))).globals := by
    rw [hglobals]
    exact List.mem_map.mpr ⟨_, hm, rfl⟩
  intro f callee hf
  by_cases hfn : f = name
  · -- the function itself
    subst hfn
    obtain rfl : Definition.signature d (s.functionName f) = callee :=
      Option.some.inj (hcallee.symm.trans hf)
    refine .inr ⟨d, earlier, s, r, s1, hd, hc, ht, hs, hr, hl, hsteady, hk, rfl, ?_, htexts,
      fun _ _ h => h⟩
    rw [hglobals]
    exact List.mem_map.mpr ⟨_, hdeclared, congrArg Global.function (if_pos rfl)⟩
  · rcases h f callee hf with hb | ⟨e, earlier', t, r', t1, hE⟩
    · exact .inl (Set.mem_of_mem_insert_of_ne hb hfn)
    · -- the others have blocks, so they are not the one that is declared only
      refine .inr ⟨e, earlier', t, r', t1, hE.mono ?_ htexts fun _ _ h => h⟩
      rw [hglobals]
      refine List.mem_map.mpr ⟨_, hE.function, closedGlobal_of_ne fun hname => ?_⟩
      have heq := (hevolves.tidy hp.tidy).function_eq hE.function hdeclared hname
      exact hE.blocks_ne_nil (congrArg Function.blocks heq)

theorem bodyScope_get? {x : String} (hx : x ∈ d.params) :
    ∃ o, (Definition.bodyScope d).params.get? x = some o :=
  Table.exists_get?_ofList_zip (by rw [List.length_map, (paramNames_spec d).1]) hx

/-- Trees that bind nothing leave the context alone. -/
theorem steady_of_avoids {depth : Nat} (hn : node.Avoids bindingForms)
    (hcalm : Calm s.context.functions) (h : lower (emitEarlier depth) scope node s = .ok r s') :
    Steady s s' := by
  have hall : s.context.FunctionsAvoid bindingForms := fun f e hf => (hcalm f e hf).2.2
  have hmakes := makes_lower (makes_emitEarlier .nothing depth) node (Grant.covers_of_avoids hn) scope
  exact (hmakes.ok (Grant.coversAll_of_avoids hall) h).steady

/-- A function whose body can be lowered inside it can be put into a module. -/
theorem capable_of_fit {depth : Nat} (hd : c.functions.get? name = some d) (hcalm : Calm c.functions)
    (hfit : Fit ⟨emitEarlier depth, c, d.params, {name}⟩ d.body d.returns) :
    Capable (emitEarlier (depth + 1)) c name d := by
  intro s hc ht hs hnew
  have hp := poised_inFunction ht hs (hc ▸ hd)
  have hsite : Site ⟨emitEarlier depth, c, d.params, {name}⟩ (Definition.bodyScope d)
      (s.inFunction name d) := by
    refine ⟨hp, hc, fun x hx => bodyScope_get? hx, fun f hf => ?_⟩
    rw [Set.mem_singleton_iff.mp hf]
    exact ⟨_, (Table.get?_insert ..).trans (if_pos rfl)⟩
  obtain ⟨r, s1, hl, hk, ha⟩ := hfit.runs _ _ hsite
  have hF : (s.inFunction name d).context.functions = c.functions := congrArg _ hc
  have hsteady := steady_of_avoids (hcalm name d hd).2.2 (hF ▸ hcalm) hl
  exact ⟨_, _, emitFunction_ok hl hk, fun building hcomplete =>
    complete_afterFunction hd hc ht hs hfit.regular hl hsteady hk
      (ha.complete _ (complete_inFunction hcomplete hnew d))⟩

/-! ## Bodies lowered again -/

theorem regular_of_isPure {F : Table Definition} (hst : node.isStatement = true)
    (hpure : node.isPure params = true) (hdepend : Dependable earlier F) : Regular earlier F node :=
  ⟨hst, Node.avoids_of_isPure hpure (by decide), fun _ _ _ => hdepend⟩

/-- Where a pure tree was lowered for the first time. -/
def firstSetting (c : Context Slot) (depth : Nat) (params : List String) : Setting :=
  { earlier := emitEarlier depth, context := c, params }

/-- What was lowered for the first time in the context `c` is lowered again in the setting `S`,
where the same functions are at hand. -/
structure Resumes (c : Context Slot) (S : Setting) : Prop where
  calm : Calm c.functions
  dependable : Dependable S.earlier S.context.functions
  functions : ∀ f d, c.functions.get? f = some d → S.context.functions.get? f = some d ∧
    (f ∈ S.building ∨ Capable S.earlier S.context f d)

variable {depth : Nat} {S : Setting}

theorem Site.pure_step (hcalm : Calm c.functions)
    (hs : Site (firstSetting c depth params) scope s) (hst : node.isStatement = true)
    (hpure : node.isPure params = true) (h : lower (emitEarlier depth) scope node s = .ok r s') :
    Site (firstSetting c depth params) scope s' ∧ r.Fits s'.used ∧ ∃ new, Moves scope s s' new := by
  have hcontext : s.context = c := hs.context
  have hr : Regular (emitEarlier depth) s.context.functions node :=
    regular_of_isPure hst hpure (hcontext ▸ dependable_emitEarlier hcalm depth)
  obtain ⟨new, m, f, -⟩ := lowers _ node scope s r s' hr hs.poised h
  have hsteady := steady_of_avoids (Node.avoids_of_isPure hpure (by decide)) (hcontext ▸ hcalm) h
  refine ⟨⟨m.poised hs.poised, hsteady.context.trans hs.context, hs.params, ?_⟩, f, new, m⟩
  rintro f ⟨⟩

/-- If the tree could be lowered for the first time, it can be again. -/
def Refits (c : Context Slot) (depth : Nat) (S : Setting) (node : Node) : Prop :=
  ∀ scope s r s', Site (firstSetting c depth S.params) scope s → node.isStatement = true →
    node.isPure S.params = true → lower (emitEarlier depth) scope node s = .ok r s' →
    Fit S node (kindOf r.value)

theorem refits_all (hS : Resumes c S) (ih : ∀ node ∈ nodes, Refits c depth S node)
    (hst : ∀ node ∈ nodes, node.isStatement = true)
    (hpure : ∀ node ∈ nodes, node.isPure S.params = true)
    (hs : Site (firstSetting c depth S.params) scope s) {last : Lowered}
    (h : lowerAll (emitEarlier depth) scope nodes last s = .ok r s') :
    FitAll S nodes (kindOf last.value) (kindOf r.value) := by
  induction nodes generalizing s last with
  | nil =>
    cases h
    rfl
  | cons node rest ihr =>
    obtain ⟨l, s1, h1, h2⟩ := lowerAll_cons h
    have hn := ih node List.mem_cons_self _ _ _ _ hs (hst node List.mem_cons_self)
      (hpure node List.mem_cons_self) h1
    obtain ⟨hs1, -⟩ := hs.pure_step hS.calm (hst node List.mem_cons_self)
      (hpure node List.mem_cons_self) h1
    exact ⟨_, hn, ihr (fun n hm => ih n (List.mem_cons_of_mem _ hm))
      (fun n hm => hst n (List.mem_cons_of_mem _ hm))
      (fun n hm => hpure n (List.mem_cons_of_mem _ hm)) hs1 h2⟩

theorem refits_arguments (hS : Resumes c S) (ih : ∀ node ∈ nodes, Refits c depth S node)
    (hst : ∀ node ∈ nodes, node.isStatement = true)
    (hpure : ∀ node ∈ nodes, node.isPure S.params = true)
    (hs : Site (firstSetting c depth S.params) scope s) {function : String} {ps : List String}
    (hlen : nodes.length = ps.length) {os : List Operand}
    (h : lowerArguments (emitEarlier depth) scope function ps nodes s = .ok os s') :
    ∀ node ∈ nodes, ∃ k, k.isNumeric = true ∧ Fit S node k := by
  induction nodes generalizing s ps os with
  | nil => simp
  | cons node rest ihr =>
    cases ps with
    | nil => simp at hlen
    | cons p ps =>
      obtain ⟨l, s1, t, o, s2, os', h1, hl, hk, h2, h3, rfl⟩ := lowerArguments_cons h
      have hn := ih node List.mem_cons_self _ _ _ _ hs (hst node List.mem_cons_self)
        (hpure node List.mem_cons_self) h1
      obtain ⟨hs1, f1, -⟩ := hs.pure_step hS.calm (hst node List.mem_cons_self)
        (hpure node List.mem_cons_self) h1
      have F1 := f1.value
      rw [hl] at F1 hn
      obtain ⟨o', s2', code, h2', A, -⟩ := toFloat_spec F1 (numeric_cases hk)
      obtain rfl : s2' = s2 := (EStateM.Result.ok.inj (h2'.symm.trans h2)).2
      have hs2 := hs1.moves (moves_appends scope hs1.poised.active A) A.adds
      refine List.forall_mem_cons.mpr ⟨⟨_, hk, hn⟩, ?_⟩
      exact ihr (fun n hm => ih n (List.mem_cons_of_mem _ hm))
        (fun n hm => hst n (List.mem_cons_of_mem _ hm))
        (fun n hm => hpure n (List.mem_cons_of_mem _ hm)) hs2 (by simpa using hlen) h3

theorem refits_branch (hS : Resumes c S) {condition thenPart elsePart : Node}
    (hc : Refits c depth S condition) (ht : Refits c depth S thenPart)
    (he : Refits c depth S elsePart) : Refits c depth S (.branch condition thenPart elsePart) := by
  intro scope s r s' hs hst hpure h
  have hr := regular_of_isPure hst hpure hS.dependable
  have hcs := Node.isStatement_child hst (by simp [Node.children] : condition ∈ _)
  have hts := Node.isStatement_child hst (by simp [Node.children] : thenPart ∈ _)
  have hes := Node.isStatement_child hst (by simp [Node.children] : elsePart ∈ _)
  simp only [Node.isPure, Bool.and_eq_true, Bool.or_eq_true] at hpure
  obtain ⟨⟨hcp, htp⟩, hep⟩ := hpure
  obtain ⟨l, s1, holds, s2, t, s3, e, s4, h1, h2, h3, h4, h5⟩ := lowerBranch_inv h
  have hcond := hc _ _ _ _ hs hcs hcp h1
  obtain ⟨S1, f1, -⟩ := hs.pure_step hS.calm hcs hcp h1
  obtain ⟨-, code, A2⟩ := truth_fits f1.value h2
  obtain ⟨u, hu, hku⟩ := truth_inv h2
  have S2 := S1.moves (moves_appends scope S1.poised.active A2) A2.adds
  have hthen := ht _ _ _ _ (S2.forked holds) hts htp h3
  obtain ⟨S3, -, new, m3⟩ := (S2.forked holds).pure_step hS.calm hts htp h3
  have helse : FitPart S elsePart (kindOf e.value) := by
    split at h4
    · rename_i hm
      cases h4
      exact .inl ⟨hm, rfl⟩
    · rename_i hm
      exact .inr ⟨by simpa using hm, he _ _ _ _ (S2.turned m3 S3) hes (hep.resolve_left hm) h4⟩
  rw [merge_kind h5]
  refine fit_branch hr hcond ?_ hthen helse
  rw [hu]
  exact hku

theorem refits_call (hS : Resumes c S) {args : List Node} (ih : ∀ arg ∈ args, Refits c depth S arg) :
    Refits c depth S (.call name args) := by
  intro scope s r s' hs hst hpure h
  have hr := regular_of_isPure hst hpure hS.dependable
  obtain ⟨d, os, s1, callee, s2, hd, hlen, h1, -, value, h3, rfl⟩ := lower_call h
  have hcontext : s.context = c := hs.context
  rw [hcontext] at hd
  obtain ⟨hd', hcallee⟩ := hS.functions name d hd
  rw [callFunction_kind _ _ _ _ _ _ h3]
  exact fit_call hr hd' hlen (refits_arguments hS ih (fun _ hm => Node.isStatement_child hst hm)
    ((Node.arePure_iff _).mp hpure) hs hlen h1) hcallee

theorem refits (hS : Resumes c S) (node : Node) : Refits c depth S node := by
  induction node using Node.induction with
  | h node ih =>
  intro scope s r s' hs hst hpure h
  have hr := regular_of_isPure hst hpure hS.dependable
  cases node with
  | sequence nodes =>
    exact fit_sequence hr (refits_all hS ih (fun _ hm => Node.isStatement_child hst hm)
      ((Node.arePure_iff _).mp hpure) hs h)
  | branch condition thenPart elsePart =>
    exact refits_branch hS (ih condition (by simp [Node.children]))
      (ih thenPart (by simp [Node.children])) (ih elsePart (by simp [Node.children]))
      scope s r s' hs hst hpure h
  | call name args => exact refits_call hS ih scope s r s' hs hst hpure h
  | number n =>
    cases h
    exact fit_number n
  | float x =>
    cases h
    exact fit_float x
  | boolean b =>
    cases h
    exact fit_boolean b
  | string t =>
    obtain ⟨o, -, rfl⟩ := lower_string h
    exact fit_string t
  | identifier x =>
    have hx : x ∈ S.params := by simpa [Node.isPure] using hpure
    obtain ⟨t, h1, rfl⟩ := lower_identifier h
    obtain ⟨o, ho⟩ := hs.params x hx
    rw [loadName_param ho] at h1
    cases h1
    exact fit_parameter hx
  | binary left op right =>
    simp only [Node.isPure, Bool.and_eq_true] at hpure
    have hls := Node.isStatement_child hst (by simp [Node.children] : left ∈ _)
    have hrs := Node.isStatement_child hst (by simp [Node.children] : right ∈ _)
    obtain ⟨hop, l, s1, r', s2, t, h1, h2, h3, rfl⟩ := lower_binary h
    obtain ⟨S1, -⟩ := hs.pure_step hS.calm hls hpure.1 h1
    exact fit_binary hr hop (ih left (by simp [Node.children]) _ _ _ _ hs hls hpure.1 h1)
      (ih right (by simp [Node.children]) _ _ _ _ S1 hrs hpure.2 h2)
      (arithmetic_kind _ _ _ _ _ _ h3)
  | comparison left op right =>
    simp only [Node.isPure, Bool.and_eq_true] at hpure
    have hls := Node.isStatement_child hst (by simp [Node.children] : left ∈ _)
    have hrs := Node.isStatement_child hst (by simp [Node.children] : right ∈ _)
    obtain ⟨hop, l, s1, r', s2, t, h1, h2, h3, rfl⟩ := lower_comparison h
    obtain ⟨S1, -⟩ := hs.pure_step hS.calm hls hpure.1 h1
    obtain ⟨tl, tr, hl, hr', hcomparable⟩ := comparison_inv h3
    have hleft := ih left (by simp [Node.children]) _ _ _ _ hs hls hpure.1 h1
    have hright := ih right (by simp [Node.children]) _ _ _ _ S1 hrs hpure.2 h2
    rw [hl] at hleft
    rw [hr'] at hright
    have hk : kindOf (some t) = .bool := comparison_kind _ _ _ _ _ _ h3
    rw [hk]
    exact fit_comparison hr hop hleft hright hcomparable
  | _ => cases hpure

/-! ## Tables that are built by definitions -/

/-- The body was lowered in a context with the functions `F`, and has the declared kind. -/
def WasLowered (F : Table Definition) (d : Definition) : Prop :=
  ∃ c depth s r s', c.functions = F ∧
    Site (firstSetting c depth d.params) (Definition.bodyScope d) s ∧
    lower (emitEarlier depth) (Definition.bodyScope d) d.body s = .ok r s' ∧
    kindOf r.value = d.returns

/-- Tables of pure functions under different names, each recorded when its body was lowered. -/
inductive Built : Table Definition → Prop
  | empty : Built {}
  | define {F : Table Definition} {name : String} {d : Definition} (h : Built F)
      (hnew : F.get? name = none) (hst : d.body.isStatement = true)
      (hpure : d.body.isPure d.params = true) (hlowered : WasLowered (F.insert name d) d) :
      Built (F.insert name d)

variable {F : Table Definition}

theorem Built.pure (h : Built F) (hd : F.get? name = some d) :
    d.body.isStatement = true ∧ d.body.isPure d.params = true := by
  induction h with
  | empty => cases hd
  | define h hnew hst hpure _ ih =>
    rw [Table.get?_insert] at hd
    split at hd
    · cases hd
      exact ⟨hst, hpure⟩
    · exact ih hd

theorem Built.calm (h : Built F) : Calm F := fun _ _ hd =>
  have hpure := h.pure hd
  ⟨hpure.1, Node.avoids_of_isPure hpure.2 (by decide), Node.avoids_of_isPure hpure.2 (by decide)⟩

/-- All functions of such a table can be lowered in a context that has them, and calls nest at most
as deep as there are functions. -/
theorem Built.capable (h : Built F) (hcalm : Calm c.functions) (hlen : F.entries.length ≤ depth)
    (hsub : ∀ f e, F.get? f = some e → c.functions.get? f = some e) (hd : F.get? name = some d) :
    Capable (emitEarlier depth) c name d := by
  induction h generalizing depth name d with
  | empty => cases hd
  | @define F g e h hnew hst hpure hlowered ih =>
    rw [Table.length_insert hnew] at hlen
    have hold (f : String) (e' : Definition) (hf : F.get? f = some e') :
        c.functions.get? f = some e' := by
      refine hsub f e' ?_
      rw [Table.get?_insert, if_neg]
      · exact hf
      · rintro rfl
        simp [hnew] at hf
    rw [Table.get?_insert] at hd
    split at hd
    · -- the newest function calls itself and older ones
      rename_i heq
      subst heq
      obtain rfl : e = d := Option.some.inj hd
      obtain ⟨depth, rfl⟩ : ∃ k, depth = k + 1 := ⟨depth - 1, by omega⟩
      obtain ⟨c₀, depth0, s, r, s', hF, hs, hl, hk⟩ := hlowered
      have hS : Resumes c₀ ⟨emitEarlier depth, c, e.params, {g}⟩ := by
        refine ⟨hF ▸ (Built.define h hnew hst hpure ⟨c₀, depth0, s, r, s', hF, hs, hl, hk⟩).calm,
          dependable_emitEarlier hcalm depth, fun f e' hf => ?_⟩
        rw [hF] at hf
        refine ⟨hsub f e' hf, ?_⟩
        rw [Table.get?_insert] at hf
        split at hf
        · rename_i hgf
          exact .inl hgf.symm
        · exact .inr (ih (by omega) hold hf)
      have hfit := refits hS e.body _ _ _ _ hs hst hpure hl
      rw [hk] at hfit
      exact capable_of_fit (hsub g e ((Table.get?_insert ..).trans (if_pos rfl))) hcalm hfit
    · exact ih (by omega) hold hd

end DualEngine.Lowering
