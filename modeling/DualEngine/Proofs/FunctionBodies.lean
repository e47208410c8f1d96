import DualEngine.Proofs.ReturnKinds
import DualEngine.Proofs.Submissions

/-! # Functions of a module

A function is lowered while another one waits half built. Afterwards the module has only grown, and
a call of the function runs its body with the arguments in registers.
-/
namespace DualEngine.Lowering
open IR Machine

variable {s s' s1 : State} {name : String} {d : Definition} {earlier : Earlier} {r : Lowered}
  {callee : Signature} {F : Table Definition} {f : Function} {value : Option Typed}

/-! ## The start of a body -/

/-- The state in which the body of a function is lowered. -/
def State.inFunction (s : State) (name : String) (d : Definition) : State :=
  { s.declared name d with draft := Definition.draft d }

theorem paramNames_spec (d : Definition) :
    (Definition.paramNames d).length = d.params.length ∧ (Definition.paramNames d).Nodup ∧
      Definition.paramNames d ⊆ (Definition.draft d).names.used := by
  obtain ⟨hlen, hnodup, -, hgiven, -⟩ :=
    Names.registerAll_spec ((openNames (d.params.map fun _ => .double)).2.register "entry").2 d.params
  exact ⟨hlen, hnodup, hgiven⟩

theorem entry_used (d : Definition) :
    (Definition.draft d).current ∈ (Definition.draft d).names.used := by
  obtain ⟨-, -, -, -, hkept⟩ :=
    Names.registerAll_spec ((openNames (d.params.map fun _ => .double)).2.register "entry").2 d.params
  refine hkept ?_
  rw [Names.used_register]
  exact List.mem_cons_self

theorem block?_inFunction (s : State) (name : String) (d : Definition) (label : String) :
    (s.inFunction name d).block? label =
      if (Definition.draft d).current = label then some { label } else none := by
  show blockAt [{ label := (Definition.draft d).current }] label = _
  unfold blockAt
  by_cases h : (Definition.draft d).current = label
  · subst h
    simp
  · simp [h]

theorem starts_inFunction (s : State) (name : String) (d : Definition) :
    Starts (s.inFunction name d) := by
  show (s.inFunction name d).block? (Definition.draft d).current = _
  rw [block?_inFunction, if_pos rfl]
  rfl

theorem housed_inFunction (s : State) (name : String) (d : Definition) :
    Housed (s.inFunction name d) := by
  intro k b _ hb i hi
  rw [block?_inFunction] at hb
  split at hb
  · cases hb
    cases hi
  · cases hb

/-- The function gets a name that no global had. -/
theorem functionName_fresh (ht : Tidy s) (name : String) {x : Global} (hx : x ∈ s.globals)
    (hn : x.isNamed = true) : x.name ≠ s.functionName name := by
  intro heq
  have hused := ht.known x hx hn
  rw [heq] at hused
  exact s.globalNames.register_fresh ("fn_" ++ name) hused

theorem tidy_declared (ht : Tidy s) (hname : s.context.getFunction? name = some d) :
    Tidy (s.declared name d) := by
  refine ⟨?_, ?_, ?_, ?_⟩
  · show ((s.globals ++ [_]).filter Global.isNamed |>.map Global.name).Nodup
    rw [List.filter_append, List.map_append]
    refine List.nodup_append.mpr ⟨ht.distinct, List.nodup_singleton _, ?_⟩
    rintro a ha b hb rfl
    obtain ⟨x, hx, rfl⟩ := List.mem_map.mp ha
    obtain ⟨hx, hn⟩ := List.mem_filter.mp hx
    simp only [List.filter_cons, Global.isNamed, if_true, List.filter_nil, List.map_singleton,
      List.mem_singleton] at hb
    exact functionName_fresh ht name hx hn hb
  · intro x hx hn
    show x.name ∈ (s.globalNames.register ("fn_" ++ name)).2.used
    rw [Names.used_register]
    rcases List.mem_append.mp hx with hx | hx
    · exact List.mem_cons_of_mem _ (ht.known x hx hn)
    · rw [List.mem_singleton.mp hx]
      exact List.mem_cons_self
  · intro text contents hx
    rcases List.mem_append.mp hx with hx | hx
    · exact ht.texts text contents hx
    · simp at hx
  · intro f e signature he hf
    have hinsert : (s.functions.insert name (Definition.signature d (s.functionName name))).get? f =
        some signature := hf
    rw [Table.get?_insert] at hinsert
    split at hinsert
    · rename_i heq
      subst heq
      obtain rfl : e = d := Option.some.inj (he.symm.trans hname)
      exact ⟨_, (Option.some.inj hinsert).symm⟩
    · exact ht.linked f e signature he hinsert

theorem poised_inFunction (ht : Tidy s) (hs : Slotted s.context s.nextSlot)
    (hname : s.context.getFunction? name = some d) :
    Poised (Definition.bodyScope d) (s.inFunction name d) := by
  have htidy := tidy_declared ht hname
  refine ⟨⟨_, starts_inFunction s name d, rfl⟩, fun label hb => ?_,
    ⟨htidy.distinct, htidy.known, htidy.texts, htidy.linked⟩, hs, fun x o ho => ?_, ?_⟩
  · rw [block?_inFunction] at hb
    split at hb
    · rename_i heq
      exact heq ▸ entry_used d
    · cases hb
  · have hmem := List.of_mem_zip (Table.mem_of_get?_ofList ho)
    obtain ⟨p, hp, rfl⟩ := List.mem_map.mp hmem.2
    exact ⟨rfl, (paramNames_spec d).2.2 hp⟩
  · rintro l ⟨⟩

/-! ## The end of a body -/

/-- Conversion adds code at most. -/
theorem coerce_adds {target : Kind} {o : Option Operand} (hv : ResultFits s.used value)
    (h : coerce value target s = .ok o s') : ∃ code, Appends code s s' := by
  by_cases hk : target = .none
  · subst hk
    cases value with
    | none =>
      cases h
      exact ⟨[], .refl s⟩
    | some t =>
      simp only [coerce] at h
      split at h
      · cases h
        exact ⟨[], .refl s⟩
      · cases h
        exact ⟨[], .refl s⟩
  · cases value with
    | none =>
      obtain ⟨o', s1, code, h1, A, -⟩ := zero_spec s hk
      have h : zero target s = .ok o s' := h
      rw [h1] at h
      cases h
      exact ⟨code, A⟩
    | some t =>
      obtain ⟨o', s1, code, h1, A, -⟩ := coerce_spec hv hk
      rw [h1] at h
      cases h
      exact ⟨code, A⟩

/-- A function ends by returning its value. -/
theorem returnValue_inv {kind : Kind} (hv : ResultFits s.used value)
    (h : returnValue value kind s = .ok ⟨⟩ s') :
    ∃ t code exit, Appends code s t ∧ s' = t.ended exit := by
  obtain ⟨o, t, h1, h2⟩ := bind_eq_ok.mp h
  obtain ⟨code, A⟩ := coerce_adds hv h1
  cases o with
  | none | some operand =>
    cases h2
    exact ⟨t, code, _, A, rfl⟩

/-- How a function ends whose body has the declared kind. -/
def returnExit : Option Typed → Terminator
  | some t => .ret t.operand
  | none => .retVoid

theorem returnValue_run (value : Option Typed) (s : State) :
    returnValue value (kindOf value) s = .ok ⟨⟩ (s.ended (returnExit value)) := by
  unfold returnValue
  rw [bind_ok (coerce_kindOf value s)]
  cases value <;> rfl

/-! ## Functions of earlier submissions -/

theorem tidy_closed (ht : Tidy s) (name : String) (params : List String) (blocks : List Block) :
    Tidy (s.closed name params blocks) := by
  refine ⟨?_, fun x hx hn => ?_, fun text contents hx => ?_, ht.linked⟩
  · have hfilter : ((s.closed name params blocks).globals.filter Global.isNamed).map Global.name =
        (s.globals.filter Global.isNamed).map Global.name := by
      rw [globals_closed, List.filter_map, List.map_map]
      refine congrArg₂ List.map (funext fun x => name_closedGlobal name params blocks x) ?_
      exact List.filter_congr fun x _ => isNamed_closedGlobal name params blocks x
    rw [hfilter]
    exact ht.distinct
  · rw [globals_closed] at hx
    obtain ⟨y, hy, rfl⟩ := List.mem_map.mp hx
    rw [isNamed_closedGlobal] at hn
    rw [name_closedGlobal]
    exact ht.known y hy hn
  · rw [globals_closed] at hx
    obtain ⟨y, hy, heq⟩ := List.mem_map.mp hx
    cases y with
    | text =>
      cases heq
      exact ht.texts text contents hy
    | _ => cases heq

/-- Whatever was in the module stays there when a new function gets its blocks. -/
theorem globals_kept (ht : Tidy s) (name : String) {x : Global} (hx : x ∈ s.globals)
    (params : List String) (blocks : List Block) {t : State} (hsub : s.globals ⊆ t.globals) :
    x ∈ (t.closed (s.functionName name) params blocks).globals := by
  rw [globals_closed]
  refine List.mem_map.mpr ⟨x, hsub hx, ?_⟩
  cases hn : x.isNamed with
  | true => exact closedGlobal_of_ne (functionName_fresh ht name hx hn)
  | false => cases x <;> first | rfl | cases hn

/-- Lowering a function that binds nothing only adds to the module. -/
theorem emitFunction_imports (ht : Tidy s) (hs : Slotted s.context s.nextSlot)
    (hname : s.context.functions.get? name = some d) (hnew : s.functions.get? name = none)
    (hr : Regular earlier s.context.functions d.body) (hsteady : Steady s s')
    (h : emitFunction name d (fun inner => lower earlier inner d.body) s = .ok callee s') :
    Imports s s' ∧ s'.functions.get? name = some callee := by
  obtain ⟨b, s1, s2, h1, h2, rfl, rfl⟩ := emitFunction_inv h
  have hp : Poised (Definition.bodyScope d) (s.inFunction name d) := poised_inFunction ht hs hname
  obtain ⟨new, m, f, -⟩ := lowers earlier d.body _ (s.inFunction name d) _ _ hr hp h1
  obtain ⟨t, code, exit, A, rfl⟩ := returnValue_inv f.value h2
  have hevolves := (m.grown hp).evolves
  have hglobals : s.globals ⊆ t.globals := fun x hx =>
    A.globals (hevolves.globals (List.mem_append_left _ hx))
  have hfunctions (f : String) (signature : Signature)
      (hf : (s.declared name d).functions.get? f = some signature) :
      t.functions.get? f = some signature :=
    A.functions ▸ hevolves.functions f signature hf
  refine ⟨⟨rfl, hsteady.context, hsteady.created, hsteady.nextSlot, fun f signature hf => ?_,
    fun x hx => globals_kept ht name hx _ _ hglobals, fun _ => ?_⟩, ?_⟩
  · refine hfunctions f signature ?_
    have hne : name ≠ f := by
      rintro rfl
      simp [hnew] at hf
    exact (Table.get?_insert ..).trans ((if_neg hne).trans hf)
  · have htidy := A.tidy (hevolves.tidy hp.tidy)
    have hended : Tidy (t.ended exit) := ⟨htidy.distinct, htidy.known, htidy.texts, htidy.linked⟩
    have hclosed := tidy_closed hended (s.functionName name) (Definition.paramNames d)
      (t.ended exit).draft.blocks
    exact ⟨hclosed.distinct, hclosed.known, hclosed.texts, hclosed.linked⟩
  · exact hfunctions name _ ((Table.get?_insert ..).trans (if_pos rfl))

/-- The bodies of the functions are trees of the parser that neither draw nor bind. -/
def Calm (F : Table Definition) : Prop :=
  ∀ name d, F.get? name = some d → d.body.isStatement = true ∧ d.body.Avoids ["Random"] ∧
    d.body.Avoids bindingForms

theorem Calm.regular (h : Calm F) (hd : F.get? name = some d) (he : Dependable earlier F) :
    Regular earlier F d.body := by
  obtain ⟨hst, hrandom, hbind⟩ := h name d hd
  refine ⟨hst, fun t ht hm => ?_, fun _ _ _ => he⟩
  rcases List.mem_cons.mp hm with hm | hm
  · exact hrandom t ht (by rw [hm]; exact List.mem_cons_self)
  · exact hbind t ht (by rw [List.mem_singleton.mp hm]; exact List.mem_cons_of_mem _ List.mem_cons_self)

/-- Calls can rely on functions that bind nothing. -/
theorem dependable_emitEarlier (h : Calm F) (depth : Nat) : Dependable (emitEarlier depth) F := by
  induction depth with
  | zero =>
    intro name d s callee s' _ _ _ _ _ he
    cases he
  | succ depth ih =>
    intro name d s callee s' hF ht hs hd hnew he
    subst hF
    have hcalm : s.context.FunctionsAvoid bindingForms := fun f e hf => (h f e hf).2.2
    have hmakes := makes_emitEarlier .nothing (depth + 1) name d
      (Grant.covers_of_avoids (h name d hd).2.2)
    have hsteady := (hmakes.ok (Grant.coversAll_of_avoids hcalm) he).steady
    exact emitFunction_imports ht hs hd hnew (h.regular hd ih) hsteady he

/-! ## Calls of functions -/

/-- The function for a definition, with the blocks of a draft. -/
def functionOf (callee : Signature) (d : Definition) (whole : State) : Function where
  signature := callee
  params := Definition.paramNames d
  blocks := whole.draft.blocks

/-- The function `callee` of a module with the globals `gs` and the functions `M` was lowered from
the definition of `name` in the context `c`, and its body has the declared kind. -/
structure Emitted (c : Context Slot) (gs : List Global) (M : Table Signature) (name : String)
    (callee : Signature) (d : Definition) (earlier : Earlier) (s : State) (r : Lowered)
    (s1 : State) : Prop where
  defined : c.functions.get? name = some d
  context : s.context = c
  tidy : Tidy s
  slotted : Slotted s.context s.nextSlot
  regular : Regular earlier c.functions d.body
  lowered : lower earlier (Definition.bodyScope d) d.body (s.inFunction name d) = .ok r s1
  steady : Steady (s.inFunction name d) s1
  kind : kindOf r.value = d.returns
  signature : callee = Definition.signature d (s.functionName name)
  function : Global.function (functionOf callee d (s1.ended (returnExit r.value))) ∈ gs
  texts : ∀ text contents, Global.text text contents ∈ s1.globals → Global.text text contents ∈ gs
  functions : ∀ f signature, s1.functions.get? f = some signature → M.get? f = some signature

variable {c : Context Slot} {gs : List Global} {M : Table Signature} {image : Image}
  {st st' : Evaluator.State} {m : Machine.State} {before : String} {u : Value} {n : Nat}

/-- The arguments of a call are in the registers of the parameters. -/
theorem accords_call (xs : List Float) (hlen : xs.length = d.params.length) {D : Bindings}
    (h : Concurs image gs D F before st m) :
    Accords image gs D F (Definition.bodyScope d).params before (Table.ofList (d.params.zip xs)) st
      ⟨{ registers := Table.ofList ((Definition.paramNames d).zip (xs.map .double)) }, m⟩ := by
  obtain ⟨hparams, hnodup, -⟩ := paramNames_spec d
  -- parameters, registers and arguments come from one list of pairs
  set pairs := (Definition.paramNames d).zip xs with hpairs
  have hfst : Definition.paramNames d = pairs.map Prod.fst :=
    (List.map_fst_zip (by omega)).symm
  have hsnd : xs = pairs.map Prod.snd := (List.map_snd_zip (by omega)).symm
  have hscope (x : String) : (Definition.bodyScope d).params.get? x =
      ((Table.ofList (d.params.zip pairs)).get? x).map fun p => .register p.1 .double := by
    show (Table.ofList (d.params.zip ((Definition.paramNames d).map _))).get? x = _
    rw [hfst, List.map_map, Table.get?_ofList_zip_map]
    rfl
  have hframe (x : String) : (Table.ofList (d.params.zip xs)).get? x =
      ((Table.ofList (d.params.zip pairs)).get? x).map Prod.snd := by
    rw [hsnd, Table.get?_ofList_zip_map]
  refine ⟨h, fun x y hy => ?_, fun x hx => ?_⟩
  · rw [hframe, Option.map_eq_some_iff] at hy
    obtain ⟨⟨p, y'⟩, hp, rfl⟩ := hy
    refine ⟨.register p .double, by rw [hscope, hp]; rfl, gives_register ?_⟩
    have hmem : (p, y') ∈ pairs := (List.of_mem_zip (Table.mem_of_get?_ofList hp)).2
    refine Table.get?_ofList_of_mem ?_ ?_
    · rw [List.map_fst_zip (by simp; omega)]
      exact hnodup
    · rw [List.zip_map_right]
      exact List.mem_map.mpr ⟨_, hmem, rfl⟩
  · rw [hframe, Option.map_eq_none_iff] at hx
    rw [hscope, hx]
    rfl

/-- A call of a function of the module starts with its first block. -/
theorem invokeWith_run (fuel : Nat) {label : String} {args : List Word}
    (hf : image.function? callee.name = some f) (hl : f.blocks.head?.map Block.label = some label) :
    invokeWith image fuel callee args =
      execute image fuel f label "" { registers := Table.ofList (f.params.zip args) } := by
  unfold invokeWith
  rw [hf]
  dsimp only
  cases hb : f.blocks with
  | nil => simp [hb] at hl
  | cons first rest =>
    rw [hb] at hl
    rw [← Option.some.inj hl]

/-- What a function returns whose body has the declared kind. -/
theorem returnExit_ends {a b : Snap} {ran : Bool} {v : Value} {used : List String}
    (hr : r.Fits used) (hkind : kindOf r.value = d.returns) (hret : Returned image a r v ran)
    (hplain : d.body.plain = true) (htells : Tells d.body r v u ran) (hq : Quiet used a b)
    (previous label : String) :
    ∃ w, Ends image f ⟨previous, label, [], some (returnExit r.value), b⟩ (.ok w b.state) ∧
      GivesBack image b.memory w (u.coerce d.returns) := by
  cases hv : r.value with
  | none =>
    rw [hv] at hkind
    refine ⟨none, ends_retVoid, ?_⟩
    show u.coerce d.returns = .none
    rw [← hkind]
    cases u <;> rfl
  | some t =>
    have hcarries := hret.value
    rw [hv] at hcarries hkind
    have hfits := hr.value
    rw [hv] at hfits
    obtain ⟨hk, w, hg, hstands⟩ := Carries.keep hcarries hfits hq
    obtain rfl : u = v := by
      have hvalue := htells.value (Node.telling_of_plain hplain) (.inl (by rw [hv]; rfl))
      rwa [htells.plain hplain] at hvalue
    have hreturns : u.kind = d.returns := hk.symm.trans hkind
    refine ⟨some w, ends_ret hg, ?_⟩
    rw [coerce_of_kind_eq hreturns]
    exact ⟨hk ▸ hr.kind t hv, hstands⟩

/-- A function that was lowered from its definition does what evaluating the body does, if the
functions that it calls do. -/
theorem Emitted.answers (h : Emitted c gs M name callee d earlier s r s1)
    (hplain : d.body.plain = true)
    (hfun : image.function? callee.name =
      some (functionOf callee d (s1.ended (returnExit r.value))))
    (ih : ∀ k < n, Answers image gs c.bindings c.functions M k) {xs : List Float}
    (hlen : xs.length = d.params.length)
    (heval : Evaluator.eval n (Table.ofList (d.params.zip xs)) d.body st = .ok u st')
    (hport : Evaluator.Portably n (Table.ofList (d.params.zip xs)) d.body st)
    (hconcurs : Concurs image gs c.bindings c.functions before st m) :
    ∃ w m' k, (∀ fuel, k ≤ fuel → invokeWith image fuel callee (xs.map .double) m = .ok w m') ∧
      Concurs image gs c.bindings c.functions before st' m' ∧ m.memory.Extends m'.memory ∧
      GivesBack image m'.memory w (u.coerce d.returns) := by
  have hF : (s.inFunction name d).context.functions = c.functions := congrArg _ h.context
  have hp := poised_inFunction h.tidy h.slotted (h.context ▸ h.defined)
  obtain ⟨new, hm, hfits, -⟩ := lowers earlier d.body _ _ _ _ (hF ▸ h.regular) hp h.lowered
  obtain rfl : new = [] := by
    have hcreated := hm.declares.created
    rw [h.steady.created] at hcreated
    simpa using hcreated
  -- what is left to do after the body
  have hactive := (hm.poised hp).active
  have hend : Settles [] (s1.passed (returnExit r.value) s1.draft.current)
      (s1.ended (returnExit r.value)) := .refl _ _
  have hset := Settles.of_passed hactive hend
  have hbound : ∀ x sym, s1.context.get? x = some sym → c.bindings x sym := by
    rw [h.steady.context]
    exact fun x sym hx => h.context ▸ hx
  have hpath : Path [] (Definition.bodyScope d) (s.inFunction name d) s1
      (s1.ended (returnExit r.value)) c.bindings :=
    ⟨hp, housed_inFunction s name d, ⟨[], hm, List.nodup_nil, by simp⟩, hbound, hset, by simp⟩
  have hworld : World (functionOf callee d (s1.ended (returnExit r.value)))
      (s1.ended (returnExit r.value)) gs c.bindings M :=
    ⟨rfl, h.texts, h.functions, h.context ▸ h.slotted.proper,
      fun x sym sym' hx hx' => Option.some.inj (hx.symm.trans hx')⟩
  have hplaces := places_start (starts_inFunction s name d) rfl hpath.start
    ⟨{ registers := Table.ofList ((Definition.paramNames d).zip (xs.map .double)) }, m⟩
  -- the body, then the return
  obtain ⟨previous, b, v, ran, hfollows, hag, hret, htells⟩ :=
    simulates hworld n d.body "" h.lowered (hF ▸ h.regular)
      (fun _ _ _ => ⟨fun f e e' he he' => by
        rw [hF, he] at he'
        exact (Option.some.inj he').symm, ih⟩)
      hpath heval hport (accords_call xs hlen hconcurs) hplaces
  obtain ⟨b', hleads, hquiet, -⟩ := leads_exit image
    (functionOf callee d (s1.ended (returnExit r.value))) (leaves_ended hactive _) (.refl _ _)
    List.not_mem_nil hpath.housed_end hfollows.places previous
  obtain ⟨w, hends, hback⟩ := returnExit_ends hfits h.kind hret hplain htells hquiet previous
    s1.draft.current
  obtain ⟨k, hk⟩ := execute_of_ends rfl (starts_inFunction s name d) hpath.start
    (hfollows.leads.ends (hleads.ends hends))
  refine ⟨w, b'.state, k, fun fuel hfuel => ?_, (hag.quiet hquiet (hm.poised hp).known).toConcurs,
    hfollows.keeps.heap.trans hquiet.heap, hback⟩
  rw [invokeWith_run fuel hfun hpath.start.entry]
  exact hk fuel hfuel

end DualEngine.Lowering
