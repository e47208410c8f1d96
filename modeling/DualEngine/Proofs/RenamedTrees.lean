import DualEngine.Proofs.RenamedLowering

/-! # Lowering trees under a renaming

A tree is lowered from a renamed state to the renamed code, and a submission to the renamed module.
Only a new slot takes a number from the state.
-/
namespace DualEngine.Lowering
open IR Discipline

variable {ρ : Renaming} {d : Nat} {s : State}

/-! ## Variables -/

/-- A new slot has the next number, and that is renamed to the one that the renamed state gives. -/
theorem mirrors_newSlot (name : String) (kind : Kind) :
    Mirrors ρ d ρ.slot (newSlot name kind) (newSlot name kind) := by
  intro s
  refine ⟨Nat.le_succ _, fun hshifts => ?_⟩
  have hnumber : ρ.number s.nextSlot = s.nextSlot + d :=
    hshifts s.nextSlot le_rfl (Nat.lt_succ_self _)
  have hslot : ρ.slot ⟨name, s.nextSlot, kind⟩ = ⟨name, s.nextSlot + d, kind⟩ := by
    rw [Renaming.slot, hnumber]
  have hrun (s : State) : newSlot name kind s = .ok ⟨name, s.nextSlot, kind⟩
      { s with
        nextSlot := s.nextSlot + 1
        created := s.created ++ [⟨name, s.nextSlot, kind⟩] } := rfl
  rw [hrun, hrun, mapResult, hslot]
  simp only [State.rename, List.map_append, List.map_singleton, hslot, Nat.add_right_comm]

theorem mirrors_slotFor (scope : Scope) (name : String) (kind : Kind) :
    Mirrors ρ d ρ.slot (slotFor scope name kind) (slotFor (scope.rename ρ) name kind) := by
  refine mirrors_get fun s => ?_
  have hfilter : ((s.context.get? name).map (Symbol.rename ρ)).filter (·.kind = kind) =
      ((s.context.get? name).filter (·.kind = kind)).map (Symbol.rename ρ) :=
    Option.filter_map
  dsimp only
  rw [State.get?_rename, hfilter]
  cases (s.context.get? name).filter (·.kind = kind) with
  | some symbol => exact mirrors_pure rfl s
  | none =>
    refine ((mirrors_newSlot name kind).bind fun slot => ?_) s
    refine (admits_seedSlot scope (mirroring_writes _ _) (s.context.get? name)).mirrors.bind
      fun _ => ?_
    refine Mirrors.bind (f := id) (mirrors_modify (fun _ => rfl) fun t => ?_)
      fun _ => mirrors_pure rfl
    rw [State.rename, State.rename, ← Context.add_rename]

theorem mirroring_assign (scope : Scope) (name : String) (value : Option Typed) :
    (mirroring ρ d).Admits (Typed.rename ρ) (assign scope name value)
      (assign (scope.rename ρ) name (value.map (Typed.rename ρ))) := by
  cases value with
  | none => exact admits_mismatch _
  | some v =>
    simp only [assign, Option.map_some, show (v.rename ρ).kind = v.kind from rfl]
    split
    · exact admits_mismatch_bind _
    · exact (mirrors_slotFor scope name v.kind).admits.bind fun slot =>
        (admits_storeSlot (mirroring_writes _ _) v).bind fun _ => admits_pure rfl

/-! ## Functions -/

theorem MirrorsAt.of_run {α β : Type} {f : α → β} {p p1 : Lower α} {q q1 : Lower β} {s s1 : State}
    (h : MirrorsAt ρ d s1 f p1 q1) (hn : s.nextSlot = s1.nextSlot) (hp : p s = p1 s1)
    (hq : q (s.rename ρ d) = q1 (s1.rename ρ d)) : MirrorsAt ρ d s f p q := by
  constructor
  · rw [hn, hp]
    exact h.grows
  · intro hshifts
    rw [hp] at hshifts ⊢
    rw [hq]
    refine h.eq fun n hle hlt => hshifts n ?_ hlt
    rwa [hn]

theorem mirrors_closeFunction (definition : Definition) (callee : Signature) (outer : Draft)
    (body : Lowered) :
    Mirrors ρ d (Signature.rename ρ.name) (closeFunction definition callee outer body)
      (closeFunction definition (callee.rename ρ.name) (outer.rename ρ) (body.rename ρ)) := by
  refine (admits_returnValue body.value definition.returns).mirrors.bind fun _ => ?_
  refine mirrors_get fun s => ?_
  refine ((mirrors_defineFunction callee.name _ s.draft.blocks).bind fun _ => ?_) s
  exact Mirrors.bind (f := id) (mirrors_modify (fun _ => rfl) fun _ => rfl)
    fun _ => mirrors_pure rfl

theorem State.functionName_rename (s : State) (name : String) :
    (s.rename ρ d).functionName name = ρ.name (s.functionName name) :=
  congrArg Prod.fst (register_rename (unnumbered_function name) s.globalNames)

theorem State.declared_rename (s : State) (name : String) (definition : Definition) :
    (s.rename ρ d).declared name definition = (s.declared name definition).rename ρ d := by
  have hnames : ((s.rename ρ d).globalNames.register ("fn_" ++ name)).2 =
      (s.globalNames.register ("fn_" ++ name)).2.rename ρ.name :=
    congrArg Prod.snd (register_rename (unnumbered_function name) s.globalNames)
  have hsignature : Definition.signature definition (ρ.name (s.functionName name)) =
      (Definition.signature definition (s.functionName name)).rename ρ.name := rfl
  have hfunctions := Table.insert_rename (Signature.rename ρ.name) Function.injective_id s.functions
    name (Definition.signature definition (s.functionName name))
  unfold State.declared
  rw [State.functionName_rename, hnames, hsignature]
  simp only [State.rename, List.map_append, List.map_singleton]
  congr 1

/-- The parameters of a function are registers, which have no numbers. -/
theorem bodyScope_rename (definition : Definition) :
    (Definition.bodyScope definition).rename ρ = Definition.bodyScope definition := by
  have hregisters (names : List String) (registers : List String) :
      (names.zip (registers.map fun p => Operand.register p .double)).map
          (fun entry => (id entry.1, entry.2.rename ρ.name)) =
        names.zip (registers.map fun p => Operand.register p .double) := by
    induction names generalizing registers with
    | nil => rfl
    | cons name rest ih =>
      cases registers with
      | nil => rfl
      | cons register registers =>
        rw [List.map_cons, List.zip_cons_cons, List.map_cons, ih]
        rfl
  rw [Definition.bodyScope, Scope.rename, Table.ofList_rename _ Function.injective_id, hregisters]

theorem Mirrors.emitFunction (name : String) (definition : Definition)
    {lowerBody lowerBody' : Scope → Lower Lowered}
    (h : ∀ scope : Scope, Mirrors ρ d (Lowered.rename ρ) (lowerBody scope)
      (lowerBody' (scope.rename ρ))) :
    Mirrors ρ d (Signature.rename ρ.name) (emitFunction name definition lowerBody)
      (emitFunction name definition lowerBody') := by
  intro s
  have hbody := h (Definition.bodyScope definition)
  rw [bodyScope_rename] at hbody
  refine MirrorsAt.of_run (Mirrors.bind hbody (fun body =>
    mirrors_closeFunction definition (Definition.signature definition (s.functionName name))
      s.draft body) { s.declared name definition with draft := Definition.draft definition })
    rfl (emitFunction_run name definition lowerBody s) ?_
  rw [emitFunction_run, State.functionName_rename, State.declared_rename]
  rfl

/-! ## Trees -/

def Earlier.Mirrored (ρ : Renaming) (d : Nat) (earlier : Earlier) : Prop :=
  ∀ name definition, Mirrors ρ d (Signature.rename ρ.name) (earlier name definition)
    (earlier name definition)

theorem mirrors_set {s1 s1' : State} (hn : s1.nextSlot = s.nextSlot) (h : s1' = s1.rename ρ d) :
    MirrorsAt ρ d s id (set s1 : Lower PUnit) (set s1') := by
  subst h
  exact ⟨hn.ge, fun _ => rfl⟩

theorem mirroring_define {earlier : Earlier} (name : String) (params : List String) {body : Node}
    (h : (mirroring ρ d).Lowers earlier body) :
    (mirroring ρ d).Lowers earlier (.define name params body) := by
  refine fun scope => Mirrors.admits (mirrors_get fun s => ?_)
  have hkind : (Prediction.predictFunction (s.rename ρ d).context {} {} name params body).1 =
      (Prediction.predictFunction s.context {} {} name params body).1 :=
    s.context.predictFunction_rename ρ name params body
  dsimp only
  rw [hkind]
  refine MirrorsAt.bind (mirrors_set (s := s) ?_ ?_) fun _ t _ => ?_
  · rfl
  · rfl
  · refine Mirrors.bind (f := Signature.rename ρ.name) ?_ (fun _ => ?_) t
    · exact Mirrors.emitFunction name _ fun inner => (h inner).mirrors
    · exact mirrors_pure rfl

theorem mirrors_lower {earlier : Earlier} (he : earlier.Mirrored ρ d) (node : Node) (scope : Scope) :
    Mirrors ρ d (Lowered.rename ρ) (lower earlier scope node)
      (lower earlier (scope.rename ρ) node) := by
  have htrees : (mirroring ρ d).Trees earlier (fun _ => True) fun _ => True :=
    ⟨fun _ _ => trivial, fun _ _ => trivial, fun _ _ => trivial, fun _ _ => (he _ _).told,
      fun _ args wanted => (mirrors_emit (.call _ args) wanted).admits,
      fun _ scope value => mirroring_assign scope _ value,
      fun _ _ _ _ _ => mirroring_writes _ _, fun _ h => mirroring_define _ _ h⟩
  exact (htrees.lower node trivial scope).mirrors

theorem mirrored_emitEarlier (depth : Nat) : (emitEarlier depth).Mirrored ρ d := by
  induction depth with
  | zero => exact fun name _ => mirrors_fail (.undefinedFunction name)
  | succ depth ih =>
    exact fun name definition => Mirrors.emitFunction name definition
      fun inner => mirrors_lower ih definition.body inner

/-! ## Submissions -/

theorem mirrors_closeEntry (entry : String) (kind : Kind) (result : Lowered) :
    Mirrors ρ d id (closeEntry entry kind result)
      (closeEntry (ρ.name entry) kind (result.rename ρ)) := by
  refine (admits_coerce result.value kind).mirrors.bind fun value => ?_
  refine (admits_storePresence (mirroring_writes _ _) result.ran).mirrors.bind fun _ => ?_
  refine (admits_returnResult kind value).mirrors.bind fun _ => ?_
  exact mirrors_get fun s => mirrors_defineFunction entry [] s.draft.blocks s

theorem State.declaring_rename {signature : Signature}
    (hnew : s.globalNames.used.contains signature.name = false) :
    (s.rename ρ d).declaring (signature.rename ρ.name) = (s.declaring signature).rename ρ d := by
  have hnames : ((s.rename ρ d).globalNames.register (ρ.name signature.name)).2 =
      (s.globalNames.register signature.name).2.rename ρ.name :=
    congrArg Prod.snd (Names.register_rename_new ρ.injective s.globalNames hnew)
  unfold State.declaring
  rw [show (signature.rename ρ.name).name = ρ.name signature.name from rfl, hnames]
  simp only [State.rename, List.map_append, List.map_singleton]
  rfl

theorem State.foldl_declaring_rename (signatures : List Signature)
    (hnew : ∀ x ∈ signatures, s.globalNames.used.contains x.name = false)
    (hnodup : (signatures.map (·.name)).Nodup) :
    (signatures.map (Signature.rename ρ.name)).foldl State.declaring (s.rename ρ d) =
      (signatures.foldl State.declaring s).rename ρ d := by
  induction signatures generalizing s with
  | nil => rfl
  | cons signature rest ih =>
    obtain ⟨hfirst, hrest⟩ := List.forall_mem_cons.mp hnew
    obtain ⟨hnotin, hnodup⟩ := List.nodup_cons.mp hnodup
    rw [List.map_cons, List.foldl_cons, List.foldl_cons, State.declaring_rename hfirst]
    refine ih (fun x hx => ?_) hnodup
    have hne : x.name ≠ signature.name := fun heq => hnotin (List.mem_map.mpr ⟨x, hx, heq⟩)
    have hused : (s.declaring signature).globalNames.used =
        signature.name :: s.globalNames.used := by
      rw [State.declaring, Names.register, if_neg (by rw [hfirst]; exact Bool.false_ne_true)]
    rw [hused, List.contains_cons, hrest x hx, Bool.or_false]
    exact beq_eq_false_iff_ne.mpr hne

/-- The state before a submission. Only the empty name is taken, and it stays. -/
theorem State.start_rename (c : Context Slot) (nextSlot : Nat) :
    State.rename ρ d { context := c, nextSlot } =
      { context := c.rename ρ, nextSlot := nextSlot + d } := by
  have hempty : ρ.name "" = "" := ρ.name_eq (by decide) (by decide)
  simp only [State.rename, Names.rename, List.map_cons, List.map_nil, hempty]
  rfl

theorem take_entryName (number : Nat) :
    (entryName number).toList.take 6 = ['r', 'e', 'p', 'l', '_', 'e'] := by
  simp [entryName, String.toList_append]

/-- The names of the library and of the entry function are all different. -/
theorem State.begun_rename (c : Context Slot) (number nextSlot : Nat) (kind : Kind) :
    State.begun { context := c.rename ρ, nextSlot := nextSlot + d } (ρ.name (entryName number))
        kind =
      (State.begun { context := c, nextSlot } (entryName number) kind).rename ρ d := by
  have hlibrary : library.map (Signature.rename ρ.name) = library :=
    (List.map_congr_left fun x hx => rename_library hx).trans (List.map_id library)
  have hall : library ++ [entrySignature (ρ.name (entryName number)) kind] =
      (library ++ [entrySignature (entryName number) kind]).map (Signature.rename ρ.name) := by
    rw [List.map_append, hlibrary]
    rfl
  have hnames : ∀ x ∈ library,
      x.name ≠ "" ∧ x.name.toList.take 6 ≠ ['r', 'e', 'p', 'l', '_', 'e'] := by decide
  unfold State.begun
  rw [hall, ← State.start_rename, State.foldl_declaring_rename]
  · rfl
  · intro x hx
    have hne : x.name ≠ "" := by
      rcases List.mem_append.mp hx with hx | hx
      · exact (hnames x hx).1
      · cases List.mem_singleton.mp hx
        intro heq
        have htake := take_entryName number
        rw [show entryName number = "" from heq] at htake
        cases htake
    simpa using hne
  · rw [List.map_append, List.nodup_append]
    refine ⟨by decide, List.nodup_singleton _, fun a ha b hb heq => ?_⟩
    obtain ⟨x, hx, rfl⟩ := List.mem_map.mp ha
    cases List.mem_singleton.mp hb
    refine (hnames x hx).2 ?_
    rw [show x.name = entryName number from heq, take_entryName]

/-- From a renamed context a submission is lowered to the renamed entry function. -/
theorem mirrors_lowerEntry (c : Context Slot) (number nextSlot : Nat) (kind : Kind) (node : Node) :
    MirrorsAt ρ d { context := c, nextSlot } id (lowerEntry (entryName number) kind node)
      (lowerEntry (ρ.name (entryName number)) kind node) := by
  refine MirrorsAt.of_run (Mirrors.bind (mirrors_lower
    (mirrored_emitEarlier c.functions.entries.length) node {})
    (fun result => mirrors_closeEntry (entryName number) kind result)
    (State.begun { context := c, nextSlot } (entryName number) kind)) ?_
    (lowerEntry_run (entryName number) kind node _) ?_
  · exact (State.nextSlot_begun _ _ _).symm
  · rw [lowerEntry_run, State.start_rename, State.begun_rename]
    rfl

/-- What a submission is lowered to, renamed. -/
noncomputable def Artifact.rename (ρ : Renaming) (a : Artifact) : Artifact where
  module := a.module.rename ρ.name
  entry := ρ.name a.entry
  kind := a.kind
  context := a.context.rename ρ
  created := a.created.map ρ.slot

section
variable (c : Context Slot) (number nextSlot : Nat) (node : Node)

theorem lowerSubmission_snd :
    (lowerSubmission c number nextSlot node).2 =
      (final (lowerEntry (entryName number) (Prediction.predictResult c node) node
        { context := c, nextSlot })).nextSlot := by
  cases hrun : lowerEntry (entryName number) (Prediction.predictResult c node) node
      { context := c, nextSlot } with
  | ok u s => rw [lowerSubmission_ok hrun]; rfl
  | error cause s => rw [lowerSubmission_error hrun]; rfl

theorem le_lowerSubmission : nextSlot ≤ (lowerSubmission c number nextSlot node).2 := by
  have hgrows := (mirrors_lowerEntry (ρ := Renaming.refl) (d := 0) c number nextSlot
    (Prediction.predictResult c node) node).grows
  rwa [← lowerSubmission_snd] at hgrows

/-- Lowering depends on the numbers given so far only through a renaming of what it gives. -/
theorem lowerSubmission_rename
    (hnumber : ∀ n, nextSlot ≤ n → n < (lowerSubmission c number nextSlot node).2 →
      ρ.number n = n + d) :
    lowerSubmission (c.rename ρ) (ρ.entry number) (nextSlot + d) node =
      ((lowerSubmission c number nextSlot node).1.map (Artifact.rename ρ),
        (lowerSubmission c number nextSlot node).2 + d) := by
  rw [lowerSubmission_snd] at hnumber
  have hrun := (mirrors_lowerEntry c number nextSlot (Prediction.predictResult c node) node).eq
    hnumber
  rw [ρ.name_entryName, State.start_rename, ← c.predictResult_rename ρ node] at hrun
  cases hresult : lowerEntry (entryName number) (Prediction.predictResult c node) node
      { context := c, nextSlot } with
  | ok u s =>
    rw [c.predictResult_rename ρ node, hresult, ← c.predictResult_rename ρ node] at hrun
    rw [lowerSubmission_ok hrun, lowerSubmission_ok hresult, c.predictResult_rename ρ node,
      ← ρ.name_entryName]
    rfl
  | error cause s =>
    rw [c.predictResult_rename ρ node, hresult, ← c.predictResult_rename ρ node] at hrun
    rw [lowerSubmission_error hrun, lowerSubmission_error hresult]
    rfl

end

end DualEngine.Lowering
