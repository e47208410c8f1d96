import DualEngine.Proofs.Entries

/-! # The names of a module

While a submission is lowered every global of the module has a name of its own. The names that the
module gives and those of variables outside it are told apart by how they begin.
-/
namespace DualEngine.Lowering
open IR

variable {x : Global} {signature : Signature}

structure Named (s : State) : Prop where
  distinct : (s.globals.map Global.name).Nodup
  known : ∀ x ∈ s.globals, x.isNamed = true → x.name ∈ s.globalNames.used
  inside : ∀ x ∈ s.globalNames.used, ¬ Outside x
  outside : ∀ x ∈ s.globals, x.isNamed = false → Outside x.name
  texts : ∀ name contents, Global.text name contents ∈ s.globals → name.toList.head? ≠ some 'd'
  /-- The functions of the library are declared and not defined. -/
  library : ∀ callee ∈ library, ∃ params, Global.function { signature := callee, params } ∈ s.globals

variable {g : Grant} {s s' : State}

theorem not_outside_of_head {name : String} (h : name.toList.head? ≠ some 'd') : ¬ Outside name := by
  intro ho
  unfold Outside at ho
  cases hl : name.toList with
  | nil => simp [hl] at ho
  | cons c cs =>
    rw [hl] at h ho
    exact h (congrArg some (List.cons.inj ho).1)

theorem nodup_names_append {xs : List Global} (h : (xs.map Global.name).Nodup)
    (hx : x.name ∉ xs.map Global.name) : ((xs ++ [x]).map Global.name).Nodup := by
  rw [List.map_append, List.map_singleton]
  refine List.nodup_append.mpr ⟨h, List.nodup_singleton _, fun a ha b hb hab => ?_⟩
  rw [List.mem_singleton.mp hb] at hab
  exact hx (hab ▸ ha)

theorem Named.name_not_outside (h : Named s) (hx : x ∈ s.globals) (hn : x.isNamed = true) :
    ¬ Outside x.name :=
  h.inside _ (h.known x hx hn)

/-- A global under a name that is given for it. -/
theorem Named.add (h : Named s) {wanted : String} (hn : x.isNamed = true)
    (hx : x.name = (s.globalNames.register wanted).1) (hw : wanted.toList.head? ≠ some 'd') :
    Named { s with
      globals := s.globals ++ [x], globalNames := (s.globalNames.register wanted).2 } := by
  have hhead : x.name.toList.head? ≠ some 'd' := hx ▸ head?_register s.globalNames hw
  have hfresh : x.name ∉ s.globals.map Global.name := by
    intro hm
    obtain ⟨y, hy, hname⟩ := List.mem_map.mp hm
    cases hny : y.isNamed with
    | true => exact s.globalNames.register_fresh wanted (hx ▸ hname ▸ h.known y hy hny)
    | false => exact not_outside_of_head hhead (hname ▸ h.outside y hy hny)
  refine ⟨?_, ?_, ?_, ?_, ?_, fun callee hc => ?_⟩
  · exact nodup_names_append h.distinct hfresh
  · intro y hy hny
    rw [Names.used_register]
    rcases List.mem_append.mp hy with hy | hy
    · exact List.mem_cons_of_mem _ (h.known y hy hny)
    · rw [List.mem_singleton.mp hy, hx]
      exact List.mem_cons_self
  · intro y hy
    rw [Names.used_register] at hy
    rcases List.mem_cons.mp hy with rfl | hy
    · exact not_outside_of_head (hx ▸ hhead)
    · exact h.inside y hy
  · intro y hy hny
    rcases List.mem_append.mp hy with hy | hy
    · exact h.outside y hy hny
    · rw [List.mem_singleton.mp hy, hn] at hny
      cases hny
  · intro name contents hm
    rcases List.mem_append.mp hm with hm | hm
    · exact h.texts name contents hm
    · have hname : x.name = name := by rw [← List.mem_singleton.mp hm]; rfl
      exact hname ▸ hhead
  · obtain ⟨params, hp⟩ := h.library callee hc
    exact ⟨params, List.mem_append_left _ hp⟩

theorem Named.external (h : Named s) {symbol : String} (type : Ty) (ho : Outside symbol)
    (hn : ∀ t, Global.external symbol t ∉ s.globals) :
    Named { s with globals := s.globals ++ [.external symbol type] } := by
  have hfresh : symbol ∉ s.globals.map Global.name := by
    intro hm
    obtain ⟨y, hy, hname⟩ := List.mem_map.mp hm
    cases y with
    | external other t => exact hn t (hname ▸ hy)
    | function f | text name contents => exact h.name_not_outside hy rfl (hname ▸ ho)
  refine ⟨?_, ?_, h.inside, ?_, ?_, fun callee hc => ?_⟩
  · exact nodup_names_append h.distinct hfresh
  · intro y hy hny
    rcases List.mem_append.mp hy with hy | hy
    · exact h.known y hy hny
    · rw [List.mem_singleton.mp hy] at hny
      cases hny
  · intro y hy hny
    rcases List.mem_append.mp hy with hy | hy
    · exact h.outside y hy hny
    · rw [List.mem_singleton.mp hy]
      exact ho
  · intro name contents hm
    rcases List.mem_append.mp hm with hm | hm
    · exact h.texts name contents hm
    · simp at hm
  · obtain ⟨params, hp⟩ := h.library callee hc
    exact ⟨params, List.mem_append_left _ hp⟩

/-! ## Functions that get their blocks -/

/-- A global after the blocks of the function `name` are given. -/
def closedGlobal (name : String) (params : List String) (blocks : List Block) : Global → Global
  | .function f => .function (if f.signature.name = name then { f with params, blocks } else f)
  | x => x

section
variable (name : String) (params : List String) (blocks : List Block)

theorem globals_closed (s : State) :
    (s.closed name params blocks).globals = s.globals.map (closedGlobal name params blocks) := by
  unfold State.closed
  refine List.map_congr_left fun x _ => ?_
  cases x <;> rfl

theorem name_closedGlobal (x : Global) : (closedGlobal name params blocks x).name = x.name := by
  cases x with
  | function f =>
    simp only [closedGlobal, Global.name]
    split <;> rfl
  | _ => rfl

theorem isNamed_closedGlobal (x : Global) :
    (closedGlobal name params blocks x).isNamed = x.isNamed := by
  cases x <;> rfl

end

theorem closedGlobal_of_ne {name : String} {params : List String} {blocks : List Block}
    (h : x.name ≠ name) : closedGlobal name params blocks x = x := by
  cases x with
  | function f => exact congrArg Global.function (if_neg h)
  | _ => rfl

theorem Named.closed (h : Named s) {name : String} (params : List String) (blocks : List Block)
    (hn : name ∉ Lowering.library.map Signature.name) : Named (s.closed name params blocks) := by
  have hmem {y : Global} (hy : y ∈ (s.closed name params blocks).globals) :
      ∃ x ∈ s.globals, closedGlobal name params blocks x = y := by
    rw [globals_closed] at hy
    exact List.mem_map.mp hy
  refine ⟨?_, ?_, h.inside, ?_, ?_, fun callee hc => ?_⟩
  · have hnames : (s.closed name params blocks).globals.map Global.name =
        s.globals.map Global.name := by
      rw [globals_closed, List.map_map]
      exact List.map_congr_left fun x _ => name_closedGlobal name params blocks x
    rw [hnames]
    exact h.distinct
  · intro y hy hny
    obtain ⟨x, hx, rfl⟩ := hmem hy
    rw [name_closedGlobal]
    rw [isNamed_closedGlobal] at hny
    exact h.known x hx hny
  · intro y hy hny
    obtain ⟨x, hx, rfl⟩ := hmem hy
    rw [name_closedGlobal]
    rw [isNamed_closedGlobal] at hny
    exact h.outside x hx hny
  · intro text contents hm
    obtain ⟨x, hx, hxe⟩ := hmem hm
    cases x with
    | text other c =>
      cases hxe
      exact h.texts _ _ hx
    | _ => cases hxe
  · obtain ⟨ps, hp⟩ := h.library callee hc
    refine ⟨ps, ?_⟩
    rw [globals_closed]
    refine List.mem_map.mpr ⟨_, hp, closedGlobal_of_ne ?_⟩
    rintro rfl
    exact hn (List.mem_map_of_mem hc)

theorem Change.named (h : Named s) (hc : Change g s s') : Named s' := by
  cases hc with
  | draft draft | slot | bind | define =>
    exact ⟨h.distinct, h.known, h.inside, h.outside, h.texts, h.library⟩
  | external type ho hn => exact h.external type ho hn
  | text contents hw =>
    refine h.add rfl rfl ?_
    have hall : ∀ n ∈ textNames, n.toList.head? ≠ some 'd' := by decide
    exact hall _ hw
  | function name d =>
    have hw : ("fn_" ++ name).toList.head? ≠ some 'd' := by simp [String.toList_append]
    have := h.add (x := .function {
      signature := Definition.signature d (s.functionName name)
      params := (openNames (d.params.map fun _ => .double)).1 }) rfl rfl hw
    exact ⟨this.distinct, this.known, this.inside, this.outside, this.texts, this.library⟩
  | blocks params blocks hn => exact h.closed params blocks hn

theorem Changes.named (h : Named s) (hc : Changes g s s') : Named s' := by
  induction hc with
  | refl => exact h
  | tail _ hc ih => exact hc.named ih

/-! ## Functions that are declared -/

/-- The module has a function of this name and type. -/
def Declared (s : State) (signature : Signature) : Prop :=
  ∃ f, Global.function f ∈ s.globals ∧ f.signature = signature

theorem Change.declared (h : Declared s signature) (hc : Change g s s') :
    Declared s' signature := by
  obtain ⟨f, hf, rfl⟩ := h
  cases hc with
  | external type ho hn | text contents hw | function name d =>
    exact ⟨f, List.mem_append_left _ hf, rfl⟩
  | @blocks name params blocks hn =>
    refine ⟨if f.signature.name = name then { f with params, blocks } else f, ?_, ?_⟩
    · rw [globals_closed]
      exact List.mem_map.mpr ⟨_, hf, rfl⟩
    · split <;> rfl
  | _ => exact ⟨f, hf, rfl⟩

theorem Changes.declared (h : Declared s signature) (hc : Changes g s s') :
    Declared s' signature := by
  induction hc with
  | refl => exact h
  | tail _ hc ih => exact hc.declared ih

/-- A declared function has got its blocks. -/
theorem mem_closed (signature : Signature) {params : List String} {blocks : List Block}
    (h : Declared (s.closed signature.name params blocks) signature) :
    Global.function { signature, params, blocks } ∈
      (s.closed signature.name params blocks).globals := by
  obtain ⟨f, hf, rfl⟩ := h
  have hmem := hf
  rw [globals_closed] at hmem
  obtain ⟨x, -, hx⟩ := List.mem_map.mp hmem
  cases x with
  | function f' =>
    have hf' : (if f'.signature.name = f.signature.name then { f' with params, blocks } else f') =
        f := Global.function.inj hx
    split at hf'
    · subst hf'
      exact hf
    · rename_i hne
      exact absurd (congrArg (·.signature.name) hf') hne
  | _ => cases hx

/-! ## The module at the start -/

/-- A function that is declared and not defined. -/
def declaration (signature : Signature) : Global :=
  .function { signature, params := (openNames signature.params).1 }

/-- Functions under names not yet used get these names. -/
theorem foldl_declaring (signatures : List Signature) (s : State)
    (hd : (signatures.map Signature.name).Nodup)
    (hu : ∀ f ∈ signatures, f.name ∉ s.globalNames.used) :
    (signatures.foldl State.declaring s).globals = s.globals ++ signatures.map declaration ∧
      ∀ x, x ∈ (signatures.foldl State.declaring s).globalNames.used ↔
        x ∈ signatures.map Signature.name ∨ x ∈ s.globalNames.used := by
  induction signatures generalizing s with
  | nil => simp
  | cons f rest ih =>
    have hf : f.name ∉ s.globalNames.used := hu f List.mem_cons_self
    have hname : (s.globalNames.register f.name).1 = f.name := by
      unfold Names.register
      simp [hf]
    have hused : (s.declaring f).globalNames.used = f.name :: s.globalNames.used :=
      (Names.used_register _ _).trans (by rw [hname])
    rw [List.map_cons, List.nodup_cons] at hd
    obtain ⟨hglobals, hmem⟩ := ih (s.declaring f) hd.2 (by
      intro f' hf' hm
      rw [hused] at hm
      rcases List.mem_cons.mp hm with heq | hm
      · exact hd.1 (heq ▸ List.mem_map_of_mem hf')
      · exact hu f' (List.mem_cons_of_mem _ hf') hm)
    refine ⟨?_, fun x => ?_⟩
    · rw [List.foldl_cons, hglobals, List.map_cons, ← List.singleton_append, ← List.append_assoc]
      rfl
    · rw [List.foldl_cons, hmem x, hused, List.map_cons, List.mem_cons, List.mem_cons]
      tauto

/-- The functions that a module declares at its start. -/
def startSignatures (number : Nat) (kind : Kind) : List Signature :=
  library ++ [entrySignature (entryName number) kind]

theorem startSignatures_nodup (number : Nat) (kind : Kind) :
    ((startSignatures number kind).map Signature.name).Nodup := by
  have hlibrary : (library.map Signature.name).Nodup := by decide
  rw [startSignatures, List.map_append, List.map_singleton]
  refine List.nodup_append.mpr ⟨hlibrary, List.nodup_singleton _, fun a ha b hb hab => ?_⟩
  have hentry : a = entryName number := hab.trans (List.mem_singleton.mp hb)
  exact not_library (.inr (entryName_head number)) (hentry ▸ ha)

theorem start_spec (c : Context Slot) (nextSlot number : Nat) (kind : Kind) :
    (State.begun { context := c, nextSlot } (entryName number) kind).globals =
        (startSignatures number kind).map declaration ∧
      ∀ x, x ∈ (State.begun { context := c, nextSlot } (entryName number) kind).globalNames.used ↔
        x ∈ (startSignatures number kind).map Signature.name ∨ x = "" := by
  obtain ⟨hglobals, hused⟩ := foldl_declaring (startSignatures number kind)
    { context := c, nextSlot } (startSignatures_nodup number kind) (by
      intro f hf hm
      have hempty : f.name = "" := by simpa using hm
      have hall : ∀ n ∈ library, n.name ≠ "" := by decide
      rcases List.mem_append.mp hf with hf | hf
      · exact hall f hf hempty
      · rw [List.mem_singleton.mp hf] at hempty
        have hhead := entryName_head number
        rw [show entryName number = "" from hempty] at hhead
        simp at hhead)
  exact ⟨hglobals, fun x => (hused x).trans (by simp)⟩

theorem named_begun (c : Context Slot) (nextSlot number : Nat) (kind : Kind) :
    Named (State.begun { context := c, nextSlot } (entryName number) kind) := by
  obtain ⟨hglobals, hused⟩ := start_spec c nextSlot number kind
  have hnames : ((startSignatures number kind).map declaration).map Global.name =
      (startSignatures number kind).map Signature.name := by
    rw [List.map_map]
    rfl
  have hmem {x : Global} (hx : x ∈ (startSignatures number kind).map declaration) :
      ∃ f ∈ startSignatures number kind, declaration f = x := List.mem_map.mp hx
  refine ⟨?_, ?_, ?_, ?_, ?_, fun callee hc => ?_⟩
  · rw [hglobals, hnames]
    exact startSignatures_nodup number kind
  · intro x hx _
    rw [hglobals] at hx
    rw [hused]
    exact .inl (hnames ▸ List.mem_map_of_mem hx)
  · intro x hx
    rcases (hused x).mp hx with hx | rfl
    · rw [startSignatures, List.map_append] at hx
      have hall : ∀ n ∈ library.map Signature.name, ¬ Outside n := by decide
      rcases List.mem_append.mp hx with hx | hx
      · exact hall x hx
      · have hname : x = entryName number := by simpa [entrySignature] using hx
        refine not_outside_of_head ?_
        rw [hname, entryName_head]
        decide
    · decide
  · intro x hx hn
    rw [hglobals] at hx
    obtain ⟨f, -, rfl⟩ := hmem hx
    cases hn
  · intro name contents hx
    rw [hglobals] at hx
    obtain ⟨f, -, hf⟩ := hmem hx
    cases hf
  · refine ⟨(openNames callee.params).1, ?_⟩
    rw [hglobals]
    exact List.mem_map.mpr ⟨callee, List.mem_append_left _ hc, rfl⟩

theorem mem_begun (c : Context Slot) (nextSlot number : Nat) (kind : Kind) :
    declaration (entrySignature (entryName number) kind) ∈
      (State.begun { context := c, nextSlot } (entryName number) kind).globals := by
  rw [(start_spec c nextSlot number kind).1]
  exact List.mem_map.mpr ⟨entrySignature (entryName number) kind,
    List.mem_append_right _ (List.mem_singleton_self _), rfl⟩

theorem declared_begun (c : Context Slot) (nextSlot number : Nat) (kind : Kind) :
    Declared (State.begun { context := c, nextSlot } (entryName number) kind)
      (entrySignature (entryName number) kind) :=
  ⟨_, mem_begun c nextSlot number kind, rfl⟩

end DualEngine.Lowering
