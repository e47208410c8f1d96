import DualEngine.Proofs.Building

/-! # Lowering under a renaming

From a renamed state lowering goes the same way and ends in the renamed result. The slots that it
makes must be renamed to the numbers that it takes from the renamed state, so every statement asks
this of the numbers taken on the way, and says that they only go up.
-/
namespace DualEngine.Lowering
open IR

variable {ρ : Renaming} {d : Nat} {α β γ δ : Type} {s t : State} {wanted : String}
  {k : α → Lower γ} {k' : β → Lower δ} {g : γ → δ}

/-- The numbers taken from `s` to `t` are those that the renamed state has for them. -/
def Shifts (ρ : Renaming) (d : Nat) (s t : State) : Prop :=
  ∀ n, s.nextSlot ≤ n → n < t.nextSlot → ρ.number n = n + d

/-- From the renamed state the second computation does what the first does from the state. -/
structure MirrorsAt (ρ : Renaming) (d : Nat) (s : State) (f : α → β) (p : Lower α) (q : Lower β) :
    Prop where
  grows : s.nextSlot ≤ (final (p s)).nextSlot
  eq : Shifts ρ d s (final (p s)) → q (s.rename ρ d) = mapResult f (State.rename ρ d) (p s)

def Mirrors (ρ : Renaming) (d : Nat) (f : α → β) (p : Lower α) (q : Lower β) : Prop :=
  ∀ s, MirrorsAt ρ d s f p q

/-! ## Rules -/

theorem MirrorsAt.bind {f : α → β} {p : Lower α} {q : Lower β} (hp : MirrorsAt ρ d s f p q)
    (hk : ∀ a t, p s = .ok a t → MirrorsAt ρ d t g (k a) (k' (f a))) :
    MirrorsAt ρ d s g (p >>= k) (q >>= k') := by
  cases hrun : p s with
  | error e t =>
    have hgrows := hp.grows
    have heq := hp.eq
    rw [hrun] at hgrows heq
    constructor
    · rwa [bind_error hrun]
    · rw [bind_error hrun]
      intro hshifts
      rw [bind_error (heq hshifts)]
      rfl
  | ok a t =>
    have hgrows := hp.grows
    have heq := hp.eq
    rw [hrun] at hgrows heq
    have hnext := hk a t hrun
    constructor
    · rw [bind_ok hrun]
      exact hgrows.trans hnext.grows
    · rw [bind_ok hrun]
      intro hshifts
      have hfirst : Shifts ρ d s t := fun n hn hlt => hshifts n hn (hlt.trans_le hnext.grows)
      have hsecond : Shifts ρ d t (final (k a t)) := fun n hn hlt => hshifts n (hgrows.trans hn) hlt
      rw [bind_ok (heq hfirst)]
      exact hnext.eq hsecond

theorem Mirrors.bind {f : α → β} {p : Lower α} {q : Lower β} (hp : Mirrors ρ d f p q)
    (hk : ∀ a, Mirrors ρ d g (k a) (k' (f a))) : Mirrors ρ d g (p >>= k) (q >>= k') :=
  fun s => (hp s).bind fun a t _ => hk a t

theorem mirrors_pure {f : α → β} {a : α} {b : β} (h : b = f a) :
    Mirrors ρ d f (pure a) (pure b) := by
  subst h
  exact fun _ => ⟨le_rfl, fun _ => rfl⟩

theorem mirrors_fail {f : α → β} (cause : Fault) : Mirrors ρ d f (fail cause) (fail cause) :=
  fun _ => ⟨le_rfl, fun _ => rfl⟩

/-- What is read of the state may decide what follows. -/
theorem mirrors_get {k : State → Lower γ} {k' : State → Lower δ}
    (hk : ∀ s, MirrorsAt ρ d s g (k s) (k' (s.rename ρ d))) :
    Mirrors ρ d g (get >>= k) (get >>= k') :=
  fun s => ⟨(hk s).grows, (hk s).eq⟩

/-- A step that always succeeds and makes no slot. -/
theorem mirrors_step {f : α → β} {p : Lower α} {q : Lower β} {a : State → α} {r : State → State}
    (hp : ∀ s, p s = .ok (a s) (r s)) (hn : ∀ s, (r s).nextSlot = s.nextSlot)
    (hq : ∀ s, q (s.rename ρ d) = .ok (f (a s)) ((r s).rename ρ d)) : Mirrors ρ d f p q := by
  intro s
  constructor
  · rw [hp]
    exact (hn s).ge
  · intro _
    rw [hp, hq]
    rfl

theorem mirrors_modify {r r' : State → State} (hn : ∀ s, (r s).nextSlot = s.nextSlot)
    (hr : ∀ s, r' (s.rename ρ d) = (r s).rename ρ d) :
    Mirrors ρ d id (modify r) (modify r') :=
  mirrors_step (fun _ => rfl) hn fun s => congrArg (EStateM.Result.ok PUnit.unit) (hr s)

/-! ## The function under construction -/

theorem Draft.update_rename (draft : Draft) (label : String) {f f' : Block → Block}
    (hf : ∀ b : Block, f' (b.rename ρ.name) = (f b).rename ρ.name) :
    (draft.rename ρ).update label f' = (draft.update label f).rename ρ := by
  simp only [Draft.rename, Draft.update, List.map_map]
  congr 1
  refine List.map_congr_left fun b _ => ?_
  simp only [Function.comp_apply]
  rw [show (b.rename ρ.name).label = b.label from rfl]
  split
  · exact hf b
  · rfl

theorem mirrors_freshName (wanted : String) :
    Mirrors ρ d id (freshName wanted) (freshName wanted) :=
  mirrors_step (fun _ => rfl) (fun _ => rfl) fun _ => rfl

theorem mirrors_updateCurrent {f f' : Block → Block}
    (hf : ∀ b : Block, f' (b.rename ρ.name) = (f b).rename ρ.name) :
    Mirrors ρ d id (updateCurrent f) (updateCurrent f') := by
  refine mirrors_modify (fun _ => rfl) fun s => ?_
  rw [State.rename, State.rename]
  congr 1
  exact Draft.update_rename _ _ hf

theorem mirrors_emit (op : Operation) (wanted : String) :
    Mirrors ρ d (Operand.rename ρ.name) (emit op wanted) (emit (op.rename ρ.name) wanted) := by
  unfold emit
  rw [Operation.misfit?_rename]
  cases op.misfit? with
  | some cause => exact fun _ => ⟨le_rfl, fun _ => rfl⟩
  | none =>
    refine (mirrors_freshName wanted).bind fun name => ?_
    refine (mirrors_updateCurrent fun b => ?_).bind fun _ => mirrors_pure ?_
    · simp [Block.rename, Instruction.rename]
    · simp [Instruction.result, Operand.rename]

theorem mirrors_terminate (t : Terminator) :
    Mirrors ρ d id (terminate t) (terminate (t.rename ρ.name)) := by
  refine (mirrors_freshName "").bind fun _ => mirrors_updateCurrent fun b => ?_
  simp [Block.rename]

theorem mirrors_addBlock (wanted : String) : Mirrors ρ d id (addBlock wanted) (addBlock wanted) := by
  refine (mirrors_freshName wanted).bind fun label => ?_
  refine Mirrors.bind (f := id) (mirrors_modify (fun _ => rfl) fun s => ?_)
    fun _ => mirrors_pure rfl
  simp [State.rename, Draft.rename, Block.rename]

theorem mirrors_enter (label : String) : Mirrors ρ d id (enter label) (enter label) :=
  mirrors_step (fun _ => rfl) (fun _ => rfl) fun _ => rfl

/-! ## The module -/

theorem mirrors_addGlobal (g : Global) :
    Mirrors ρ d id (addGlobal g) (addGlobal (g.rename ρ.name)) := by
  refine mirrors_modify (fun _ => rfl) fun s => ?_
  simp [State.rename]

/-- A name that starts like no numbered one. -/
def Unnumbered (wanted : String) : Prop :=
  ∃ c, wanted.toList.head? = some c ∧ c ≠ 'd' ∧ c ≠ 'r'

theorem unnumbered_function (name : String) : Unnumbered ("fn_" ++ name) :=
  ⟨'f', by simp [String.toList_append], by decide, by decide⟩

theorem unnumbered_text (h : wanted ∈ textNames) : Unnumbered wanted := by
  simp only [textNames, List.mem_cons, List.not_mem_nil, or_false] at h
  rcases h with rfl | rfl | rfl
  · exact ⟨'s', rfl, by decide, by decide⟩
  · exact ⟨'f', rfl, by decide, by decide⟩
  · exact ⟨'c', rfl, by decide, by decide⟩

theorem register_rename (h : Unnumbered wanted) (names : Names) :
    (names.rename ρ.name).register wanted =
      (ρ.name (names.register wanted).1, (names.register wanted).2.rename ρ.name) := by
  obtain ⟨c, hc, hne⟩ := h
  refine Names.register_rename ρ.injective names (ρ.name_of_head hc hne) fun n => ?_
  refine ρ.name_of_head (c := c) ?_ hne
  simp [Names.numbered, String.toList_append, hc]

theorem mirrors_globalName (h : Unnumbered wanted) :
    Mirrors ρ d ρ.name (globalName wanted) (globalName wanted) := by
  refine mirrors_step (fun _ => rfl) (fun _ => rfl) fun s => ?_
  rw [globalName_run, show (s.rename ρ d).globalNames = s.globalNames.rename ρ.name from rfl,
    register_rename h]
  rfl

theorem mem_globals_rename {symbol : String} {type : Ty} :
    Global.external (ρ.name symbol) type ∈ (s.rename ρ d).globals ↔
      Global.external symbol type ∈ s.globals := by
  constructor
  · intro h
    obtain ⟨g, hg, heq⟩ := List.mem_map.mp h
    cases g with
    | external name t =>
      simp only [Global.rename, Global.external.injEq, ρ.injective.eq_iff] at heq
      obtain ⟨rfl, rfl⟩ := heq
      exact hg
    | _ => cases heq
  · exact fun h => List.mem_map.mpr ⟨_, h, rfl⟩

theorem mirrors_external (symbol : String) (type : Ty) :
    Mirrors ρ d (Operand.rename ρ.name) (external symbol type) (external (ρ.name symbol) type) := by
  intro s
  rcases external_run s symbol type with ⟨⟨t, ht⟩, hrun⟩ | ⟨hnew, hrun⟩
  · rcases external_run (s.rename ρ d) (ρ.name symbol) type with ⟨-, hrun'⟩ | ⟨hnew, -⟩
    · refine ⟨by rw [hrun]; exact le_rfl, fun _ => ?_⟩
      rw [hrun, hrun']
      rfl
    · exact absurd (mem_globals_rename.mpr ht) (hnew t)
  · rcases external_run (s.rename ρ d) (ρ.name symbol) type with ⟨⟨t, ht⟩, -⟩ | ⟨-, hrun'⟩
    · exact absurd (mem_globals_rename.mp ht) (hnew t)
    · refine ⟨by rw [hrun]; exact le_rfl, fun _ => ?_⟩
      rw [hrun, hrun']
      simp [mapResult, State.rename, Global.rename, Operand.rename]

theorem findSome?_rename {f : Global → Option String}
    (hf : ∀ g : Global, f (g.rename ρ.name) = (f g).map ρ.name) (s : State) :
    (s.rename ρ d).globals.findSome? f = (s.globals.findSome? f).map ρ.name := by
  rw [State.rename]
  induction s.globals with
  | nil => rfl
  | cons g rest ih =>
    rw [List.map_cons, List.findSome?_cons, List.findSome?_cons, hf]
    cases f g with
    | none => exact ih
    | some name => rfl

theorem mirrors_textName (contents : String) (h : wanted ∈ textNames) :
    Mirrors ρ d ρ.name (textName contents wanted) (textName contents wanted) := by
  refine mirrors_get fun s => ?_
  dsimp only
  rw [findSome?_rename]
  · generalize s.globals.findSome? _ = known
    cases known with
    | some name => exact mirrors_pure rfl s
    | none =>
      refine Mirrors.bind (mirrors_globalName (unnumbered_text h)) (fun name => ?_) s
      exact (mirrors_addGlobal (.text name contents)).bind fun _ => mirrors_pure rfl
  · intro g
    cases g with
    | text name c =>
      simp only [Global.rename]
      split <;> rfl
    | _ => rfl

theorem mirrors_defineFunction (name : String) (params : List String) (blocks : List Block) :
    Mirrors ρ d id (defineFunction name params blocks)
      (defineFunction (ρ.name name) params (blocks.map (Block.rename ρ.name))) := by
  refine mirrors_modify (fun _ => rfl) fun s => ?_
  simp only [State.rename, List.map_map]
  congr 1
  refine List.map_congr_left fun g _ => ?_
  cases g with
  | function f =>
    simp only [Function.comp_apply, Global.rename, Function.rename, Signature.rename,
      ρ.injective.eq_iff]
    split <;> rfl
  | _ => rfl

/-! ## The discipline -/

variable {f : α → β} {p : Lower α} {q : Lower β}

theorem Mirrors.told (h : Mirrors ρ d f p q) : Mirrors ρ d f p q ∧ ∀ s a t, p s = .ok a t → True :=
  ⟨h, fun _ _ _ _ => trivial⟩

/-- The discipline of the comparison. It does not matter where code stores. -/
def mirroring (ρ : Renaming) (d : Nat) : Discipline ρ d Unit where
  Keeps _ f p q Q := Mirrors ρ d f p q ∧ ∀ s a t, p s = .ok a t → Q a ()
  Own _ _ := True
  Holds _ := True
  own_mono _ _ := trivial
  imp h hq := ⟨h.1, fun s a t hrun => hq a () (h.2 s a t hrun)⟩
  pure h hq := ⟨mirrors_pure h, by
    rintro _ _ _ ⟨⟩
    exact hq () le_rfl⟩
  bind hp hk := by
    refine ⟨fun s => (hp.1 s).bind fun a t hrun => (hk a () le_rfl (hp.2 s a t hrun)).1 t, ?_⟩
    intro s b t hrun
    obtain ⟨a, s1, h1, h2⟩ := bind_eq_ok.mp hrun
    exact (hk a () le_rfl (hp.2 s a s1 h1)).2 s1 b t h2
  fail cause := ⟨mirrors_fail cause, by rintro _ _ _ ⟨⟩⟩
  get hk := ⟨mirrors_get fun s => (hk s trivial).1 s, fun s => (hk s trivial).2 s⟩
  emit _ wanted := ⟨mirrors_emit _ wanted, fun _ _ _ _ _ => trivial⟩
  terminate t := (mirrors_terminate t).told
  enter label := (mirrors_enter label).told
  addBlock wanted := (mirrors_addBlock wanted).told
  external _ type := (mirrors_external _ type).told
  textName h contents := (mirrors_textName contents h).told

theorem Mirrors.admits (h : Mirrors ρ d f p q) : (mirroring ρ d).Admits f p q := fun _ => h.told

theorem Discipline.Admits.mirrors (h : (mirroring ρ d).Admits f p q) : Mirrors ρ d f p q := (h ()).1

theorem mirroring_writes (symbol : String) (type : Ty) : (mirroring ρ d).Writes symbol type :=
  fun _ => ⟨mirrors_external symbol type, fun _ o _ _ _ _ value wanted =>
    (mirrors_emit (.store value o) wanted).told⟩

end DualEngine.Lowering
