import DualEngine.Proofs.Variables

/-! # Slots that lowering makes

Lowering binds a name to a new slot where it is assigned a value of a kind that its slot does not
have. `Declares` says which slots were made from one state to a later one; `Novel` that none of
them was for a name that had a slot already.
-/
namespace DualEngine.Lowering
open IR Machine

/-- The symbols of a context are proper, and their slots have numbers below `next`. -/
structure Slotted (c : Context Slot) (next : Nat) : Prop where
  proper : c.bindings.Proper
  number : ∀ x sym, c.get? x = some sym → sym.storage.number < next

/-- The slots are for different names, and none of these had a slot. -/
structure Novel (s : State) (new : List Slot) : Prop where
  distinct : (new.map Slot.name).Nodup
  unbound : ∀ slot ∈ new, s.context.get? slot.name = none

/-- Every name is bound to a slot of its kind by `κ`. -/
def HasKinds (c : Context Slot) (κ : String → Kind) : Prop :=
  ∀ x sym, c.get? x = some sym → sym.kind = κ x

structure Declares (s s' : State) (new : List Slot) : Prop where
  created : s'.created = s.created ++ new
  nextSlot : s.nextSlot ≤ s'.nextSlot
  numbers : ∀ slot ∈ new, s.nextSlot ≤ slot.number ∧ slot.number < s'.nextSlot
  kinds : ∀ slot ∈ new, slot.kind ≠ .none
  functions : s'.context.functions = s.context.functions
  bound : ∀ x, s'.context.get? x = s.context.get? x ∨
    ∃ slot ∈ new, slot.name = x ∧ s'.context.get? x = some ⟨slot, slot.kind⟩
  covered : ∀ slot ∈ new, (s'.context.get? slot.name).isSome = true
  /-- A name whose kind does not change gets a slot only if it has none. -/
  steady : ∀ κ, HasKinds s.context κ → (∀ slot ∈ new, slot.kind = κ slot.name) → Novel s new

variable {s s' s'' : State} {new new' : List Slot} {x : String} {k : Kind} {slot : Slot}
  {scope : Scope}

theorem declares_of_eq (hcontext : s'.context = s.context) (hcreated : s'.created = s.created)
    (hnext : s'.nextSlot = s.nextSlot) : Declares s s' [] :=
  ⟨by simp [hcreated], hnext.ge, by simp, by simp, by rw [hcontext],
    fun x => .inl (by rw [hcontext]), by simp, fun _ _ _ => ⟨List.nodup_nil, by simp⟩⟩

theorem declares_entered (s : State) (label : String) : Declares s (s.entered label) [] :=
  declares_of_eq rfl rfl rfl

theorem declares_opened (s : State) (wanted : String) : Declares s (s.opened wanted) [] :=
  declares_of_eq rfl rfl rfl

theorem declares_passed (s : State) (exit : Terminator) (label : String) :
    Declares s (s.passed exit label) [] := declares_of_eq rfl rfl rfl

theorem Declares.refl (s : State) : Declares s s [] := declares_of_eq rfl rfl rfl

theorem Appends.declares {code : List Instruction} (h : Appends code s s') : Declares s s' [] :=
  declares_of_eq h.context h.created h.nextSlot

/-- A name that has a symbol keeps one. -/
theorem Declares.stays (h : Declares s s' new) (hx : (s.context.get? x).isSome = true) :
    (s'.context.get? x).isSome = true := by
  rcases h.bound x with hb | ⟨slot, -, -, hb⟩
  · rwa [hb]
  · rw [hb]
    rfl

theorem Declares.hasKinds (h : Declares s s' new) {κ : String → Kind}
    (hc : HasKinds s.context κ) (hnew : ∀ slot ∈ new, slot.kind = κ slot.name) :
    HasKinds s'.context κ := by
  intro x sym hx
  rcases h.bound x with hb | ⟨slot, hslot, rfl, hb⟩
  · exact hc x sym (hb ▸ hx)
  · cases hx.symm.trans hb
    exact hnew slot hslot

/-- New slots and then more new slots. -/
theorem Declares.novel (h : Declares s s' new) (hn : Novel s new) (hn' : Novel s' new') :
    Novel s (new ++ new') := by
  have hunbound : ∀ slot ∈ new', s.context.get? slot.name = none := by
    intro slot hslot
    cases hx : s.context.get? slot.name with
    | none => rfl
    | some sym =>
      have hsome := h.stays (x := slot.name) (by rw [hx]; rfl)
      rw [hn'.unbound slot hslot] at hsome
      cases hsome
  refine ⟨?_, fun slot hslot => ?_⟩
  · rw [List.map_append]
    refine List.Nodup.append hn.distinct hn'.distinct fun x hx hx' => ?_
    obtain ⟨slot, hslot, rfl⟩ := List.mem_map.mp hx
    obtain ⟨slot', hslot', heq⟩ := List.mem_map.mp hx'
    have hsome := h.covered slot hslot
    rw [← heq, hn'.unbound slot' hslot'] at hsome
    cases hsome
  · exact (List.mem_append.mp hslot).elim (hn.unbound slot) (hunbound slot)

theorem Declares.trans (h : Declares s s' new) (h' : Declares s' s'' new') :
    Declares s s'' (new ++ new') where
  created := by rw [h'.created, h.created, List.append_assoc]
  nextSlot := h.nextSlot.trans h'.nextSlot
  numbers := by
    intro slot hslot
    rcases List.mem_append.mp hslot with hslot | hslot
    · exact ⟨(h.numbers slot hslot).1, (h.numbers slot hslot).2.trans_le h'.nextSlot⟩
    · exact ⟨h.nextSlot.trans (h'.numbers slot hslot).1, (h'.numbers slot hslot).2⟩
  kinds := by
    intro slot hslot
    rcases List.mem_append.mp hslot with hslot | hslot
    · exact h.kinds slot hslot
    · exact h'.kinds slot hslot
  functions := h'.functions.trans h.functions
  bound := by
    intro x
    rcases h'.bound x with hb' | ⟨slot, hslot, hname, hb'⟩
    · rcases h.bound x with hb | ⟨slot, hslot, hname, hb⟩
      · exact .inl (hb'.trans hb)
      · exact .inr ⟨slot, List.mem_append_left _ hslot, hname, hb'.trans hb⟩
    · exact .inr ⟨slot, List.mem_append_right _ hslot, hname, hb'⟩
  covered := by
    intro slot hslot
    rcases List.mem_append.mp hslot with hslot | hslot
    · exact h'.stays (h.covered slot hslot)
    · exact h'.covered slot hslot
  steady := by
    intro κ hc hkinds
    obtain ⟨hnew, hnew'⟩ := List.forall_mem_append.mp hkinds
    exact h.novel (h.steady κ hc hnew) (h'.steady κ (h.hasKinds hc hnew) hnew')

theorem Slotted.declares (hs : Slotted s.context s.nextSlot) (h : Declares s s' new) :
    Slotted s'.context s'.nextSlot := by
  have hcase (x : String) (sym : Symbol Slot) (hx : s'.context.get? x = some sym) :
      s.context.get? x = some sym ∨
        ∃ slot ∈ new, slot.name = x ∧ sym = ⟨slot, slot.kind⟩ := by
    rcases h.bound x with hb | ⟨slot, hslot, hname, hb⟩
    · exact .inl (hb ▸ hx)
    · exact .inr ⟨slot, hslot, hname, Option.some.inj (hx.symm.trans hb)⟩
  refine ⟨⟨?_, ?_, ?_⟩, ?_⟩
  · intro x sym hx
    rcases hcase x sym hx with hx | ⟨slot, -, hname, rfl⟩
    · exact hs.proper.name x sym hx
    · exact hname
  · intro x sym hx
    rcases hcase x sym hx with hx | ⟨slot, -, -, rfl⟩
    · exact hs.proper.kind x sym hx
    · rfl
  · intro x sym hx
    rcases hcase x sym hx with hx | ⟨slot, hslot, -, rfl⟩
    · exact hs.proper.kind_ne x sym hx
    · exact h.kinds slot hslot
  · intro x sym hx
    rcases hcase x sym hx with hx | ⟨slot, hslot, -, rfl⟩
    · exact (hs.number x sym hx).trans_le h.nextSlot
    · exact (h.numbers slot hslot).2

/-! ## Slots for new names only -/

theorem Novel.left (h : Novel s (new ++ new')) : Novel s new := by
  refine ⟨?_, fun slot hslot => h.unbound slot (List.mem_append_left _ hslot)⟩
  have hd := h.distinct
  rw [List.map_append] at hd
  exact hd.of_append_left

theorem Novel.right (h : Novel s (new ++ new')) (hd : Declares s s' new) : Novel s' new' := by
  have hdistinct := h.distinct
  rw [List.map_append] at hdistinct
  refine ⟨hdistinct.of_append_right, fun slot hslot => ?_⟩
  have hnone := h.unbound slot (List.mem_append_right _ hslot)
  rcases hd.bound slot.name with hb | ⟨slot', hslot', hname, -⟩
  · rw [hb, hnone]
  · have hdisjoint := List.disjoint_of_nodup_append hdistinct
    exact absurd (List.mem_map_of_mem hslot)
      (hname ▸ hdisjoint (List.mem_map_of_mem hslot'))

/-- Then no name changed its symbol. -/
theorem Novel.keeps (h : Novel s new) (hd : Declares s s' new) {sym : Symbol Slot}
    (hx : s.context.get? x = some sym) : s'.context.get? x = some sym := by
  rcases hd.bound x with hb | ⟨slot, hslot, rfl, -⟩
  · rw [hb, hx]
  · rw [h.unbound slot hslot] at hx
    cases hx

/-! ## Assignments -/

/-- With a slot more. -/
def State.withSlot (s : State) (slot : Slot) : State :=
  { s with nextSlot := s.nextSlot + 1, created := s.created ++ [slot] }

/-- With a name bound to a slot. -/
def State.binding (s : State) (x : String) (slot : Slot) (k : Kind) : State :=
  { s with context := s.context.add x slot k }

theorem get?_binding (s : State) (x y : String) (slot : Slot) (k : Kind) :
    (s.binding x slot k).context.get? y = if x = y then some ⟨slot, k⟩ else s.context.get? y :=
  Table.get?_insert _ _ _ _

theorem newSlot_run (x : String) (k : Kind) (s : State) :
    newSlot x k s = .ok ⟨x, s.nextSlot, k⟩ (s.withSlot ⟨x, s.nextSlot, k⟩) := rfl

/-- An assignment uses the slot that the name has, or makes one if that is of another kind. -/
theorem slotFor_cases (h : slotFor scope x k s = .ok slot s') :
    (s.context.get? x = some ⟨slot, k⟩ ∧ s' = s) ∨
      ((∀ sym, s.context.get? x = some sym → sym.kind ≠ k) ∧ slot = ⟨x, s.nextSlot, k⟩ ∧
        ∃ s1, seedSlot scope slot (s.context.get? x) (s.withSlot slot) = .ok ⟨⟩ s1 ∧
          s' = s1.binding x slot k) := by
  unfold slotFor at h
  rw [bind_ok (get_run s)] at h
  cases hx : s.context.get? x with
  | none =>
    rw [hx] at h
    simp only [Option.filter_none] at h
    rw [bind_ok (newSlot_run x k s)] at h
    obtain ⟨⟨⟩, s1, h1, h⟩ := bind_eq_ok.mp h
    cases h
    exact .inr ⟨by simp, rfl, s1, h1, rfl⟩
  | some sym =>
    rw [hx] at h
    by_cases hk : sym.kind = k
    · simp only [Option.filter_some, hk, decide_true, if_true] at h
      cases h
      exact .inl ⟨by rw [← hk], rfl⟩
    · simp only [Option.filter_some, hk, decide_false, Bool.false_eq_true, if_false] at h
      rw [bind_ok (newSlot_run x k s)] at h
      obtain ⟨⟨⟩, s1, h1, h⟩ := bind_eq_ok.mp h
      cases h
      exact .inr ⟨by simpa using hk, rfl, s1, h1, rfl⟩

theorem declares_binding (s : State) (x : String) {k : Kind} (hk : k ≠ .none)
    (hother : ∀ sym, s.context.get? x = some sym → sym.kind ≠ k) {s1 : State}
    {code : List Instruction} {label : String}
    (h : Appends code ((s.withSlot ⟨x, s.nextSlot, k⟩).entered label) s1) (back : String) :
    Declares s ((s1.entered back).binding x ⟨x, s.nextSlot, k⟩ k) [⟨x, s.nextSlot, k⟩] where
  created := h.created
  nextSlot := by
    have hnext : s1.nextSlot = s.nextSlot + 1 := h.nextSlot
    exact (Nat.le_succ _).trans hnext.ge
  numbers := by
    have hnext : s1.nextSlot = s.nextSlot + 1 := h.nextSlot
    intro slot hslot
    rw [List.mem_singleton] at hslot
    subst hslot
    exact ⟨le_rfl, Nat.lt_of_lt_of_eq (Nat.lt_succ_self _) hnext.symm⟩
  kinds := by simpa using hk
  functions := by
    have hcontext : s1.context = s.context := h.context
    show s1.context.functions = s.context.functions
    rw [hcontext]
  bound := by
    intro y
    have hcontext : s1.context = s.context := h.context
    rw [get?_binding]
    by_cases hxy : x = y
    · exact .inr ⟨_, List.mem_singleton.mpr rfl, hxy, by rw [if_pos hxy]⟩
    · refine .inl ?_
      rw [if_neg hxy]
      exact congrArg (·.get? y) hcontext
  covered := by
    intro slot hslot
    rw [List.mem_singleton] at hslot
    subst hslot
    rw [get?_binding, if_pos rfl]
    rfl
  steady := by
    intro κ hc hkinds
    refine ⟨List.nodup_singleton _, fun slot hslot => ?_⟩
    obtain rfl := List.mem_singleton.mp hslot
    cases hx : s.context.get? x with
    | none => rfl
    | some sym => exact absurd ((hc x sym hx).trans (hkinds _ hslot).symm) (hother sym hx)

theorem assign_inv {r : Option Typed} {t : Typed} (h : assign scope x r s = .ok t s') :
    ∃ slot s1, r = some t ∧ t.kind ≠ .none ∧ slotFor scope x t.kind s = .ok slot s1 ∧
      storeSlot slot t s1 = .ok ⟨⟩ s' := by
  cases r with
  | none => cases h
  | some value =>
    unfold assign at h
    by_cases hk : value.kind = .none
    · simp only [if_pos hk] at h
      cases h
    · simp only [if_neg hk] at h
      obtain ⟨slot, s1, h1, h⟩ := bind_eq_ok.mp h
      obtain ⟨⟨⟩, s2, h2, h⟩ := bind_eq_ok.mp h
      cases h
      exact ⟨slot, s1, rfl, hk, h1, h2⟩

end DualEngine.Lowering
