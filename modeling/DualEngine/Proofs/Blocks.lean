import DualEngine.Proofs.Emission

/-! # How blocks grow

Lowering only adds to a function: code at the end of blocks, new blocks, and the ends of blocks. A
block that is ended already still gets the stack cells of the function if it is the first one;
whatever else comes late goes to blocks that are named. `Evolves` says this from one state to a
later one, where `loose` are the labels of the blocks that may change in any way.
-/
namespace DualEngine

/-- The instruction makes a stack cell. -/
def IR.Instruction.isAlloca (i : IR.Instruction) : Bool :=
  match i.operation with
  | .alloca _ => true
  | _ => false

namespace Lowering
open IR Machine

variable {b : Block} {f : Block → Block} {code : List Instruction} {final s1 : State} {k : String}

/-! ## Primitive changes -/

theorem blockAt_update (d : Draft) (label k : String) (hf : ∀ b, (f b).label = b.label) :
    blockAt (d.update label f).blocks k =
      if k = label then (blockAt d.blocks k).map f else blockAt d.blocks k := by
  simp only [blockAt, Draft.update]
  induction d.blocks with
  | nil => simp
  | cons b rest ih =>
    have hlabel : (if b.label = label then f b else b).label = b.label := by
      split <;> simp [hf]
    simp only [List.map_cons, List.find?_cons, hlabel]
    by_cases hk : b.label = k
    · subst hk
      simp only [beq_self_eq_true]
      split <;> rfl
    · have hb : (b.label == k) = false := by simpa using hk
      simpa only [hb] using ih

theorem head_update (d : Draft) (label : String) (hf : ∀ b, (f b).label = b.label) :
    (d.update label f).blocks.head?.map Block.label = d.blocks.head?.map Block.label := by
  simp only [Draft.update]
  cases d.blocks with
  | nil => rfl
  | cons b rest =>
    simp only [List.map_cons, List.head?_cons, Option.map_some]
    split <;> simp [hf]

namespace State

/-- The label of the first block of the function. -/
def entry (s : State) : Option String := s.draft.blocks.head?.map Block.label

/-- The label that a new block gets. -/
def fresh (s : State) (wanted : String) : String := (s.draft.names.register wanted).1

/-- With a new block. -/
def opened (s : State) (wanted : String) : State :=
  { s with draft := { s.draft with
      names := (s.draft.names.register wanted).2
      blocks := s.draft.blocks ++ [{ label := s.fresh wanted }] } }

/-- With the current block ended. -/
def ended (s : State) (t : Terminator) : State :=
  let draft : Draft := { s.draft with names := (s.draft.names.register "").2 }
  { s with draft := draft.update s.draft.current fun b => { b with terminator := some t } }

/-- With another block as the current one. -/
def entered (s : State) (label : String) : State :=
  { s with draft := { s.draft with current := label } }

/-- With the current block ended, in another one. -/
def passed (s : State) (t : Terminator) (label : String) : State := (s.ended t).entered label

end State

theorem addBlock_run (wanted : String) (s : State) :
    addBlock wanted s = .ok (s.fresh wanted) (s.opened wanted) := rfl

theorem terminate_run (t : Terminator) (s : State) : terminate t s = .ok ⟨⟩ (s.ended t) := rfl

theorem enter_run (label : String) (s : State) : enter label s = .ok ⟨⟩ (s.entered label) := rfl

theorem currentBlock_run (s : State) : currentBlock s = .ok s.draft.current s := rfl

variable {s s' s'' : State} {loose loose' : String → Prop} {wanted label : String}

theorem used_opened (s : State) (wanted : String) :
    (s.opened wanted).used = s.fresh wanted :: s.used := Names.used_register _ _

theorem used_ended (s : State) (t : Terminator) : (s.ended t).used = s.fresh "" :: s.used :=
  Names.used_register _ _

theorem used_passed (s : State) (t : Terminator) (label : String) :
    s.used ⊆ (s.passed t label).used := by
  have h : (s.passed t label).used = s.fresh "" :: s.used := used_ended s t
  rw [h]
  exact fun _ => List.mem_cons_of_mem _

theorem fresh_not_mem (s : State) (wanted : String) : s.fresh wanted ∉ s.used :=
  Names.register_fresh _ _

/-- Every block has a name that is in use. -/
def Labelled (s : State) : Prop := ∀ label, (s.block? label).isSome = true → label ∈ s.used

theorem block?_opened (hs : Labelled s) (wanted k : String) :
    (s.opened wanted).block? k =
      if k = s.fresh wanted then some { label := k } else s.block? k := by
  have happend : (s.opened wanted).block? k =
      (s.block? k).or (([{ label := s.fresh wanted }] : List Block).find? fun b => b.label == k) :=
    List.find?_append
  rw [happend]
  by_cases hk : k = s.fresh wanted
  · have hnone : s.block? k = none := by
      rw [← Option.not_isSome_iff_eq_none]
      intro hsome
      exact fresh_not_mem s wanted (hk ▸ hs k hsome)
    rw [hnone, if_pos hk, hk]
    simp
  · rw [if_neg hk]
    simp [Ne.symm hk]

theorem block?_ended (s : State) (t : Terminator) (k : String) :
    (s.ended t).block? k = if k = s.draft.current then
      (s.block? k).map fun b => { b with terminator := some t } else s.block? k := by
  have hf (b : Block) : ({ b with terminator := some t } : Block).label = b.label := rfl
  exact blockAt_update _ _ _ hf

@[simp] theorem block?_entered (s : State) (label k : String) :
    (s.entered label).block? k = s.block? k := rfl

theorem label_of_block? (h : s.block? k = some b) : b.label = k := by
  simpa using List.find?_some h

theorem block?_appends (h : Appends code s s') (k : String) :
    s'.block? k = if k = s.draft.current then (s.block? k).map (Block.extend code)
      else s.block? k := by
  rw [State.block?, h.blocks]
  exact blockAt_update _ _ _ fun _ => rfl

theorem entry_appends (h : Appends code s s') : s'.entry = s.entry := by
  rw [State.entry, h.blocks]
  exact head_update _ _ fun _ => rfl

/-! ## From one state to a later one -/

/-- The block has more code at its end, under new names; an end that it had it still has. -/
structure Grown (used used' : List String) (b b' : Block) (code : List Instruction) : Prop where
  body : b'.body = b.body ++ code
  fresh : ∀ i ∈ code, i.name ∉ used ∧ i.name ∈ used'
  distinct : (code.map Instruction.name).Nodup
  exit : ∀ t, b.terminator = some t → b'.terminator = some t

structure Evolves (loose : String → Prop) (s s' : State) : Prop where
  used : s.used ⊆ s'.used
  functions : ∀ name signature, s.functions.get? name = some signature →
    s'.functions.get? name = some signature
  globals : s.globals ⊆ s'.globals
  tidy : Tidy s → Tidy s'
  entry : s'.entry = s.entry
  labelled : Labelled s → Labelled s'
  blocks : ∀ k b, s.block? k = some b → ∃ b' code, s'.block? k = some b' ∧
    Grown s.used s'.used b b' code ∧
    (¬ loose k → b'.terminator = b.terminator ∧
      ∀ i ∈ code, i.isAlloca = true ∧ s.entry = some k)

theorem Grown.refl (used used' : List String) (b : Block) : Grown used used' b b [] :=
  ⟨by simp, by simp, by simp, fun _ h => h⟩

theorem Grown.trans {used used' used'' : List String} {b' b'' : Block} {code' : List Instruction}
    (h : Grown used used' b b' code) (h' : Grown used' used'' b' b'' code') (hs : used ⊆ used')
    (hs' : used' ⊆ used'') : Grown used used'' b b'' (code ++ code') where
  body := by rw [h'.body, h.body, List.append_assoc]
  fresh := fresh_append h.fresh h'.fresh hs hs'
  distinct := nodup_append h.fresh h'.fresh h.distinct h'.distinct
  exit := fun t ht => h'.exit t (h.exit t ht)

theorem Evolves.refl (loose : String → Prop) (s : State) : Evolves loose s s where
  used := fun _ h => h
  functions := fun _ _ h => h
  globals := fun _ h => h
  tidy := id
  entry := rfl
  labelled := id
  blocks := fun k b hb => ⟨b, [], hb, Grown.refl _ _ _, fun _ => ⟨rfl, by simp⟩⟩

/-- Only labels of blocks that are there matter. -/
theorem Evolves.mono (h : Evolves loose s s')
    (hl : ∀ k b, s.block? k = some b → loose k → loose' k) : Evolves loose' s s' where
  used := h.used
  functions := h.functions
  globals := h.globals
  tidy := h.tidy
  entry := h.entry
  labelled := h.labelled
  blocks := by
    intro k b hb
    obtain ⟨b', code, hb', hgrown, hkept⟩ := h.blocks k b hb
    exact ⟨b', code, hb', hgrown, fun hk => hkept fun hloose => hk (hl k b hb hloose)⟩

theorem Evolves.trans (h : Evolves loose s s') (h' : Evolves loose' s' s'')
    (hl : ∀ k b, s.block? k = some b → loose' k → loose k) : Evolves loose s s'' where
  used := fun _ hx => h'.used (h.used hx)
  functions := fun name signature hf => h'.functions name signature (h.functions name signature hf)
  globals := fun _ hg => h'.globals (h.globals hg)
  tidy := fun ht => h'.tidy (h.tidy ht)
  entry := h'.entry.trans h.entry
  labelled := fun hs => h'.labelled (h.labelled hs)
  blocks := by
    intro k b hb
    obtain ⟨b', code, hb', hgrown, hkept⟩ := h.blocks k b hb
    obtain ⟨b'', code', hb'', hgrown', hkept'⟩ := h'.blocks k b' hb'
    refine ⟨b'', code ++ code', hb'', hgrown.trans hgrown' h.used h'.used, fun hk => ?_⟩
    obtain ⟨hexit, hcode⟩ := hkept hk
    obtain ⟨hexit', hcode'⟩ := hkept' fun hloose => hk (hl k b hb hloose)
    refine ⟨hexit'.trans hexit, fun i hi => ?_⟩
    rcases List.mem_append.mp hi with hi | hi
    · exact hcode i hi
    · rw [← h.entry]
      exact hcode' i hi

/-- A block that may not change and is not the first one is as it was. -/
theorem Evolves.untouched (h : Evolves loose s s') (hb : s.block? k = some b) (hk : ¬ loose k)
    (he : s.entry ≠ some k) : s'.block? k = some b := by
  obtain ⟨b', code, hb', hgrown, hkept⟩ := h.blocks k b hb
  obtain ⟨hexit, hcode⟩ := hkept hk
  obtain rfl : code = [] := by
    cases code with
    | nil => rfl
    | cons i rest => exact absurd (hcode i List.mem_cons_self).2 he
  have hbody := hgrown.body
  rw [List.append_nil] at hbody
  have hlabel := (label_of_block? hb').trans (label_of_block? hb).symm
  rw [hb']
  cases b
  cases b'
  simp_all

theorem labelled_of_block? (h : Labelled s) (hb : s.block? k = some b) : k ∈ s.used :=
  h k (by rw [hb]; rfl)

theorem evolves_entered (loose : String → Prop) (s : State) (label : String) :
    Evolves loose s (s.entered label) :=
  ⟨fun _ h => h, fun _ _ h => h, fun _ h => h, fun ⟨h1, h2, h3, h4⟩ => ⟨h1, h2, h3, h4⟩, rfl, id,
    (Evolves.refl loose s).blocks⟩

theorem evolves_opened (loose : String → Prop) (hs : Labelled s) (he : s.entry ≠ none)
    (wanted : String) : Evolves loose s (s.opened wanted) where
  used := by
    rw [used_opened]
    exact fun _ h => List.mem_cons_of_mem _ h
  functions := fun _ _ h => h
  globals := fun _ h => h
  tidy := fun ⟨h1, h2, h3, h4⟩ => ⟨h1, h2, h3, h4⟩
  entry := by
    unfold State.entry State.opened at *
    cases hb : s.draft.blocks with
    | nil => simp [hb] at he
    | cons b rest => rfl
  labelled := by
    intro _ k hk
    rw [used_opened]
    rw [block?_opened hs] at hk
    split at hk
    · rename_i hfresh
      rw [hfresh]
      exact List.mem_cons_self
    · exact List.mem_cons_of_mem _ (hs k hk)
  blocks := by
    intro k b hb
    have hk : k ≠ s.fresh wanted := by
      rintro rfl
      exact fresh_not_mem s wanted (labelled_of_block? hs hb)
    refine ⟨b, [], ?_, Grown.refl _ _ _, fun _ => ⟨rfl, by simp⟩⟩
    rw [block?_opened hs, if_neg hk]
    exact hb

/-- The block in which lowering goes on is there and has no end yet. -/
def Active (s : State) : Prop := ∃ b, s.block? s.draft.current = some b ∧ b.terminator = none

theorem Active.entry (h : Active s) : s.entry ≠ none := by
  obtain ⟨b, hb, -⟩ := h
  have hmem := List.mem_of_find?_eq_some hb
  unfold State.entry
  cases hs : s.draft.blocks with
  | nil => simp [hs] at hmem
  | cons b rest => simp

theorem evolves_ended (h : Active s) (t : Terminator) :
    Evolves (· = s.draft.current) s (s.ended t) where
  used := by
    rw [used_ended]
    exact fun _ hx => List.mem_cons_of_mem _ hx
  functions := fun _ _ h => h
  globals := fun _ h => h
  tidy := fun ⟨h1, h2, h3, h4⟩ => ⟨h1, h2, h3, h4⟩
  entry := by
    have hf (b : Block) : ({ b with terminator := some t } : Block).label = b.label := rfl
    exact head_update _ _ hf
  labelled := by
    intro hs k hk
    rw [used_ended]
    refine List.mem_cons_of_mem _ (hs k ?_)
    rw [block?_ended] at hk
    split at hk
    · simpa using hk
    · exact hk
  blocks := by
    intro k b hb
    rw [block?_ended]
    by_cases hk : k = s.draft.current
    · obtain ⟨b0, hb0, hopen⟩ := h
      obtain rfl : b0 = b := by simpa [← hk, hb] using hb0.symm
      refine ⟨_, [], by rw [if_pos hk, hb]; rfl, ⟨by simp, by simp, by simp, ?_⟩, ?_⟩
      · intro t' ht'
        rw [hopen] at ht'
        cases ht'
      · exact fun hne => absurd hk hne
    · exact ⟨b, [], by rw [if_neg hk]; exact hb, Grown.refl _ _ _, fun _ => ⟨rfl, by simp⟩⟩

/-- Appended code may go to a block that may change; stack cells may always go to the first one. -/
theorem evolves_appends (h : Appends code s s')
    (hl : loose s.draft.current ∨
      ∀ i ∈ code, i.isAlloca = true ∧ s.entry = some s.draft.current) : Evolves loose s s' where
  used := h.used
  functions := fun _ _ hf => h.functions ▸ hf
  globals := h.globals
  tidy := h.tidy
  entry := entry_appends h
  labelled := by
    intro hs k hk
    refine h.used (hs k ?_)
    rw [block?_appends h] at hk
    split at hk
    · simpa using hk
    · exact hk
  blocks := by
    intro k b hb
    rw [block?_appends h]
    by_cases hk : k = s.draft.current
    · refine ⟨b.extend code, code, by rw [if_pos hk, hb]; rfl, ⟨rfl, h.fresh, h.distinct,
        fun _ ht => ht⟩, fun hnot => ⟨rfl, ?_⟩⟩
      subst hk
      rcases hl with hl | hl
      · exact absurd hl hnot
      · exact hl
    · exact ⟨b, [], by rw [if_neg hk]; exact hb, Grown.refl _ _ _, fun _ => ⟨rfl, by simp⟩⟩

/-! ## Whole steps of lowering -/

/-- What lowering a tree does to the function: code goes to the current block, to new blocks and
to the blocks that are held, and it goes on in the same block or in a new one. -/
structure Grows (held : List String) (s s' : State) : Prop where
  evolves : Evolves (fun k => k = s.draft.current ∨ k ∈ held) s s'
  current : s'.draft.current = s.draft.current ∨ s'.draft.current ∉ s.used
  active : Active s'

variable {held held' : List String}

theorem Grows.refl (h : Active s) : Grows held s s := ⟨Evolves.refl _ _, .inl rfl, h⟩

theorem Grows.trans (h : Grows held s s') (h' : Grows held s' s'') (hs : Labelled s) :
    Grows held s s'' where
  evolves := by
    refine h.evolves.trans h'.evolves ?_
    rintro k b hb (hk | hk)
    · rcases h.current with hc | hc
      · exact .inl (hk.trans hc)
      · exact absurd (hk ▸ labelled_of_block? hs hb) hc
    · exact .inr hk
  current := by
    rcases h'.current with hc' | hc'
    · rw [hc']
      exact h.current
    · exact .inr fun hm => hc' (h.evolves.used hm)
  active := h'.active

theorem Active.appends (h : Active s) (ha : Appends code s s') : Active s' := by
  obtain ⟨b, hb, hopen⟩ := h
  refine ⟨b.extend code, ?_, hopen⟩
  rw [ha.current, block?_appends ha, if_pos rfl, hb]
  rfl

theorem grows_appends (h : Active s) (ha : Appends code s s') : Grows held s s' :=
  ⟨evolves_appends ha (.inl (.inl rfl)), .inl ha.current, h.appends ha⟩

/-- As `Grows`, without a word on the block in which lowering goes on. -/
structure Within (held : List String) (s s' : State) : Prop where
  evolves : Evolves (fun k => k = s.draft.current ∨ k ∈ held) s s'
  current : s'.draft.current = s.draft.current ∨ s'.draft.current ∉ s.used

theorem Grows.within (h : Grows held s s') : Within held s s' := ⟨h.evolves, h.current⟩

theorem Within.grows (h : Within held s s') (ha : Active s') : Grows held s s' :=
  ⟨h.evolves, h.current, ha⟩

theorem Within.refl (held : List String) (s : State) : Within held s s :=
  ⟨Evolves.refl _ _, .inl rfl⟩

/-- What may change from `s'` on must be one of the blocks that may change from `s` on, or new. -/
theorem Within.then (h : Within held s s') (hs : Labelled s) (h' : Evolves loose s' s'')
    (hl : ∀ k, loose k → k = s'.draft.current ∨ k = s.draft.current ∨ k ∈ held ∨ k ∉ s.used) :
    Evolves (fun k => k = s.draft.current ∨ k ∈ held) s s'' := by
  refine h.evolves.trans h' fun k b hb hk => ?_
  have hused := labelled_of_block? hs hb
  rcases hl k hk with rfl | hk | hk | hk
  · rcases h.current with hc | hc
    · exact .inl hc
    · exact absurd hused hc
  · exact .inl hk
  · exact .inr hk
  · exact absurd hused hk

theorem Within.opened (h : Within held s s') (hs : Labelled s) (he : s'.entry ≠ none)
    (wanted : String) : Within held s (s'.opened wanted) :=
  ⟨h.then hs (evolves_opened (fun _ => False) (h.evolves.labelled hs) he wanted) (by simp),
    h.current⟩

theorem Within.ended (h : Within held s s') (hs : Labelled s) (ha : Active s') (t : Terminator) :
    Within held s (s'.ended t) :=
  ⟨h.then hs (evolves_ended ha t) fun _ hk => .inl hk, h.current⟩

theorem Within.entered (h : Within held s s') (hs : Labelled s) (hl : label ∉ s.used) :
    Within held s (s'.entered label) :=
  ⟨h.then hs (evolves_entered (fun _ => False) _ _) (by simp), .inr hl⟩

theorem Within.step (h : Within held s s') (hs : Labelled s) (h' : Within held' s' s'')
    (hh : ∀ k ∈ held', k = s.draft.current ∨ k ∈ held ∨ k ∉ s.used) : Within held s s'' := by
  refine ⟨h.then hs h'.evolves ?_, ?_⟩
  · rintro k (hk | hk)
    · exact .inl hk
    · exact .inr (hh k hk)
  · rcases h'.current with hc | hc
    · rw [hc]
      exact h.current
    · exact .inr fun hm => hc (h.evolves.used hm)

theorem Within.trans (h : Within held s s') (hs : Labelled s) (h' : Within held s' s'') :
    Within held s s'' := h.step hs h' fun _ hk => .inr (.inl hk)

theorem Within.appends (h : Within held s s') (hs : Labelled s) (ha : Appends code s' s'') :
    Within held s s'' :=
  h.trans hs ⟨evolves_appends ha (.inl (.inl rfl)), .inl ha.current⟩

/-! ## Blocks that wait

A block that was opened and is not gone to yet stays empty until lowering enters it. -/

structure Waits (s : State) (k : String) : Prop where
  block : s.block? k = some { label := k }
  current : k ≠ s.draft.current
  entry : s.entry ≠ some k

theorem Waits.used (h : Waits s k) (hs : Labelled s) : k ∈ s.used :=
  labelled_of_block? hs h.block

theorem waits_opened (hs : Labelled s) (ha : Active s) (wanted : String) :
    Waits (s.opened wanted) (s.fresh wanted) := by
  have hne := fresh_not_mem s wanted
  have hentry := (evolves_opened (fun _ => False) hs ha.entry wanted).entry
  obtain ⟨b, hb, -⟩ := ha
  refine ⟨by rw [block?_opened hs, if_pos rfl], ?_, ?_⟩
  · intro heq
    exact hne (heq ▸ labelled_of_block? hs hb)
  · rw [hentry]
    intro heq
    refine hne (hs _ ?_)
    unfold State.entry at heq
    cases hbs : s.draft.blocks with
    | nil => simp [hbs] at heq
    | cons first rest =>
      simp only [hbs, List.head?_cons, Option.map_some, Option.some.injEq] at heq
      simp [State.block?, blockAt, hbs, heq]

theorem Waits.opened (h : Waits s k) (hs : Labelled s) (ha : Active s) (wanted : String) :
    Waits (s.opened wanted) k := by
  have hk : k ≠ s.fresh wanted := by
    rintro rfl
    exact fresh_not_mem s wanted (h.used hs)
  refine ⟨by rw [block?_opened hs, if_neg hk]; exact h.block, h.current, ?_⟩
  rw [(evolves_opened (fun _ => False) hs ha.entry wanted).entry]
  exact h.entry

theorem Waits.ended (h : Waits s k) (ha : Active s) (t : Terminator) : Waits (s.ended t) k := by
  refine ⟨by rw [block?_ended, if_neg h.current]; exact h.block, h.current, ?_⟩
  rw [(evolves_ended ha t).entry]
  exact h.entry

theorem Waits.entered (h : Waits s k) (hne : k ≠ label) : Waits (s.entered label) k :=
  ⟨h.block, hne, h.entry⟩

theorem Waits.grows (h : Waits s k) (hs : Labelled s) (hg : Grows held s s') (hk : k ∉ held) :
    Waits s' k := by
  have hloose : ¬ (k = s.draft.current ∨ k ∈ held) := fun hor => hor.elim h.current hk
  refine ⟨hg.evolves.untouched h.block hloose h.entry, ?_, by rw [hg.evolves.entry]; exact h.entry⟩
  rcases hg.current with hc | hc
  · rw [hc]
    exact h.current
  · rintro rfl
    exact hc (h.used hs)

theorem Waits.appends (h : Waits s k) (hs : Labelled s) (ha : Active s) (hc : Appends code s s') :
    Waits s' k :=
  h.grows hs (show Grows [] s s' from grows_appends ha hc) (by simp)

/-- Entering it, lowering has a block to go on in. -/
theorem Waits.active (h : Waits s k) : Active (s.entered k) := ⟨_, h.block, rfl⟩

theorem Waits.passed (h : Waits s k) (ha : Active s) (t : Terminator) (hne : k ≠ label) :
    Waits (s.passed t label) k :=
  (h.ended ha t).entered hne

theorem Waits.active_passed (h : Waits s k) (ha : Active s) (t : Terminator) :
    Active (s.passed t k) :=
  (h.ended ha t).active

theorem Within.passed (h : Within held s s') (hs : Labelled s) (ha : Active s') (t : Terminator)
    (hl : label ∉ s.used) : Within held s (s'.passed t label) := (h.ended hs ha t).entered hs hl

theorem active_opened (ha : Active s) (hs : Labelled s) (wanted : String) :
    Active (s.opened wanted) := by
  obtain ⟨b, hb, hopen⟩ := ha
  refine ⟨b, ?_, hopen⟩
  have hne : s.draft.current ≠ s.fresh wanted := by
    intro heq
    exact fresh_not_mem s wanted (heq ▸ labelled_of_block? hs hb)
  have hcurrent : (s.opened wanted).draft.current = s.draft.current := rfl
  rw [hcurrent, block?_opened hs, if_neg hne]
  exact hb

/-- From `s` to `s'` blocks with these labels were opened. -/
structure Opens (labels : List String) (s s' : State) : Prop where
  active : Active s'
  labelled : Labelled s'
  waits : ∀ k ∈ labels, Waits s' k
  fresh : ∀ k ∈ labels, k ∉ s.used
  distinct : labels.Nodup
  within : ∀ held, Within held s s'
  current : s'.draft.current = s.draft.current

theorem Opens.refl (ha : Active s) (hs : Labelled s) : Opens [] s s :=
  ⟨ha, hs, by simp, by simp, by simp, fun held => Within.refl held s, rfl⟩

theorem Opens.opened {labels : List String} (h : Opens labels s s') (hs : Labelled s)
    (wanted : String) : Opens (s'.fresh wanted :: labels) s (s'.opened wanted) where
  active := active_opened h.active h.labelled wanted
  labelled := (evolves_opened (fun _ => False) h.labelled h.active.entry wanted).labelled h.labelled
  waits := by
    intro k hk
    rcases List.mem_cons.mp hk with rfl | hk
    · exact waits_opened h.labelled h.active wanted
    · exact (h.waits k hk).opened h.labelled h.active wanted
  fresh := by
    intro k hk
    rcases List.mem_cons.mp hk with rfl | hk
    · exact fun hm => fresh_not_mem s' wanted ((h.within []).evolves.used hm)
    · exact h.fresh k hk
  distinct := by
    refine List.nodup_cons.mpr ⟨fun hm => ?_, h.distinct⟩
    exact fresh_not_mem s' wanted ((h.waits _ hm).used h.labelled)
  within := fun held => (h.within held).opened hs h.active.entry wanted
  current := h.current

/-! ## Code in another block -/

theorem inBlock_run {α : Type} {build : Lower α} {label : String} {r : α}
    (h : build (s.entered label) = .ok r s1) :
    inBlock label build s = .ok r (s1.entered s.draft.current) :=
  (bind_ok (currentBlock_run s)).trans ((bind_ok (enter_run label s)).trans
    ((bind_ok h).trans rfl))

/-- Late code does not change where lowering goes on. -/
theorem within_late (hs : Labelled s) (h : Appends code (s.entered label) s1)
    (hl : label ∈ held ∨ ∀ i ∈ code, i.isAlloca = true ∧ s.entry = some label) :
    Within held s (s1.entered s.draft.current) := by
  have hcode : Evolves (· ∈ held) (s.entered label) s1 := evolves_appends h hl
  have hback := evolves_entered (fun _ => False) s1 s.draft.current
  refine ⟨(Within.refl held s).then hs (((evolves_entered (· ∈ held) s label).trans hcode
    fun _ _ _ hk => hk).trans hback (by simp)) fun k hk => .inr (.inr (.inl hk)), .inl rfl⟩

theorem active_late (ha : Active s) (h : Appends code (s.entered label) s1) :
    Active (s1.entered s.draft.current) := by
  obtain ⟨b, hb, hopen⟩ := ha
  have hcurrent : (s.entered label).draft.current = label := rfl
  have hblock : (s1.entered s.draft.current).block? s.draft.current =
      if s.draft.current = label then some (b.extend code) else some b := by
    rw [block?_entered, block?_appends h, hcurrent, block?_entered, hb]
    rfl
  refine ⟨if s.draft.current = label then b.extend code else b, ?_, ?_⟩
  · refine hblock.trans ?_
    split <;> rfl
  · split <;> exact hopen

/-- A stack cell is made in the first block, wherever lowering is. -/
theorem entryAlloca_spec (ha : Active s) (type : Ty) (wanted : String) :
    ∃ x first s1, s.entry = some first ∧ Appends [⟨x, .alloca type⟩] (s.entered first) s1 ∧
      entryAlloca type wanted s = .ok (.register x (.pointer type)) (s1.entered s.draft.current) ∧
      x ∈ s1.used := by
  have hentry := ha.entry
  unfold State.entry at hentry ⊢
  cases hb : s.draft.blocks with
  | nil => simp [hb] at hentry
  | cons first rest =>
    obtain ⟨x, s1, h1, A1, hx⟩ := emit_spec (s.entered first.label) (.alloca type) wanted rfl
    refine ⟨x, first.label, s1, rfl, A1, ?_, hx⟩
    unfold entryAlloca
    rw [bind_ok (get_run s), hb]
    exact inBlock_run h1

/-- The rest of lowering a function, as seen from a state on the way: blocks that have an end get
stack cells only, unless they are held. -/
def Settles (held : List String) (s final : State) : Prop :=
  Evolves (fun k => k ∈ held ∨ ∃ b, s.block? k = some b ∧ b.terminator = none) s final

theorem Settles.of_evolves (h : Evolves loose s s') (h' : Settles held s' final)
    (hl : ∀ k b, s.block? k = some b → loose k → k ∈ held ∨ b.terminator = none) :
    Settles held s final := by
  have hopened : Evolves (fun k => k ∈ held ∨ ∃ b, s.block? k = some b ∧ b.terminator = none)
      s s' := by
    refine h.mono fun k b hb hk => ?_
    rcases hl k b hb hk with hk | hk
    · exact .inl hk
    · exact .inr ⟨b, hb, hk⟩
  refine hopened.trans h' ?_
  · rintro k b hb (hk | ⟨b', hb', hopen⟩)
    · exact .inl hk
    · refine .inr ⟨b, hb, ?_⟩
      obtain ⟨b'', code, hb'', hgrown, -⟩ := h.blocks k b hb
      obtain rfl : b' = b'' := by simpa [hb'] using hb''
      cases hexit : b.terminator with
      | none => rfl
      | some t => simp [hgrown.exit t hexit] at hopen

theorem Settles.of_grows (hs : Active s) (h : Grows held s s') (h' : Settles held s' final) :
    Settles held s final := by
  refine Settles.of_evolves h.evolves h' ?_
  rintro k b hb (hk | hk)
  · obtain ⟨b0, hb0, hopen⟩ := hs
    obtain rfl : b0 = b := by simpa [← hk, hb] using hb0.symm
    exact .inr hopen
  · exact .inl hk

end Lowering
end DualEngine
