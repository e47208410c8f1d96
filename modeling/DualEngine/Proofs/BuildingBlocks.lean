import DualEngine.Proofs.BuildingValues

/-! # Sound branches and loops

A branch or a loop opens its blocks first, ends the current block and goes through the new ones in
turn. While it does, some of its blocks still wait to be entered (`Inside`); at its end none does,
and what stood before has only been gone on from.
-/
namespace DualEngine.Lowering
open IR Scaffold
open IR.Body (Edge Defines)

variable {F : Form} {w w' w0 : Scaffold} {moves : Prop} {α β : Type} {pending : List String}
  {table : String → Set String} {label : String}

/-! ## Opening blocks -/

namespace Scaffold

/-- With an empty block more, which gets its labels from the table. -/
def opened (w : Scaffold) (table : String → Set String) (wanted : String) : Scaffold :=
  ⟨fun l => if l = w.state.fresh wanted then table l else w.table l, w.state.opened wanted⟩

/-- With the current block ended. -/
def ended (w : Scaffold) (t : Terminator) : Scaffold := ⟨w.table, w.state.ended t⟩

end Scaffold

theorem Proper.fresh_ne (hw : Proper F w) (wanted : String) {b : Block} (hb : b ∈ w.blocks) :
    b.label ≠ w.state.fresh wanted := fun heq =>
  fresh_not_mem w.state wanted (heq ▸ hw.labelled b hb)

theorem Proper.target_mem (hw : Proper F w) {l l' : String} (h : Edge w.blocks l l') :
    ∃ b ∈ w.blocks, b.label = l' := by
  obtain ⟨b, hb, -, t, ht, hmem⟩ := h
  exact (hw.sound.ends b hb t ht).targets l' hmem

theorem Proper.opened (hw : Proper F w) (wanted : String)
    (ht : w.state.fresh wanted ∈ table (w.state.fresh wanted) ∧
      F.entry ∈ table (w.state.fresh wanted)) : Proper F (w.opened table wanted) := by
  have hold : ∀ b ∈ w.blocks, (w.opened table wanted).table b.label = w.table b.label :=
    fun b hb => if_neg (hw.fresh_ne wanted hb)
  have hnew : (w.opened table wanted).table (w.state.fresh wanted) =
      table (w.state.fresh wanted) := if_pos rfl
  have hused : (w.opened table wanted).state.used = w.state.fresh wanted :: w.state.used :=
    used_opened _ _
  refine ⟨?_, ?_, ?_, ?_, ?_, ?_, ?_, ?_, hw.consistent.withDraft _⟩
  · refine hw.sound.open (fun hm => ?_) fun b hb b' hb' h => ?_
    · obtain ⟨b, hb, hl⟩ := List.mem_map.mp hm
      exact hw.fresh_ne wanted hb hl
    · show b.label ∈ (w.opened table wanted).table b'.label
      rw [hold b' hb']
      exact h
  · intro b hb
    rw [hused]
    rcases List.mem_append.mp hb with hb | hb
    · exact List.mem_cons_of_mem _ (hw.labelled b hb)
    · rw [List.mem_singleton.mp hb]
      exact List.mem_cons_self
  · intro x hx
    rw [hused]
    refine List.mem_cons_of_mem _ (hw.named x ?_)
    have hnames : (w.opened table wanted).blocks.flatMap (fun b => b.body.map Instruction.name) =
        w.blocks.flatMap fun b => b.body.map Instruction.name := by
      show (w.blocks ++ [({ label := w.state.fresh wanted } : Block)]).flatMap _ = _
      rw [List.flatMap_append]
      simp
    rwa [hnames] at hx
  · have hfirst := hw.first
    show (w.blocks ++ [({ label := w.state.fresh wanted } : Block)]).head?.map Block.label = _
    cases hb : w.blocks with
    | nil =>
      rw [hb] at hfirst
      cases hfirst
    | cons b rest =>
      rw [hb] at hfirst
      exact hfirst
  · obtain ⟨b, hb, hl⟩ := hw.entry_mem
    rw [← hl, hold b hb, hl]
    exact hw.root
  · intro b hb
    rcases List.mem_append.mp hb with hb | hb
    · rw [hold b hb]
      exact hw.table b hb
    · rw [List.mem_singleton.mp hb, hnew]
      exact ht
  · intro l l' he d hd
    have he' : Edge w.blocks l l' := Body.edge_opened.mp he
    obtain ⟨b', hb', rfl⟩ := hw.target_mem he'
    obtain ⟨b, hb, hl, -⟩ := id he'
    rw [hold b' hb'] at hd
    rw [← hl, hold b hb, hl]
    exact hw.edges l _ he' d hd
  · obtain ⟨b, hb, hl⟩ := hw.current
    exact ⟨b, List.mem_append_left _ hb, hl⟩

/-- The blocks `pending` have been opened, and nothing else has happened. -/
structure Prepared (w0 : Scaffold) (table : String → Set String) (pending : List String)
    (w : Scaffold) : Prop where
  changes : Changes .everything w0.state w.state
  used : w0.state.used ⊆ w.state.used
  blocks : w.blocks = w0.blocks ++ pending.map fun l => { label := l }
  current : w.current = w0.current
  fresh : ∀ l ∈ pending, l ∉ w0.state.used ∧ l ∈ w.state.used
  table : ∀ l ∈ pending, w.table l = table l
  old : ∀ b ∈ w0.blocks, w.table b.label = w0.table b.label
  distinct : pending.Nodup

theorem Prepared.refl (w : Scaffold) (table : String → Set String) : Prepared w table [] w where
  changes := .refl
  used := fun _ h => h
  blocks := (List.append_nil _).symm
  current := rfl
  fresh := by simp
  table := by simp
  old := fun _ _ => rfl
  distinct := List.nodup_nil

theorem Prepared.opened (h : Prepared w0 table pending w) (hw0 : Proper F w0) (wanted : String) :
    Prepared w0 table (pending ++ [w.state.fresh wanted]) (w.opened table wanted) := by
  have hfresh := fresh_not_mem w.state wanted
  have hused : (w.opened table wanted).state.used = w.state.fresh wanted :: w.state.used :=
    used_opened _ _
  have hmono : w.state.used ⊆ (w.opened table wanted).state.used := by
    rw [hused]
    exact fun _ => List.mem_cons_of_mem _
  refine ⟨h.changes.trans (.single (.draft _ _)), fun _ hx => hmono (h.used hx), ?_, h.current,
    ?_, ?_, ?_, ?_⟩
  · show w.blocks ++ [{ label := w.state.fresh wanted }] = _
    rw [h.blocks, List.map_append, List.append_assoc]
    rfl
  · intro l hl
    rcases List.mem_append.mp hl with hl | hl
    · exact ⟨(h.fresh l hl).1, hmono (h.fresh l hl).2⟩
    · rw [List.mem_singleton.mp hl]
      exact ⟨fun hm => hfresh (h.used hm), hused ▸ List.mem_cons_self⟩
  · intro l hl
    rcases List.mem_append.mp hl with hl | hl
    · have hne : l ≠ w.state.fresh wanted := fun heq => hfresh (heq ▸ (h.fresh l hl).2)
      exact (if_neg hne).trans (h.table l hl)
    · exact if_pos (List.mem_singleton.mp hl)
  · intro b hb
    have hne : b.label ≠ w.state.fresh wanted := fun heq =>
      hfresh (heq ▸ h.used (hw0.labelled b hb))
    exact (if_neg hne).trans (h.old b hb)
  · refine List.nodup_append.mpr ⟨h.distinct, List.nodup_singleton _, fun l hl l' hl' heq => ?_⟩
    rw [List.mem_singleton.mp hl'] at heq
    exact hfresh (heq ▸ (h.fresh l hl).2)

theorem Prepared.extends (h : Prepared w0 table pending w) : Extends w0 w where
  changes := h.changes
  used := h.used
  table := h.old
  blocks := fun b hb => ⟨b, by rw [h.blocks]; exact List.mem_append_left _ hb, rfl,
    ⟨[], by simp, by simp⟩, fun _ h => h⟩

theorem Prepared.has (h : Prepared w0 table pending w) (hw0 : Proper F w0) {o : Operand} {type : Ty}
    (ho : w0.Has F o type) : w.Has F o type := by
  refine ⟨?_, ho.2⟩
  rw [h.current]
  exact h.extends.reaches hw0.current ho.1

theorem Prepared.live (h : Prepared w0 table pending w) (hl : w0.Live) : w.Live := by
  obtain ⟨b, hb, hbl, ht⟩ := hl
  refine ⟨b, ?_, hbl.trans h.current.symm, ht⟩
  rw [h.blocks]
  exact List.mem_append_left _ hb

theorem Prepared.waiting (h : Prepared w0 table pending w) {l : String} (hl : l ∈ pending) :
    ({ label := l } : Block) ∈ w.blocks := by
  rw [h.blocks]
  exact List.mem_append_right _ (List.mem_map_of_mem hl)

/-! ## Ending blocks -/

/-- The current block may end like this: it leads to blocks of the function that no join begins,
and no block that is passed before those gets lost. -/
structure MayEnd (F : Form) (w : Scaffold) (t : Terminator) : Prop where
  targets : ∀ l ∈ t.targets, ∃ b ∈ w.blocks, b.label = l ∧ ∀ i ∈ b.body, i.operation.isPhi = false
  table : ∀ l ∈ t.targets, ∀ d ∈ w.table l, d = l ∨ d ∈ w.table w.current
  typed : t.WellTyped F.returns
  operands : ∀ o ∈ t.operands, w.Reaches F w.current o

section
variable {t : Terminator}

theorem edge_ended (hw : Proper F w) (hl : w.Live) {l l' : String} :
    Edge (w.ended t).blocks l l' ↔ Edge w.blocks l l' ∨ (l = w.current ∧ l' ∈ t.targets) := by
  have hopen : ∀ b ∈ (w.body F).blocks, b.label = w.current → b.terminator = none := by
    obtain ⟨c, hc, hcl, hct⟩ := hl
    intro b hb hbl
    obtain rfl := hw.block_eq hb hc (hbl.trans hcl.symm)
    exact hct
  refine (Body.edge_closed (f := w.body F) hopen).trans (or_congr_right ?_)
  exact ⟨fun h => ⟨h.1, h.2.1⟩, fun h => ⟨h.1, h.2, hw.current⟩⟩

theorem Proper.ended (hw : Proper F w) (hl : w.Live) (ht : MayEnd F w t) :
    Proper F (w.ended t) := by
  have hused : (w.ended t).state.used = w.state.fresh "" :: w.state.used := used_ended _ _
  have hlabels : (w.ended t).blocks.map Block.label = w.blocks.map Block.label :=
    Body.labels_changed (w.body F) w.current (fun b => { b with terminator := some t }) fun _ => rfl
  have hlabel {b' : Block} (hb' : b' ∈ (w.ended t).blocks) :
      ∃ b ∈ w.blocks, b.label = b'.label ∧ b'.body = b.body := by
    obtain ⟨b, hb, ⟨-, rfl⟩ | ⟨-, rfl⟩⟩ := Body.mem_changed (f := w.body F) hb'
    · exact ⟨b, hb, rfl, rfl⟩
    · exact ⟨_, hb, rfl, rfl⟩
  refine ⟨?_, ?_, ?_, ?_, hw.root, ?_, ?_, ?_, hw.consistent.withDraft _⟩
  · refine hw.sound.close (fun b hb hbl => ?_) fun b hb hmem i hi => ?_
    · obtain ⟨c, hc, hcl, hct⟩ := hl
      obtain rfl := hw.block_eq hb hc (hbl.trans hcl.symm)
      refine ⟨hct, fun l hmem => ?_, ht.typed, fun o ho => ?_⟩
      · obtain ⟨b', hb', hl', -⟩ := ht.targets l hmem
        exact ⟨b', hb', hl'⟩
      · exact Reaches.available hw hb (hbl ▸ ht.operands o ho)
    · obtain ⟨b', hb', hl', hphi⟩ := ht.targets b.label hmem
      obtain rfl := hw.block_eq hb' hb hl'
      exact hphi i hi
  · intro b' hb'
    obtain ⟨b, hb, hbl, -⟩ := hlabel hb'
    rw [hused, ← hbl]
    exact List.mem_cons_of_mem _ (hw.labelled b hb)
  · intro x hx
    rw [hused]
    refine List.mem_cons_of_mem _ (hw.named x ?_)
    refine (List.mem_append.mp hx).elim (List.mem_append_left _) fun hx => ?_
    obtain ⟨b', hb', hx⟩ := List.mem_flatMap.mp hx
    obtain ⟨b, hb, -, hbody⟩ := hlabel hb'
    exact List.mem_append_right _ (List.mem_flatMap.mpr ⟨b, hb, hbody ▸ hx⟩)
  · rw [← List.head?_map, hlabels, List.head?_map]
    exact hw.first
  · intro b' hb'
    obtain ⟨b, hb, hbl, -⟩ := hlabel hb'
    rw [← hbl]
    exact hw.table b hb
  · intro l l' he
    rcases (edge_ended hw hl).mp he with he | ⟨rfl, hmem⟩
    · exact hw.edges l l' he
    · exact ht.table l' hmem
  · obtain ⟨b, hb, hbl⟩ := hw.current
    have hm := List.mem_map_of_mem (f := Block.label) hb
    rw [← hlabels] at hm
    obtain ⟨b', hb', hbl'⟩ := List.mem_map.mp hm
    exact ⟨b', hb', hbl'.trans hbl⟩

theorem extends_ended (hw : Proper F w) (hl : w.Live) (t : Terminator) :
    Extends w (w.ended t) := by
  refine ⟨.single (.draft _ _), ?_, fun _ _ => rfl, fun b hb => ?_⟩
  · rw [show (w.ended t).state.used = _ from used_ended _ _]
    exact fun _ => List.mem_cons_of_mem _
  · refine ⟨_, List.mem_map_of_mem hb, ?_⟩
    split
    · rename_i hbl
      obtain ⟨c, hc, hcl, hct⟩ := hl
      obtain rfl := hw.block_eq hb hc (hbl.trans hcl.symm)
      refine ⟨rfl, ⟨[], by simp, by simp⟩, fun t' ht' => ?_⟩
      rw [hct] at ht'
      cases ht'
    · exact ⟨rfl, ⟨[], by simp, by simp⟩, fun _ h => h⟩

theorem mem_ended {b : Block} (hb : b ∈ w.blocks) (hl : b.label ≠ w.current) :
    b ∈ (w.ended t).blocks := List.mem_map.mpr ⟨b, hb, if_neg hl⟩

theorem ended_current (hw : Proper F w) (t : Terminator) : (w.ended t).Ended w.current := by
  obtain ⟨b, hb, hbl⟩ := hw.current
  exact ⟨_, List.mem_map.mpr ⟨b, hb, if_pos hbl⟩, hbl, t, rfl⟩

end

/-! ## Between the blocks of a branch or a loop -/

/-- A branch or a loop that began in `w0` has got to `w`, and its blocks `pending` wait to be
entered. -/
structure Scaffold.Inside (w0 : Scaffold) (pending : List String) (w : Scaffold) : Prop extends
    Extends w0 w where
  idle : ∀ b ∈ w0.blocks, b.terminator = none → b.label ≠ w0.current → b ∈ w.blocks
  edges : ∀ l l', Edge w.blocks l l' → (∃ b ∈ w0.blocks, b.label = l') → Edge w0.blocks l l'
  left : w.Ended w0.current
  fresh : ∀ b ∈ w.blocks, (∃ b0 ∈ w0.blocks, b0.label = b.label) ∨ b.label ∉ w0.state.used ∧
    (b.terminator = none → b.label = w.current ∨ b.label ∈ pending)
  waiting : ∀ l ∈ pending, l ∉ w0.state.used ∧ l ≠ w.current ∧
    ({ label := l } : Block) ∈ w.blocks
  current : w.current ∉ w0.state.used
  passed : w0.table w0.current ⊆ w.table w.current

namespace Scaffold.Inside
variable {t : Terminator} {rest : List String}

/-- Whatever is lowered in a block of its own keeps the others waiting. -/
theorem onward (h : w0.Inside pending w) (ho : Onward moves w w') (hw0 : Proper F w0)
    (hw : Proper F w) (hw' : Proper F w') : w0.Inside pending w' := by
  refine ⟨h.toExtends.trans ho.toExtends, ?_, ?_, ho.toExtends.ended h.left, ?_, ?_, ?_,
    h.passed.trans ho.passed⟩
  · intro b hb ht hne
    refine ho.idle b (h.idle b hb ht hne) ht fun heq => ?_
    exact h.current (heq ▸ hw0.labelled b hb)
  · intro l l' he hl
    obtain ⟨b, hb, rfl⟩ := hl
    obtain ⟨b', hb', hlabel, -⟩ := h.blocks b hb
    exact h.edges l _ (ho.edges l _ he ⟨b', hb', hlabel⟩) ⟨b, hb, rfl⟩
  · intro b' hb'
    rcases ho.fresh b' hb' with ⟨b, hb, hl⟩ | ⟨-, hnew, hcur⟩
    · refine (h.fresh b hb).imp (fun ⟨b0, hb0, hl0⟩ => ⟨b0, hb0, hl0.trans hl⟩) ?_
      rintro ⟨hnew, hcur⟩
      refine ⟨hl ▸ hnew, fun ht => ?_⟩
      rcases hcur (ho.toExtends.open_of_open hw' hb hb' hl.symm ht) with hc | hc
      · rcases ho.current with heq | ⟨-, -, hended⟩
        · exact .inl (hl.symm.trans (hc.trans heq.symm))
        · exact absurd ht (hended.not_open hw' hb' (hl.symm.trans hc))
      · exact .inr (hl ▸ hc)
    · exact .inr ⟨fun hm => hnew (h.used hm), fun ht => .inl (hcur ht)⟩
  · intro l hl
    obtain ⟨hnew, hne, hmem⟩ := h.waiting l hl
    refine ⟨hnew, ?_, ho.idle _ hmem rfl hne⟩
    rcases ho.current with heq | ⟨-, hfresh, -⟩
    · rwa [heq]
    · exact fun heq => hfresh (heq ▸ hw.labelled _ hmem)
  · rcases ho.current with heq | ⟨-, hfresh, -⟩
    · rw [heq]
      exact h.current
    · exact fun hm => hfresh (h.used hm)

/-- The current block ends, and leads to blocks that the branch or loop has made. -/
theorem terminated (h : w0.Inside pending w) (hw0 : Proper F w0) (hw : Proper F w) (hl : w.Live)
    (ht : ∀ l ∈ t.targets, l ∉ w0.state.used) : w0.Inside pending (w.ended t) := by
  have hkept {b : Block} (hb : b ∈ w.blocks) (hne : b.label ≠ w.current) :
      b ∈ (w.ended t).blocks := mem_ended hb hne
  refine ⟨h.toExtends.trans (extends_ended hw hl t), ?_, ?_, ?_, ?_, ?_, h.current, h.passed⟩
  · intro b hb hnone hne
    refine hkept (h.idle b hb hnone hne) fun heq => ?_
    exact h.current (heq ▸ hw0.labelled b hb)
  · intro l l' he hl'
    rcases (edge_ended hw hl).mp he with he | ⟨-, hmem⟩
    · exact h.edges l l' he hl'
    · obtain ⟨b, hb, rfl⟩ := hl'
      exact absurd (hw0.labelled b hb) (ht _ hmem)
  · exact (extends_ended hw hl t).ended h.left
  · intro b' hb'
    obtain ⟨b, hb, ⟨-, rfl⟩ | ⟨-, rfl⟩⟩ := Body.mem_changed (f := w.body F) hb'
    · exact (h.fresh b hb).imp_right fun hf => ⟨hf.1, fun hnone => nomatch hnone⟩
    · exact h.fresh _ hb
  · intro l hl
    obtain ⟨hnew, hne, hmem⟩ := h.waiting l hl
    exact ⟨hnew, hne, hkept hmem hne⟩

/-- A waiting block is entered after the current one has got its end. -/
theorem enter (h : w0.Inside pending w) (hw : Proper F w) (hended : w.Ended w.current)
    (hl : label ∈ pending) (hrest : ∀ l, l ∈ rest ↔ l ∈ pending ∧ l ≠ label)
    (hpass : w0.table w0.current ⊆ w.table label) : w0.Inside rest (w.entered label) := by
  have hextends : Extends w0 (w.entered label) :=
    ⟨h.changes.trans (.single (.draft _ _)), h.used, h.table, h.blocks⟩
  refine ⟨hextends, h.idle, h.edges, h.left, ?_, ?_, (h.waiting label hl).1, hpass⟩
  · intro b hb
    refine (h.fresh b hb).imp_right fun hf => ⟨hf.1, fun hnone => ?_⟩
    rcases hf.2 hnone with hc | hc
    · exact absurd hnone (hended.not_open hw hb hc)
    · by_cases heq : b.label = label
      · exact .inl heq
      · exact .inr ((hrest _).mpr ⟨hc, heq⟩)
  · intro l hmem
    obtain ⟨hp, hne⟩ := (hrest l).mp hmem
    obtain ⟨hnew, -, hb⟩ := h.waiting l hp
    exact ⟨hnew, hne, hb⟩

/-- A block of the branch or loop may get any instruction, also a join. -/
theorem emitted (h : w0.Inside pending w) (hw0 : Proper F w0) (op : Operation) (wanted : String) :
    w0.Inside pending (w.emitted op wanted) := by
  have hused : w.state.used ⊆ (w.emitted op wanted).state.used := by
    rw [show (w.emitted op wanted).state.used = _ from used_emitted _ _ _]
    exact fun _ => List.mem_cons_of_mem _
  have hkept {b : Block} (hb : b ∈ w.blocks) (hne : b.label ≠ w.current) :
      b ∈ (w.emitted op wanted).blocks := List.mem_map.mpr ⟨b, hb, if_neg hne⟩
  have hold {b b' : Block} (hb : b ∈ w0.blocks) (hl : b'.label = b.label) :
      b'.label ≠ w.current := fun heq => h.current (heq ▸ hl ▸ hw0.labelled b hb)
  refine ⟨⟨h.changes.trans (.single (.draft _ _)), fun _ hx => hused (h.used hx), h.table, ?_⟩, ?_,
    ?_, ?_, ?_, ?_, h.current, h.passed⟩
  · intro b hb
    obtain ⟨b', hb', hl, hrest⟩ := h.blocks b hb
    exact ⟨b', hkept hb' (hold hb hl), hl, hrest⟩
  · exact fun b hb hnone hne => hkept (h.idle b hb hnone hne) (hold hb rfl)
  · exact fun l l' he hl => h.edges l l' ((Body.edge_extended (f := w.body F)).mp he) hl
  · obtain ⟨b, hb, hl, ht⟩ := h.left
    refine ⟨b, hkept hb fun heq => ?_, hl, ht⟩
    obtain ⟨c, hc, hcl⟩ := hw0.current
    exact hold hc (hl.trans hcl.symm) heq
  · intro b' hb'
    obtain ⟨b, hb, ⟨-, rfl⟩ | ⟨-, rfl⟩⟩ := mem_emitted hb'
    · exact h.fresh b hb
    · exact h.fresh _ hb
  · intro l hl
    obtain ⟨hnew, hne, hmem⟩ := h.waiting l hl
    exact ⟨hnew, hne, hkept hmem hne⟩

/-- At the end no block waits. -/
theorem done (h : w0.Inside [] w) (hl : w.Live) : Onward True w0 w :=
  ⟨h.toExtends, h.idle, fun b hb => (h.fresh b hb).imp_right fun hf => ⟨trivial, hf.1, fun hnone =>
    (hf.2 hnone).resolve_right List.not_mem_nil⟩, h.edges, .inr ⟨trivial, h.current, h.left⟩,
    h.passed, fun _ => hl⟩

theorem live_of_waiting (h : w0.Inside pending w) (hl : label ∈ pending) :
    (w.entered label).Live := ⟨_, (h.waiting label hl).2.2, rfl, rfl⟩

theorem has (h : w0.Inside pending w) {o : Operand} {type : Ty} (ho : w0.Has F o type) :
    w.Has F o type := by
  refine ⟨?_, ho.2⟩
  cases o with
  | register x type =>
    refine ho.1.imp_right ?_
    rintro ⟨b, hb, hmem, i, hi, hd⟩
    obtain ⟨b', hb', hlabel, ⟨code, hcode, -⟩, -⟩ := h.blocks b hb
    refine ⟨b', hb', h.passed (hlabel ▸ hmem), i, ?_, hd⟩
    rw [hcode]
    exact List.mem_append_left _ hi
  | global name type => exact h.changes.provides ho.1
  | int value type => exact ho.1
  | double value => trivial
  | null type => exact ho.1

theorem settled (h : w0.Inside pending w) (hs : w0.Settled label) : w.Settled label := by
  obtain ⟨b, hb, hl, ht⟩ := hs
  cases hterm : b.terminator with
  | some t => exact (h.toExtends.ended ⟨b, hb, hl, t, hterm⟩).settled
  | none => exact (ht hterm).symm ▸ h.left.settled

/-- The parts of a branch or a loop are lowered on ground of their own. -/
theorem ground {scope : Scope} (h : w0.Inside pending w) (hg : Ground F scope w0) (hl : w.Live) :
    Ground F (scope.branching w0.current) w := by
  refine ⟨hl, h.settled hg.entry, fun x o hx => h.has (hg.params x o hx), fun label hlabel => ?_⟩
  cases ho : scope.outermost with
  | none =>
    rw [Scope.branching, ho] at hlabel
    cases hlabel
    exact h.left
  | some outer =>
    rw [Scope.branching, ho] at hlabel
    cases hlabel
    exact h.toExtends.ended (hg.outermost _ ho)

end Scaffold.Inside

/-- A branch or a loop begins: its blocks are open, the current block ends, and one of them is
entered. -/
theorem Prepared.fork {t : Terminator} {rest : List String} (h : Prepared w0 table pending w)
    (hw0 : Proper F w0) (hw : Proper F w) (hlive : w0.Live) (ht : ∀ l ∈ t.targets, l ∈ pending)
    (hl : label ∈ pending) (hrest : ∀ l, l ∈ rest ↔ l ∈ pending ∧ l ≠ label)
    (hpass : w0.table w0.current ⊆ table label) :
    w0.Inside rest ((w.ended t).entered label) := by
  have hlive' := h.live hlive
  have hcurrent : w.current ∈ w0.state.used := by
    obtain ⟨b, hb, hbl⟩ := hw0.current
    rw [h.current, ← hbl]
    exact hw0.labelled b hb
  have hne {l : String} (hl : l ∈ pending) : l ≠ w.current :=
    fun heq => (h.fresh l hl).1 (heq ▸ hcurrent)
  have hextends := h.extends.trans (extends_ended hw hlive' t)
  refine ⟨⟨hextends.changes.trans (.single (.draft _ _)), hextends.used, hextends.table,
    hextends.blocks⟩, ?_, ?_, ?_, ?_, ?_, (h.fresh label hl).1, ?_⟩
  · intro b hb _ hbne
    refine mem_ended ?_ (h.current ▸ hbne)
    rw [h.blocks]
    exact List.mem_append_left _ hb
  · intro l l' he hl'
    obtain ⟨b0, hb0, rfl⟩ := hl'
    rcases (edge_ended hw hlive').mp he with ⟨b, hb, hbl, t', ht', hmem⟩ | ⟨-, hmem⟩
    · rw [h.blocks] at hb
      rcases List.mem_append.mp hb with hb | hb
      · exact ⟨b, hb, hbl, t', ht', hmem⟩
      · obtain ⟨k, -, rfl⟩ := List.mem_map.mp hb
        cases ht'
    · exact absurd (hw0.labelled b0 hb0) (h.fresh _ (ht _ hmem)).1
  · rw [← h.current]
    exact ended_current hw t
  · intro b' hb'
    obtain ⟨b, hb, ⟨hbl, rfl⟩ | ⟨-, rfl⟩⟩ := Body.mem_changed (f := w.body F) hb'
    · obtain ⟨c, hc, hcl⟩ := hw0.current
      exact .inl ⟨c, hc, hcl.trans (h.current.symm.trans hbl.symm)⟩
    · have hb : b' ∈ w.blocks := hb
      rw [h.blocks] at hb
      rcases List.mem_append.mp hb with hb | hb
      · exact .inl ⟨b', hb, rfl⟩
      · obtain ⟨k, hk, rfl⟩ := List.mem_map.mp hb
        refine .inr ⟨(h.fresh k hk).1, fun _ => ?_⟩
        by_cases heq : k = label
        · exact .inl heq
        · exact .inr ((hrest k).mpr ⟨hk, heq⟩)
  · intro l hmem
    obtain ⟨hp, hlne⟩ := (hrest l).mp hmem
    exact ⟨(h.fresh l hp).1, hlne, mem_ended (h.waiting hp) (hne hp)⟩
  · show w0.table w0.current ⊆ w.table label
    rw [h.table label hl]
    exact hpass

/-! ## Steps of a computation between blocks -/

section
variable {R : β → Scaffold → Prop}

theorem achieves_addBlock {f : String → Lower β} {wanted : String}
    (ht : w.state.fresh wanted ∈ table (w.state.fresh wanted) ∧
      F.entry ∈ table (w.state.fresh wanted))
    (hf : Achieves F (w.opened table wanted) (f (w.state.fresh wanted)) R) :
    Achieves F w (addBlock wanted >>= f) R :=
  Achieves.step (w.opened table wanted) rfl (fun hw => hw.opened wanted ht) hf

theorem achieves_currentBlock {f : String → Lower β} (hf : Achieves F w (f w.current) R) :
    Achieves F w (currentBlock >>= f) R := Achieves.step w rfl id hf

theorem achieves_terminate {f : Unit → Lower β} {t : Terminator} (hl : w.Live)
    (ht : Proper F w → MayEnd F w t) (hf : Achieves F (w.ended t) (f ⟨⟩) R) :
    Achieves F w (terminate t >>= f) R :=
  Achieves.step (w.ended t) rfl (fun hw => hw.ended hl (ht hw)) hf

theorem achieves_enter {f : Unit → Lower β} (hl : ∃ b ∈ w.blocks, b.label = label)
    (hf : Achieves F (w.entered label) (f ⟨⟩) R) : Achieves F w (enter label >>= f) R :=
  Achieves.step (w.entered label) rfl (fun hw => hw.entered hl) hf

end

end DualEngine.Lowering
