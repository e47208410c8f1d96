import DualEngine.Proofs.Growth

/-! # Points that lowering passes

The current block and the code that it has so far mark a point of the finished function. Code that
is appended leads from one such point to the next, and the end of a block leads to the start of
another one. On the way out of the first block all stack cells of the function are made, also those
that lowering adds to it later.
-/
namespace DualEngine

namespace Machine
open IR

variable {image : Image} {invoke : Invoke} {previous : String} {used : List String}
  {exit : Terminator} {frame frame' : Frame} {i : Instruction}

theorem registers_operate {name : String} {op : Operation} {st st' : State} {w : Option Word}
    (h : operate image invoke previous name frame op st = .ok (w, frame') st') :
    frame'.registers = frame.registers := by
  cases op with
  | store value address =>
    obtain ⟨word, s1, -, h⟩ := bind_eq_ok.mp h
    obtain ⟨target, s2, -, h⟩ := bind_eq_ok.mp h
    obtain ⟨frame1, s3, h3, h⟩ := bind_eq_ok.mp h
    cases h
    unfold store at h3
    split at h3
    · cases h3
      rfl
    · cases h3
      rfl
    · split at h3
      · obtain ⟨_, _, -, h3⟩ := bind_eq_ok.mp h3
        obtain ⟨_, _, -, h3⟩ := bind_eq_ok.mp h3
        cases h3
        rfl
      · cases h3
    · cases h3
  | alloca type =>
    cases h
    rfl
  | element base index =>
    obtain ⟨b, s1, -, h⟩ := bind_eq_ok.mp h
    obtain ⟨i, s2, -, h⟩ := bind_eq_ok.mp h
    split at h
    · split at h
      · cases h
      · cases h
        rfl
    · cases h
  | select condition yes no =>
    obtain ⟨c, s1, -, h⟩ := bind_eq_ok.mp h
    cases c with
    | bit bit =>
      obtain ⟨_, _, -, h⟩ := bind_eq_ok.mp h
      obtain ⟨_, _, -, h⟩ := bind_eq_ok.mp h
      cases h
      rfl
    | _ => cases h
  | phi type incoming =>
    simp only [operate] at h
    generalize (incoming.find? fun i => i.2 == previous) = entry at h
    cases entry with
    | none => cases h
    | some i =>
      obtain ⟨_, _, -, h⟩ := bind_eq_ok.mp h
      cases h
      rfl
  | call callee args =>
    obtain ⟨_, _, -, h⟩ := bind_eq_ok.mp h
    obtain ⟨_, _, -, h⟩ := bind_eq_ok.mp h
    cases h
    rfl
  | _ =>
    obtain ⟨_, _, -, h⟩ := bind_eq_ok.mp h
    obtain ⟨_, _, -, h⟩ := bind_eq_ok.mp h
    try obtain ⟨_, _, -, h⟩ := bind_eq_ok.mp h
    cases h
    rfl

/-- Straight-line code sets its own registers only. -/
theorem registers_runBody {code : List Instruction} {st st' : State}
    (h : runBody image invoke previous code frame st = .ok frame' st') {x : String}
    (hx : x ∉ code.map Instruction.name) : frame'.registers.get? x = frame.registers.get? x := by
  induction code generalizing frame st with
  | nil =>
    cases h
    rfl
  | cons i rest ih =>
    simp only [List.map_cons, List.mem_cons, not_or] at hx
    obtain ⟨⟨w, frame1⟩, st1, h1, h2⟩ := bind_eq_ok.mp h
    rw [ih h2 hx.2]
    cases w with
    | none => rw [registers_operate h1]
    | some word => rw [Table.get?_insert, if_neg (Ne.symm hx.1), registers_operate h1]

/-- The register of a stack cell gets its address. -/
theorem alloca_runBody {code : List Instruction} {st st' : State}
    (h : runBody image invoke previous code frame st = .ok frame' st')
    (hd : (code.map Instruction.name).Nodup) (hi : i ∈ code) (hcell : i.isAlloca = true) :
    frame'.registers.get? i.name = some (.address (.stack i.name)) := by
  induction code generalizing frame st with
  | nil => simp at hi
  | cons j rest ih =>
    rw [List.map_cons, List.nodup_cons] at hd
    obtain ⟨⟨w, frame1⟩, st1, h1, h2⟩ := bind_eq_ok.mp h
    rcases List.mem_cons.mp hi with rfl | hi
    · rw [registers_runBody h2 hd.1]
      unfold Instruction.isAlloca at hcell
      split at hcell
      · rename_i type hop
        rw [hop] at h1
        cases h1
        rw [Table.get?_insert, if_pos rfl]
      · cases hcell
    · exact ih h2 hd.2 hi

variable {a b : Snap} {code : List Instruction}

theorem Runs.registers (h : Runs image code a b) {x : String}
    (hx : x ∉ code.map Instruction.name) :
    b.frame.registers.get? x = a.frame.registers.get? x := by
  obtain ⟨n, hn⟩ := h
  exact registers_runBody (hn n le_rfl "") hx

theorem Runs.alloca (h : Runs image code a b) (hd : (code.map Instruction.name).Nodup)
    (hi : i ∈ code) (hcell : i.isAlloca = true) :
    b.frame.registers.get? i.name = some (.address (.stack i.name)) := by
  obtain ⟨n, hn⟩ := h
  exact alloca_runBody (hn n le_rfl "") hd hi hcell

/-- Making stack cells sets registers and nothing else. -/
theorem runs_allocas (image : Image) (hc : ∀ i ∈ code, i.isAlloca = true) (a : Snap) :
    ∃ b, Runs image code a b ∧ b.state = a.state ∧ b.frame.stack = a.frame.stack := by
  induction code generalizing a with
  | nil => exact ⟨a, Runs.nil a, rfl, rfl⟩
  | cons i rest ih =>
    obtain ⟨x, op⟩ := i
    have hx := hc ⟨x, op⟩ List.mem_cons_self
    cases op with
    | alloca type =>
      obtain ⟨b, hr, hs, hst⟩ := ih (fun j hj => hc j (List.mem_cons_of_mem _ hj))
        (a.set x (.address (.stack x)))
      exact ⟨b, runs_alloca.append hr, hs, hst⟩
    | _ => cases hx

theorem quiet_of_state_eq (hr : ∀ x ∈ used, b.frame.registers.get? x = a.frame.registers.get? x)
    (hs : b.state = a.state) (hst : b.frame.stack = a.frame.stack) : Quiet used a b := by
  have hm : b.memory = a.memory := congrArg State.memory hs
  exact ⟨hr, hst, by rw [hm], Memory.extends_of_heap_eq (by rw [hm]), by rw [hs], by rw [hs]⟩

theorem Keeps.refl (used : List String) (a : Snap) : Keeps used used a a :=
  (Quiet.refl used a).keeps used

theorem Keeps.mono {used' used0 used1 : List String} (h : Keeps used used' a b) (h0 : used0 ⊆ used)
    (h1 : used' ⊆ used1) : Keeps used0 used1 a b :=
  ⟨fun x hx => h.registers x (h0 hx),
    fun x hx => h.stack x (hx.imp (fun hm => h0 hm) fun hn hm => hn (h1 hm)), h.heap⟩

theorem Keeps.next {used' : List String} {c : Snap} (h : Keeps used used' a b)
    (h' : Keeps used used' b c) : Keeps used used' a c :=
  ⟨fun x hx => (h'.registers x hx).trans (h.registers x hx),
    fun x hx => (h'.stack x hx).trans (h.stack x hx), h.heap.trans h'.heap⟩

end Machine

namespace Lowering
open IR Machine

/-- The point of the finished function `whole` that lowering has got to in `s`. -/
def here (whole s : State) (previous : String) (a : Snap) : Point where
  previous
  label := s.draft.current
  rest := ((whole.block? s.draft.current).elim [] Block.body).drop
    ((s.block? s.draft.current).elim 0 fun b => b.body.length)
  exit := (whole.block? s.draft.current).bind Block.terminator
  snap := a

variable {image : Image} {f : Function} {whole s s' t : State} {held : List String} {a b : Snap}
  {code : List Instruction} {loose : String → Prop}

theorem here_eq {now then' : Block} (hb : s.block? s.draft.current = some now)
    (hb' : whole.block? s.draft.current = some then') (hbody : then'.body = now.body ++ code)
    (previous : String) (a : Snap) :
    here whole s previous a = ⟨previous, s.draft.current, code, then'.terminator, a⟩ := by
  simp [here, hb, hb', hbody]

/-- Appended code leads from the point before it to the point after it. -/
theorem leads_extended {now : Block} (h : Appends code s s')
    (hb : s.block? s.draft.current = some now) (hset : Settles held s' whole)
    (hr : Runs image code a b) (previous : String) :
    Leads image f (here whole s previous a) (here whole s' previous b) := by
  have hb' : s'.block? s'.draft.current = some (now.extend code) := by
    rw [h.current, block?_appends h, if_pos rfl, hb]
    rfl
  obtain ⟨done, more, hdone, hgrown, -⟩ := hset.blocks _ _ hb'
  have hbody : done.body = now.body ++ (code ++ more) := by
    rw [hgrown.body, ← List.append_assoc]
    rfl
  rw [here_eq hb' hdone hgrown.body, here_eq hb (by rw [← h.current]; exact hdone) hbody, h.current]
  exact leads_of_runs hr _ _ _

theorem leads_appends (h : Appends code s s') (ha : Active s) (hset : Settles held s' whole)
    (hr : Runs image code a b) (previous : String) :
    Leads image f (here whole s previous a) (here whole s' previous b) := by
  obtain ⟨now, hb, -⟩ := ha
  exact leads_extended h hb hset hr previous

/-! ## Stack cells -/

theorem block?_entry {k : String} (h : s.entry = some k) : ∃ b, s.block? k = some b := by
  unfold State.entry at h
  cases hb : s.draft.blocks with
  | nil => simp [hb] at h
  | cons first rest =>
    simp only [hb, List.head?_cons, Option.map_some, Option.some.injEq] at h
    exact ⟨first, by simp [State.block?, blockAt, hb, h]⟩

/-- The code of the first block has names that are in use. -/
def Housed (s : State) : Prop :=
  ∀ k b, s.entry = some k → s.block? k = some b → ∀ i ∈ b.body, i.name ∈ s.used

theorem Evolves.housed (h : Evolves loose s s') (hs : Housed s) : Housed s' := by
  intro k b' hk hb' i hi
  rw [h.entry] at hk
  obtain ⟨b, hb⟩ := block?_entry hk
  obtain ⟨b'', code, hb'', hgrown, -⟩ := h.blocks k b hb
  obtain rfl : b'' = b' := Option.some.inj (hb''.symm.trans hb')
  rw [hgrown.body] at hi
  rcases List.mem_append.mp hi with hi | hi
  · exact h.used (hs k b hk hb i hi)
  · exact (hgrown.fresh i hi).2

/-- All stack cells of the function are made. -/
def Placed (whole : State) (a : Snap) : Prop :=
  ∀ k b i, whole.entry = some k → whole.block? k = some b → i ∈ b.body → i.isAlloca = true →
    a.frame.registers.get? i.name = some (.address (.stack i.name))

/-- The stack cells are made that the code so far makes; once the first block is left, these are
all. -/
def Places (whole s : State) (a : Snap) : Prop :=
  ∀ k b i, whole.entry = some k → whole.block? k = some b → i ∈ b.body → i.isAlloca = true →
    (k = s.draft.current → ∃ now, s.block? k = some now ∧ i ∈ now.body) →
    a.frame.registers.get? i.name = some (.address (.stack i.name))

theorem Placed.places (h : Placed whole a) (s : State) : Places whole s a :=
  fun k b i hk hb hi hc _ => h k b i hk hb hi hc

/-- Away from the first block all of them are. -/
theorem Places.placed (h : Places whole s a) (hs : whole.entry ≠ some s.draft.current) :
    Placed whole a :=
  fun k b i hk hb hi hc => h k b i hk hb hi hc fun he => absurd (he ▸ hk) hs

/-- Appended code makes its own stack cells and leaves the other ones alone. -/
theorem Places.appended (hp : Places whole s a) (h : Appends code s s')
    (hset : Settles held s' whole) (hh : Housed s)
    (hother : ∀ x, x ∉ code.map Instruction.name →
      b.frame.registers.get? x = a.frame.registers.get? x)
    (hown : ∀ i ∈ code, i.isAlloca = true →
      b.frame.registers.get? i.name = some (.address (.stack i.name))) : Places whole s' b := by
  intro k done i hk hdone hi hcell hnow
  have hentry : s.entry = some k := by rw [← hk, hset.entry, entry_appends h]
  obtain ⟨now, hb⟩ := block?_entry hentry
  have hold : i ∈ now.body → i.name ∈ s.used := hh k now hentry hb i
  have hb' := block?_appends h k
  rw [hb] at hb'
  by_cases hin : i.name ∈ code.map Instruction.name
  · obtain ⟨j, hj, hname⟩ := List.mem_map.mp hin
    have hfresh := h.fresh j hj
    rw [hname] at hfresh
    -- the code has a name of its own for it, so it is one of the code
    have hmem : i ∈ code := by
      split at hb'
      · obtain ⟨_, more, hdone', hgrown, -⟩ := hset.blocks k _ hb'
        obtain rfl := Option.some.inj (hdone.symm.trans hdone')
        rw [hgrown.body] at hi
        rcases List.mem_append.mp hi with hi | hi
        · rcases List.mem_append.mp hi with hi | hi
          · exact absurd (hold hi) hfresh.1
          · exact hi
        · exact absurd hfresh.2 (hgrown.fresh i hi).1
      · obtain ⟨_, more, hdone', hgrown, -⟩ := hset.blocks k _ hb'
        obtain rfl := Option.some.inj (hdone.symm.trans hdone')
        rw [hgrown.body] at hi
        rcases List.mem_append.mp hi with hi | hi
        · exact absurd (hold hi) hfresh.1
        · exact absurd hfresh.2 (hgrown.fresh i hi).1
    exact hown i hmem hcell
  · rw [hother _ hin]
    refine hp k done i hk hdone hi hcell fun he => ⟨now, hb, ?_⟩
    obtain ⟨b', hb'', hi'⟩ := hnow (he.trans h.current.symm)
    rw [if_pos he] at hb'
    obtain rfl := Option.some.inj (hb'.symm.trans hb'')
    rcases List.mem_append.mp hi' with hi' | hi'
    · exact hi'
    · exact absurd (List.mem_map_of_mem hi') hin

theorem Places.appends (hp : Places whole s a) (h : Appends code s s')
    (hset : Settles held s' whole) (hh : Housed s) (hr : Runs image code a b) :
    Places whole s' b :=
  hp.appended h hset hh (fun _ => hr.registers) fun _ hi => hr.alloca h.distinct hi

/-! ## From block to block -/

theorem here_whole {block : Block} (hb : whole.block? s.draft.current = some block)
    (previous : String) (a : Snap) :
    here whole (whole.entered s.draft.current) previous a =
      ⟨previous, s.draft.current, [], block.terminator, a⟩ :=
  here_eq (s := whole.entered s.draft.current) hb hb (List.append_nil _).symm previous a

/-- In `t` the current block of `s` has this end, and the code that it has in `s`. -/
structure Leaves (s : State) (exit : Terminator) (t : State) : Prop where
  block : ∃ now, s.block? s.draft.current = some now ∧
    t.block? s.draft.current = some { now with terminator := some exit }
  used : s.used ⊆ t.used
  entry : t.entry = s.entry

theorem leaves_ended (ha : Active s) (exit : Terminator) : Leaves s exit (s.ended exit) := by
  have hentry := (evolves_ended ha exit).entry
  obtain ⟨now, hb, -⟩ := ha
  refine ⟨⟨now, hb, ?_⟩, used_passed s exit s.draft.current, hentry⟩
  rw [block?_ended s exit s.draft.current, if_pos rfl, hb]
  rfl

theorem leaves_passed (ha : Active s) (exit : Terminator) (label : String) :
    Leaves s exit (s.passed exit label) :=
  have h := leaves_ended ha exit
  ⟨h.block, h.used, h.entry⟩

theorem Leaves.opened (hs : Labelled s) (ha : Active s) {wanted : String}
    (h : Leaves (s.opened wanted) exit t) : Leaves s exit t := by
  have e := evolves_opened (fun _ => False) hs ha.entry wanted
  obtain ⟨now, hb, hb'⟩ := h.block
  refine ⟨⟨now, ?_, hb'⟩, fun _ hx => h.used (e.used hx), h.entry.trans e.entry⟩
  obtain ⟨now', hnow, -⟩ := ha
  have hne : s.draft.current ≠ s.fresh wanted := by
    intro he
    exact fresh_not_mem s wanted (he ▸ labelled_of_block? hs hnow)
  have hopened := block?_opened hs wanted s.draft.current
  rw [if_neg hne] at hopened
  exact hopened.symm.trans hb

theorem leaves_forked (hs : Labelled s) (ha : Active s) (holds : Operand) :
    Leaves s (.branch holds s.thenLabel s.elseLabel) (s.forked holds) := by
  have O1 := (Opens.refl ha hs).opened hs "then"
  have O2 := O1.opened hs "else"
  have O3 := O2.opened hs "ifcont"
  exact (((leaves_passed O3.active _ _).opened O2.labelled O2.active).opened O1.labelled
    O1.active).opened hs ha

theorem leaves_looped (hs : Labelled s) (ha : Active s) :
    Leaves s (.jump s.conditionLabel) s.looped := by
  have O1 := (Opens.refl ha hs).opened hs "for.cond"
  have O2 := O1.opened hs "for.body"
  have O3 := O2.opened hs "for.step"
  have O4 := O3.opened hs "for.end"
  exact ((((leaves_passed O4.active _ _).opened O3.labelled O3.active).opened O2.labelled
    O2.active).opened O1.labelled O1.active).opened hs ha

/-- Between the code of a block and what is added to it late there are stack cells only. -/
theorem leads_late (image : Image) (f : Function) {u : State} (h : Leaves s exit t)
    (he : Evolves loose t u) (hl : ¬ loose s.draft.current) (hset : Settles held u whole)
    (hh : Housed s) (hp : Places whole s a) (previous : String) :
    ∃ b, Leads image f (here whole s previous a)
        (here whole (u.entered s.draft.current) previous b) ∧
      Quiet s.used a b ∧ Places whole (u.entered s.draft.current) b := by
  obtain ⟨now, hb, hb'⟩ := h.block
  obtain ⟨late, code, hlate, hgrown, hkept⟩ := he.blocks _ _ hb'
  obtain ⟨-, hcode⟩ := hkept hl
  obtain ⟨done, more, hdone, hgrown', -⟩ := hset.blocks _ _ hlate
  obtain ⟨b, hr, hstate, hstack⟩ := runs_allocas image (fun i hi => (hcode i hi).1) a
  have hfresh (x : String) (hx : x ∈ s.used) : x ∉ code.map Instruction.name := by
    intro hm
    obtain ⟨i, hi, rfl⟩ := List.mem_map.mp hm
    exact (hgrown.fresh i hi).1 (h.used hx)
  have hbody : done.body = now.body ++ (code ++ more) := by
    rw [hgrown'.body, hgrown.body, List.append_assoc]
  refine ⟨b, ?_, quiet_of_state_eq (fun x hx => hr.registers (hfresh x hx)) hstate hstack, ?_⟩
  · rw [here_eq hb hdone hbody,
      here_eq (s := u.entered s.draft.current) hlate hdone hgrown'.body]
    exact leads_of_runs hr _ _ _
  · intro k block i hk hblock hi hcell hnow
    by_cases hin : i.name ∈ code.map Instruction.name
    · obtain ⟨j, hj, -⟩ := List.mem_map.mp hin
      have hcurrent : k = s.draft.current := by
        have hentry := (hcode j hj).2
        rw [← he.entry, ← hset.entry, hk] at hentry
        exact Option.some.inj hentry
      subst hcurrent
      obtain ⟨late', hlate', hi'⟩ := hnow rfl
      obtain rfl := Option.some.inj (hlate.symm.trans hlate')
      rw [hgrown.body] at hi'
      rcases List.mem_append.mp hi' with hi' | hi'
      · have hs : s.entry = some s.draft.current := by
          rw [← hk, hset.entry, he.entry, h.entry]
        exact absurd hin (hfresh _ (hh _ now hs hb i hi'))
      · exact hr.alloca hgrown.distinct hi' hcell
    · rw [hr.registers hin]
      refine hp k block i hk hblock hi hcell ?_
      rintro rfl
      refine ⟨now, hb, ?_⟩
      obtain ⟨late', hlate', hi'⟩ := hnow rfl
      obtain rfl := Option.some.inj (hlate.symm.trans hlate')
      rw [hgrown.body] at hi'
      rcases List.mem_append.mp hi' with hi' | hi'
      · exact hi'
      · exact absurd (List.mem_map_of_mem hi') hin

/-- The end of a block is reached after the stack cells that were added to it late. -/
theorem leads_exit (image : Image) (f : Function) (h : Leaves s exit t)
    (hset : Settles held t whole) (hl : s.draft.current ∉ held) (hh : Housed s)
    (hp : Places whole s a) (previous : String) :
    ∃ b, Leads image f (here whole s previous a) ⟨previous, s.draft.current, [], some exit, b⟩ ∧
      Quiet s.used a b ∧ Placed whole b := by
  obtain ⟨now, hb, hb'⟩ := h.block
  have hloose : ¬ (s.draft.current ∈ held ∨
      ∃ b, t.block? s.draft.current = some b ∧ b.terminator = none) := by
    rintro (hk | ⟨now', hb'', hopen⟩)
    · exact hl hk
    · rw [hb'] at hb''
      cases hb''
      cases hopen
  have hend : Settles [] whole whole := .refl _ whole
  obtain ⟨b, hleads, hquiet, hplaces⟩ := leads_late image f h hset hloose hend hh hp previous
  obtain ⟨done, code, hdone, hgrown, hkept⟩ := hset.blocks _ _ hb'
  rw [here_whole hdone, (hkept hloose).1] at hleads
  refine ⟨b, hleads, hquiet, ?_⟩
  exact fun k block i hk hblock hi hcell =>
    hplaces k block i hk hblock hi hcell fun _ => ⟨block, hblock, hi⟩

/-- Nothing is in the current block yet. -/
def Starts (s : State) : Prop := s.block? s.draft.current = some { label := s.draft.current }

theorem Waits.starts {k : String} (h : Waits s k) (ha : Active s) (exit : Terminator) :
    Starts (s.passed exit k) := (h.ended ha exit).block

theorem starts_forked (hs : Labelled s) (ha : Active s) (holds : Operand) :
    Starts (s.forked holds) :=
  ((opens_branch ha hs).waits s.thenLabel (by simp)).starts (opens_branch ha hs).active _

theorem starts_looped (hs : Labelled s) (ha : Active s) : Starts s.looped :=
  ((opens_loop ha hs).waits s.conditionLabel (by simp)).starts (opens_loop ha hs).active _

theorem here_starts (h : Starts t) (hset : Settles held t whole) (previous : String) (a : Snap) :
    ∃ block, whole.block? t.draft.current = some block ∧
      here whole t previous a = startOf block previous t.draft.current a := by
  obtain ⟨done, code, hdone, hgrown, -⟩ := hset.blocks _ _ h
  refine ⟨done, hdone, ?_⟩
  rw [here_eq h hdone hgrown.body, startOf, hgrown.body]
  rfl

theorem Settles.of_passed (ha : Active s) {label : String}
    (h : Settles held (s.passed exit label) whole) : Settles held s whole := by
  refine Settles.of_evolves ((evolves_ended ha exit).trans
    (evolves_entered (fun _ => False) _ label) (by simp)) h ?_
  rintro k b hb rfl
  obtain ⟨now, hnow, hopen⟩ := ha
  obtain rfl := Option.some.inj (hnow.symm.trans hb)
  exact .inr hopen

theorem Settles.of_appends (ha : Active s) (A : Appends code s s') (h : Settles held s' whole) :
    Settles held s whole := Settles.of_grows ha (grows_appends ha A) h

theorem leads_jump_here (hf : f.blocks = whole.draft.blocks) (h : Starts t)
    (hset : Settles held t whole) (previous label : String) (a : Snap) :
    Leads image f ⟨previous, label, [], some (.jump t.draft.current), a⟩ (here whole t label a) := by
  obtain ⟨block, hb, heq⟩ := here_starts h hset label a
  rw [heq]
  exact leads_jump (by rw [hf]; exact hb)

theorem leads_branch_here (hf : f.blocks = whole.draft.blocks) (h : Starts t)
    (hset : Settles held t whole) {o : Operand} {holds : Bool} {yes no : String}
    (ho : Gives image a.frame o (.bit holds)) (ht : t.draft.current = if holds then yes else no)
    (previous label : String) :
    Leads image f ⟨previous, label, [], some (.branch o yes no), a⟩ (here whole t label a) := by
  obtain ⟨block, hb, heq⟩ := here_starts h hset label a
  rw [heq, ht]
  exact leads_branch ho (by rw [hf, ← ht]; exact hb)

/-- The point after a join of values. -/
theorem leads_phi_here {x previous : String} {type : Ty} {incoming : List (Operand × String)}
    {entry : Operand × String} {w : Word} (A : Appends [⟨x, .phi type incoming⟩] s s')
    (ha : Active s) (hset : Settles held s' whole)
    (hentry : (incoming.find? fun i => i.2 == previous) = some entry)
    (h : Gives image a.frame entry.1 w) :
    Leads image f (here whole s previous a) (here whole s' previous (a.set x w)) := by
  obtain ⟨now, hb, -⟩ := ha
  have hb' : s'.block? s'.draft.current = some (now.extend [⟨x, .phi type incoming⟩]) := by
    rw [A.current, block?_appends A, if_pos rfl, hb]
    rfl
  obtain ⟨done, more, hdone, hgrown, -⟩ := hset.blocks _ _ hb'
  have hbody : done.body = now.body ++ (⟨x, .phi type incoming⟩ :: more) := by
    rw [hgrown.body]
    simp [Block.extend]
  rw [here_eq hb' hdone hgrown.body, here_eq hb (by rw [← A.current]; exact hdone) hbody, A.current]
  exact leads_phi hentry h

end Lowering
end DualEngine
