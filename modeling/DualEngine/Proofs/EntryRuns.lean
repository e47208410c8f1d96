import DualEngine.Proofs.Calls
import DualEngine.Proofs.Foretold
import DualEngine.Proofs.Sessions

/-! # Runs of an entry function

The entry function of a submission starts in a memory where the constants of the module are loaded.
After the code of the tree it says whether there is a value and returns it.
-/
namespace DualEngine

namespace Machine
open IR Lowering

variable {a : Artifact} {m m' : Memory} {v : Value} {w : Word}

/-! ## Memory around the run -/

/-- The buffers of the empty text and the empty array are in place. -/
structure Memory.Founded (m : Memory) : Prop where
  text : m.heap[0]? = some ⟨1, .text ""⟩
  array : m.heap[1]? = some ⟨4, .ints [some 0]⟩

theorem loads_loaded (a : Artifact) (m : Memory) :
    Loads (prepared a m) {} a.module.globals (loaded a m).1 (loaded a m).2 :=
  loadConstants_spec _ _ _

theorem extends_loaded (a : Artifact) (m : Memory) : m.Extends (loaded a m).1 :=
  (Memory.extends_of_heap_eq (heap_prepared a m)).trans (loads_loaded a m).heap

theorem lt_size_of_getElem? {k : Nat} {b : Buffer} (h : m.heap[k]? = some b) : k < m.heap.size := by
  by_contra hk
  simp [Array.getElem?_eq_none (by omega : m.heap.size ≤ k)] at h

/-- A buffer from before the run is none of the constants. -/
theorem lasting_old (a : Artifact) {k : Nat} (hk : k < m.heap.size) (i : Nat) :
    Lasting (imageOf a m) (.address (.heap k i)) := by
  intro name j hc
  rcases (loads_loaded a m).origin name _ hc with hold | ⟨-, k', hk', hle, -⟩
  · cases hold
  · cases hk'
    rw [heap_prepared] at hle
    omega

/-- An array starts with its length. -/
theorem Memory.array?_eq_some {address : Address} {xs : List Int} (h : m.array? address = some xs) :
    ∃ k b, address = .heap k 0 ∧ m.heap[k]? = some b := by
  unfold Memory.array? at h
  split at h
  · rename_i k
    cases hb : m.heap[k]? with
    | none => simp [Memory.int?, hb] at h
    | some b => exact ⟨k, b, rfl, hb⟩
  · cases h

/-- What stands for a value depends on one buffer at most. -/
theorem Holds.buffer (h : Holds m v w) :
    (∀ m', Holds m' v w) ∧ (∀ image, Lasting image w) ∨
      ∃ k b, w = .address (.heap k 0) ∧ m.heap[k]? = some b ∧
        ∀ m', m'.heap[k]? = m.heap[k]? → Holds m' v w := by
  cases v with
  | int n =>
    obtain ⟨i, rfl, hi⟩ := holds_int.mp h
    exact .inl ⟨fun _ => holds_int.mpr ⟨i, rfl, hi⟩, fun _ => trivial⟩
  | float x =>
    obtain rfl := holds_float.mp h
    exact .inl ⟨fun _ => holds_float.mpr rfl, fun _ => trivial⟩
  | bool flag =>
    obtain rfl := holds_bool.mp h
    exact .inl ⟨fun _ => holds_bool.mpr rfl, fun _ => trivial⟩
  | none => simp at h
  | string t =>
    obtain ⟨address, rfl, ht⟩ := holds_string.mp h
    obtain ⟨k, size, text, rfl, hk, rfl⟩ := Memory.text?_eq_some ht
    exact .inr ⟨k, _, rfl, hk, fun m' hm => holds_string.mpr
      ⟨_, rfl, Memory.text?_heap (hm.trans hk)⟩⟩
  | intArray xs =>
    obtain ⟨address, rfl, hx⟩ := holds_intArray.mp h
    obtain ⟨k, b, rfl, hk⟩ := Memory.array?_eq_some hx
    refine .inr ⟨k, b, rfl, hk, fun m' hm => holds_intArray.mpr ⟨_, rfl, ?_⟩⟩
    have hint (i : Nat) : m'.int? k i = m.int? k i := by
      unfold Memory.int?
      rw [hm]
    rwa [Memory.array?_congr hint]

/-- What stood for a value before the module was loaded outlives it. -/
theorem Holds.rests (a : Artifact) (h : Holds m v w) : Rests (imageOf a m) (loaded a m).1 v w := by
  refine ⟨h.extend (extends_loaded a m), ?_⟩
  rcases h.buffer with ⟨-, hlasting⟩ | ⟨k, b, rfl, hk, -⟩
  · exact hlasting _
  · exact lasting_old a (lt_size_of_getElem? hk) 0

/-- Freeing the constants leaves alone what outlives the module. -/
theorem Rests.freed (h : Rests (imageOf a m) m' v w) :
    Holds (freeConstants m' (loaded a m).2) v w := by
  rcases h.1.buffer with ⟨hany, -⟩ | ⟨k, b, rfl, -, hother⟩
  · exact hany _
  · exact hother _ (freeConstants_kept m' ((loads_loaded a m).nodup List.nodup_nil) h.2)

theorem Memory.Founded.grounded (a : Artifact) (h : m.Founded) :
    Grounded (imageOf a m) (loaded a m).1 :=
  ⟨extends_loaded a m _ _ h.text, extends_loaded a m _ _ h.array,
    lasting_old a (lt_size_of_getElem? h.text) 0, lasting_old a (lt_size_of_getElem? h.array) 0⟩

theorem Grounded.founded (h : Grounded (imageOf a m) m') :
    (freeConstants m' (loaded a m).2).Founded := by
  have hn := (loads_loaded a m).nodup List.nodup_nil
  refine ⟨?_, ?_⟩
  · rw [freeConstants_kept m' hn h.lastingText]
    exact h.text
  · rw [freeConstants_kept m' hn h.lastingArray]
    exact h.array

theorem Memory.Extends.decode? (h : m.Extends m') {kind : Kind} (hv : decode? m kind w = some v) :
    decode? m' kind w = some v := by
  unfold Machine.decode? at hv ⊢
  split at hv
  all_goals first
    | exact hv
    | skip
  · obtain ⟨t, ht, rfl⟩ := Option.map_eq_some_iff.mp hv
    rw [h.text? ht]
    rfl
  · obtain ⟨xs, hx, rfl⟩ := Option.map_eq_some_iff.mp hv
    rw [h.array? hx]
    rfl

end Machine

namespace Lowering
open IR Machine

variable {image : Image} {f : Function} {s s' whole : State} {a b : Snap} {gs : List Global}
  {word : Option Word}

/-! ## The start -/

theorem block?_begun (c : Context Slot) (nextSlot number : Nat) (kind : Kind) (label : String) :
    (State.begun { context := c, nextSlot } (entryName number) kind).block? label =
      if "entry" = label then some { label } else none := by
  show blockAt [{ label := "entry" }] label = _
  unfold blockAt
  by_cases h : "entry" = label
  · subst h
    simp
  · simp [h]

theorem starts_begun (c : Context Slot) (nextSlot number : Nat) (kind : Kind) :
    Starts (State.begun { context := c, nextSlot } (entryName number) kind) := rfl

theorem poised_begun {c : Context Slot} {nextSlot : Nat} (h : Orderly c nextSlot) (number : Nat)
    (kind : Kind) : Poised {} (State.begun { context := c, nextSlot } (entryName number) kind) := by
  have hn := named_begun c nextSlot number kind
  refine ⟨⟨_, starts_begun c nextSlot number kind, rfl⟩, ?_, ⟨?_, hn.known, hn.texts, ?_⟩, ?_, ?_, ?_⟩
  · intro label hb
    rw [block?_begun] at hb
    split at hb
    · rename_i heq
      subst heq
      show "entry" ∈ entryDraft.names.used
      decide
    · cases hb
  · exact List.Nodup.sublist ((List.filter_sublist ..).map _) hn.distinct
  · intro name d signature _ hf
    rw [State.functions_begun] at hf
    cases hf
  · simpa using h.slotted
  · intro x o ho
    cases ho
  · intro l hl
    cases hl

theorem housed_begun (c : Context Slot) (nextSlot number : Nat) (kind : Kind) :
    Housed (State.begun { context := c, nextSlot } (entryName number) kind) := by
  intro k b _ hb i hi
  rw [block?_begun] at hb
  split at hb
  · cases hb
    cases hi
  · cases hb

/-! ## The end -/

theorem address_resultPresent {m : Memory} (h : Serves image m gs) :
    image.address resultPresent = .cell resultPresent := by
  rw [Image.address, h.no_constant (by decide)]
  rfl

theorem runs_store_present {x : String} {o : Operand} {w : Word} {type : Ty}
    (hs : Serves image a.memory gs) (ho : Gives image a.frame o w) :
    Runs image [⟨x, .store o (.global resultPresent type)⟩] a (a.setCell resultPresent w) := by
  refine runs_store ho (gives_global _ _) ?_
  rw [address_resultPresent hs]
  rfl

/-- Whether there is a value is put into its cell. -/
theorem storePresence_spec {ran : Option Operand}
    (hr : ∀ o, ran = some o → Fits o (.pointer .i1) s.used) :
    ∃ s' code, storePresence ran s = .ok ⟨⟩ s' ∧ Appends code s s' ∧
      ∀ image a present, Serves image a.memory s'.globals →
        (∀ o, ran = some o → ∃ y, Gives image a.frame o (.address (.stack y)) ∧
          a.frame.stack.get? y = some (.bit present)) → (ran = none → present = true) →
        ∃ b, Quiet s.used a b ∧
          Runs image code a (b.setCell resultPresent (.byte (if present then 1 else 0))) := by
  cases ran with
  | none =>
    obtain ⟨s1, h1, A1⟩ := external_spec s resultPresent .i8
    obtain ⟨x, s2, h2, A2, -⟩ := emit_spec s1
      (.store (.int 1 .i8) (.global resultPresent (.pointer .i8))) "" rfl
    refine ⟨s2, _, (bind_ok h1).trans ((bind_ok h2).trans rfl), A1.trans A2, ?_⟩
    intro image a present hs _ hpresent
    obtain rfl := hpresent rfl
    exact ⟨a, .refl _ _, runs_store_present hs (gives_byte 1)⟩
  | some flag =>
    have hfits := hr flag rfl
    have hload : (Operation.load flag).type = .i1 := by
      show flag.type.pointee = .i1
      rw [hfits.type]
      rfl
    obtain ⟨x, s1, h1, A1, hx⟩ := emit_spec s (.load flag) "ran" rfl
    rw [hload] at h1
    obtain ⟨y, s2, h2, A2, hy⟩ := emit_spec s1 (.convert .zext (.register x .i1) .i8) "" rfl
    obtain ⟨s3, h3, A3⟩ := external_spec s2 resultPresent .i8
    obtain ⟨z, s4, h4, A4, -⟩ := emit_spec s3
      (.store (.register y .i8) (.global resultPresent (.pointer .i8))) "" rfl
    refine ⟨s4, _, ?_, ((A1.trans A2).trans A3).trans A4, ?_⟩
    · exact (bind_ok h1).trans ((bind_ok h2).trans ((bind_ok h3).trans ((bind_ok h4).trans rfl)))
    · intro image a present hs hflag _
      obtain ⟨cell, hg, hcell⟩ := hflag flag rfl
      have q1 := quiet_set A1.name_fresh a (.bit present)
      have q2 := quiet_set A2.name_fresh (a.set x (.bit present)) (.byte (if present then 1 else 0))
      refine ⟨_, q1.trans q2 A1.used, ?_⟩
      have r1 := runs_load_stack (x := x) hg hcell
      have r2 : Runs image [⟨y, .convert .zext (.register x .i1) .i8⟩] (a.set x (.bit present)) _ :=
        runs_convert (gives_set a x .i1 (.bit present)) rfl
      have hserves : Serves image ((a.set x (.bit present)).set y (.byte (if present then 1 else 0))).memory
          s4.globals := hs
      exact (r1.append r2).append (runs_store_present hserves (gives_set _ y .i8 _))

/-- How a function ends: with the word, in the state of the snapshot. -/
def Exits (image : Image) (a : Snap) (exit : Terminator) (word : Option Word) : Prop :=
  match word with
  | none => exit = .retVoid
  | some w => ∃ o, exit = .ret o ∧ Gives image a.frame o w

theorem Exits.ends {exit : Terminator} (h : Exits image a exit word) (previous label : String) :
    Ends image f ⟨previous, label, [], some exit, a⟩ (.ok word a.state) := by
  cases word with
  | none =>
    obtain rfl : exit = .retVoid := h
    exact ends_retVoid
  | some w =>
    obtain ⟨o, rfl, hg⟩ := h
    exact ends_ret hg

/-- The value is returned; a bool fills a byte. -/
theorem returnResult_spec {value : Option Typed} (hv : ResultFits s.used value) :
    ∃ s' code exit, returnResult (kindOf value) (value.map Typed.operand) s = .ok ⟨⟩ (s'.ended exit) ∧
      Appends code s s' ∧
      ∀ image a u, CarriesResult image a value u →
        ∃ b word, Quiet s.used a b ∧ Runs image code a b ∧
          (∀ c, Quiet s'.used b c → Exits image c exit word) ∧
          (u = .none ∧ kindOf value = .none ∨
            ∃ w, word = some w ∧ decode? b.memory (kindOf value) w = some u) := by
  cases value with
  | none =>
    refine ⟨s, [], .retVoid, rfl, .refl s, fun image a u hu => ?_⟩
    exact ⟨a, none, .refl _ _, Runs.nil a, fun _ _ => rfl, .inl ⟨hu, rfl⟩⟩
  | some t =>
    by_cases hbool : t.kind = .bool
    · have htype : t.operand.type = .i1 := by
        have h := hv.type
        rwa [hbool] at h
      obtain ⟨x, s1, h1, A1, hx⟩ := emit_spec s (.convert .zext t.operand .i8) "" rfl
      refine ⟨s1, _, .ret (.register x .i8), ?_, A1, fun image a u hu => ?_⟩
      · show returnResult t.kind (some t.operand) s = _
        have hcast := cast_of_ne .zext (show t.operand.type ≠ .i8 by simp [htype]) ""
        simp only [returnResult, hbool, if_true, hcast]
        exact (bind_ok h1).trans rfl
      · obtain ⟨hkind, w, hg, hstands⟩ := hu
        have hu : u.kind = .bool := hkind.symm.trans hbool
        cases u with
        | bool bit =>
          obtain rfl := holds_bool.mp hstands.1
          have hruns : Runs image [⟨x, .convert .zext t.operand .i8⟩] a
              (a.set x (.byte (if bit then 1 else 0))) := runs_convert hg rfl
          refine ⟨_, some (.byte (if bit then 1 else 0)), quiet_set A1.name_fresh a _, hruns, ?_,
            .inr ⟨_, rfl, ?_⟩⟩
          · exact fun c hq => ⟨_, rfl, (gives_set a x .i8 _).keep hx hq.registers⟩
          · show decode? _ t.kind _ = _
            rw [hbool]
            cases bit <;> rfl
        | _ => cases hu
    · refine ⟨s, [], .ret t.operand, ?_, .refl s, fun image a u hu => ?_⟩
      · show returnResult t.kind (some t.operand) s = _
        simp only [returnResult, hbool, if_false]
        rfl
      · obtain ⟨hkind, w, hg, hstands⟩ := hu
        refine ⟨a, some w, .refl _ _, Runs.nil a, ?_, .inr ⟨w, rfl, ?_⟩⟩
        · exact fun c hq => ⟨_, rfl, hg.keep hv.known hq.registers⟩
        · show decode? a.memory t.kind w = some u
          rw [hkind]
          exact hstands.1.decode

/-- What the end of the entry function has done: it says whether there is a value, and returns it. -/
structure Closes (image : Image) (kind : Kind) (u : Value) (ran : Bool) (a b : Snap)
    (word : Option Word) : Prop where
  heap : a.memory.Extends b.memory
  cells : b.memory.cells = a.memory.cells.insert resultPresent (.byte (if ran then 1 else 0))
  out : b.state.out = a.state.out
  value : u = .none ∧ kind = .none ∨
    ∃ w, word = some w ∧ decode? b.memory kind w = some u

/-- The end of an entry function whose value has the predicted kind. -/
theorem closeEntry_spec (entry : String) {r : Lowered} (hr : r.Fits s.used) :
    ∃ t code exit, closeEntry entry (kindOf r.value) r s =
        .ok ⟨⟩ ((t.ended exit).closed entry [] (t.ended exit).draft.blocks) ∧
      Appends code s t ∧
      ∀ image a u ran, Serves image a.memory t.globals → Returned image a r u ran →
        ∃ b word, Runs image code a b ∧ Closes image (kindOf r.value) u ran a b word ∧
          ∀ c, Quiet t.used b c → Exits image c exit word := by
  obtain ⟨s2, code2, h2, A2, run2⟩ := storePresence_spec hr.ran
  obtain ⟨s3, code3, exit, h3, A3, run3⟩ := returnResult_spec (hr.value.mono A2.used)
  refine ⟨s3, code2 ++ code3, exit, ?_, A2.trans A3, ?_⟩
  · exact (bind_ok (coerce_kindOf r.value s)).trans ((bind_ok h2).trans ((bind_ok h3).trans
      (bind_ok (get_run _))))
  intro image a u ran hs hret
  obtain ⟨b2, q2, r2⟩ := run2 image a ran (A3.serves hs) hret.flag hret.always
  have hcarries : CarriesResult image (b2.setCell resultPresent (.byte (if ran then 1 else 0)))
      r.value u := hret.value.kept hr.value
        ((q2.keeps s.used).next (keeps_setCell s.used s.used b2 _ _))
  obtain ⟨b3, word, q3, r3, hexits, hvalue⟩ := run3 image _ u hcarries
  refine ⟨b3, word, r2.append r3, ⟨?_, ?_, ?_, hvalue⟩, hexits⟩
  · exact q2.heap.trans ((Memory.extends_of_heap_eq rfl).trans q3.heap)
  · rw [q3.cells]
    show b2.memory.cells.insert _ _ = _
    rw [q2.cells]
  · exact q3.out.trans q2.out

/-! ## A lowered submission -/

section
variable (c : Context Slot) (number nextSlot : Nat) (node : Node)

/-- The state in which the tree of a submission is lowered. -/
def entryStart : State :=
  State.begun { context := c, nextSlot } (entryName number) (Prediction.predictResult c node)

/-- The entry function whose lowering ended in `whole`. -/
def entryFunction (whole : State) : Function where
  signature := entrySignature (entryName number) (Prediction.predictResult c node)
  params := []
  blocks := whole.draft.blocks

/-- The artifact of a submission whose tree is lowered up to `s`; then follow `code` and `exit`. -/
structure Entry (a : Artifact) (r : Lowered) (s t : State) (code : List Instruction)
    (exit : Terminator) : Prop where
  moves : ∃ new, Moves {} (entryStart c number nextSlot node) s new
  fits : r.Fits s.used
  kind : a.kind = kindOf r.value
  context : a.context = s.context
  created : a.created = s.created
  appends : Appends code s t
  texts : ∀ name contents, Global.text name contents ∈ t.globals →
    Global.text name contents ∈ a.module.globals
  /-- What has got its blocks before is not lost. -/
  functions : ∀ f, Global.function f ∈ t.globals → f.blocks ≠ [] →
    Global.function f ∈ a.module.globals ∧
      ∀ m, (imageOf a m).function? f.signature.name = some f
  serves : ∀ m, Serves (imageOf a m) (loaded a m).1 a.module.globals
  function : ∀ m, (imageOf a m).function? a.entry =
    some (entryFunction c number node (t.ended exit))
  slots : ∀ slot ∈ a.created, nextSlot ≤ slot.number
  runs : ∀ image b u ran, Serves image b.memory t.globals → Returned image b r u ran →
    ∃ b' word, Runs image code b b' ∧ Closes image (kindOf r.value) u ran b b' word ∧
      ∀ b'', Quiet t.used b' b'' → Exits image b'' exit word

end

variable {c : Context Slot} {number nextSlot : Nat} {node : Node} {r : Lowered} {t : State}
  {code : List Instruction} {exit : Terminator}

theorem knows_self (c : Context Slot) : Knows c {} {} c :=
  ⟨fun _ => by simp [Prediction.name?, Table.get?, Table.find?], fun _ => rfl⟩

theorem blocks_ne_nil (h : Leaves s exit t) : t.draft.blocks ≠ [] := by
  obtain ⟨now, -, hb⟩ := h.block
  intro hnil
  simp [State.block?, blockAt, hnil] at hb

/-- If lowering the tree succeeds, so does lowering the submission. -/
theorem lowerSubmission_entry (ho : Orderly c nextSlot)
    (hr : Regular (emitEarlier c.functions.entries.length) c.functions node)
    (h : lower (emitEarlier c.functions.entries.length) {} node (entryStart c number nextSlot node) =
      .ok r s) :
    ∃ a next t code exit, lowerSubmission c number nextSlot node = (.ok a, next) ∧
      Entry c number nextSlot node a r s t code exit := by
  have hp : Poised {} (entryStart c number nextSlot node) := poised_begun ho number _
  have hcontext : (entryStart c number nextSlot node).context = c := by simp [entryStart]
  have hr' : Regular (emitEarlier c.functions.entries.length)
      (entryStart c number nextSlot node).context.functions node := by rwa [hcontext]
  obtain ⟨new, hm, hfits, -⟩ := lowers _ node _ _ _ _ hr' hp h
  have hkind : kindOf r.value = Prediction.predictResult c node :=
    (foretells _ node c {} {} _ _ _ hr' hp (by rw [hcontext]; exact knows_self c) h).1
  obtain ⟨t, code, exit, h2, A, hruns⟩ := closeEntry_spec (entryName number) hfits
  rw [hkind] at h2
  have hrun : lowerEntry (entryName number) (Prediction.predictResult c node) node
      { context := c, nextSlot } =
        .ok ⟨⟩ ((t.ended exit).closed (entryName number) [] (t.ended exit).draft.blocks) := by
    rw [lowerEntry_run]
    exact (bind_ok h).trans h2
  refine ⟨_, _, t, code, exit, lowerSubmission_ok hrun, ?_⟩
  have hc := makes_lowerEntry Grant.everything (c := c)
    (fun _ d _ => Grant.everything_covers d.body) (Grant.everything_covers node) number nextSlot
    (Prediction.predictResult c node)
  rw [hrun] at hc
  have hnamed := hc.named (named_begun c nextSlot number _)
  have hdeclared : Declared
      ((t.ended exit).closed (entryName number) [] (t.ended exit).draft.blocks)
      (entrySignature (entryName number) (Prediction.predictResult c node)) :=
    hc.declared (declared_begun c nextSlot number _)
  refine ⟨⟨new, hm⟩, hfits, hkind.symm, A.context, A.created, A, ?_, ?_, ?_, ?_, ?_, hruns⟩
  · intro name contents hg
    rw [globals_closed]
    exact List.mem_map.mpr ⟨_, hg, rfl⟩
  · intro f hf hb
    -- the entry function itself has no blocks yet
    have hentry := A.globals ((hm.grown hp).evolves.globals
      (mem_begun c nextSlot number (Prediction.predictResult c node)))
    have hne : f.signature.name ≠ entryName number := fun heq =>
      hb (congrArg Function.blocks
        ((A.tidy ((hm.poised hp).tidy)).function_eq hf hentry heq))
    have hmem : Global.function f ∈
        ((t.ended exit).closed (entryName number) [] (t.ended exit).draft.blocks).globals := by
      rw [globals_closed]
      exact List.mem_map.mpr ⟨_, hf, closedGlobal_of_ne hne⟩
    exact ⟨hmem, fun m => function?_of_mem hnamed.distinct hmem hb⟩
  · exact serves_loaded hnamed rfl
  · intro m
    refine function?_of_mem hnamed.distinct (mem_closed
      (entrySignature (entryName number) (Prediction.predictResult c node)) hdeclared) ?_
    exact blocks_ne_nil (leaves_ended ((moves_appends {} (hm.poised hp).active A).poised
      (hm.poised hp)).active exit)
  · exact fun slot hs => (hc.allotted (allotted_begun ho _ _)).created slot hs |>.1

/-- The words of a result are read back. -/
theorem Closes.result {image : Image} {kind : Kind} {u : Value} {ran : Bool} {used : List String}
    {d : Snap} (h : Closes image kind u ran a b word) (hq : Quiet used b d) :
    Machine.result kind word d.state = .ok (if ran then u else .none) d.state := by
  have hcell : d.state.memory.cells.get? resultPresent = some (.byte (if ran then 1 else 0)) := by
    show d.memory.cells.get? resultPresent = _
    rw [hq.cells, h.cells, Table.get?_insert, if_pos rfl]
  unfold Machine.result
  rw [bind_ok (get_run d.state), hcell]
  cases ran with
  | false => rfl
  | true =>
    rcases h.value with ⟨rfl, rfl⟩ | ⟨w, rfl, hw⟩
    · rfl
    · have hd : decode? d.state.memory kind w = some u := hq.heap.decode? hw
      cases kind with
      | none =>
        cases hd
        rfl
      | _ =>
        show ofOption .memory (decode? d.state.memory _ w) d.state = _
        rw [hd]
        rfl

end Lowering
end DualEngine
