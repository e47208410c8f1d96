import DualEngine.Proofs.Coercions

/-! # Arrays in generated code

An array literal is a new buffer: its length is stored first, then the elements one after the
other. What is stored so far is a front of the buffer, and the rest of it is unset.
-/
namespace DualEngine

namespace Machine
open IR

/-- The front of a buffer is set, and a number of places after it are not. -/
def partly (front : List Int32) (unset : Nat) : Contents :=
  .ints (front.map some ++ List.replicate unset none)

variable {m : Memory} {k size : Nat}

/-- Storing right after the front makes the front longer. -/
theorem writeInt?_partly {front : List Int32} {unset : Nat} (n : Int32)
    (hk : m.heap[k]? = some ⟨size, partly front (unset + 1)⟩) :
    ∃ m', m.writeInt? k front.length n = some m' ∧
      m'.heap[k]? = some ⟨size, partly (front ++ [n]) unset⟩ ∧
      (∀ j, j ≠ k → m'.heap[j]? = m.heap[j]?) ∧ m'.cells = m.cells := by
  refine ⟨m.setContents k (partly (front ++ [n]) unset), ?_, ?_, ?_, rfl⟩
  · have hset : (front.map some ++ List.replicate (unset + 1) none).set front.length (some n) =
        (front ++ [n]).map some ++ List.replicate unset none := by
      rw [List.set_append_right _ _ (by simp)]
      simp [List.replicate_succ]
    have hlt : front.length < (front.map some ++ List.replicate (unset + 1) none).length := by simp
    simp only [Memory.writeInt?, hk, partly, hlt, if_true, hset]
  · simp [Memory.setContents, Array.getElem?_modify, hk]
  · intro j hj
    simp [Memory.setContents, Array.getElem?_modify, Ne.symm hj]

/-- The first store into a blank buffer. -/
theorem writeInt?_blank (unset : Nat) (n : Int32) (hk : m.heap[k]? = some ⟨size, .blank⟩)
    (hsize : size / 4 = unset + 1) :
    ∃ m', m.writeInt? k 0 n = some m' ∧ m'.heap[k]? = some ⟨size, partly [n] unset⟩ ∧
      (∀ j, j ≠ k → m'.heap[j]? = m.heap[j]?) ∧ m'.cells = m.cells := by
  refine ⟨m.setContents k (partly [n] unset), ?_, ?_, ?_, rfl⟩
  · simp [Memory.writeInt?, hk, hsize, List.replicate_succ, partly]
  · simp [Memory.setContents, Array.getElem?_modify, hk]
  · intro j hj
    simp [Memory.setContents, Array.getElem?_modify, Ne.symm hj]

theorem int?_partly {front : List Int32} (hk : m.heap[k]? = some ⟨size, partly front 0⟩) (i : Nat) :
    m.int? k i = front[i]? := by
  simp only [Memory.int?, hk, partly, List.replicate_zero, List.append_nil, List.getElem?_map]
  cases front[i]? <;> rfl

theorem intsFrom?_partly (done rest : List Int32)
    (hk : m.heap[k]? = some ⟨size, partly (done ++ rest) 0⟩) :
    m.intsFrom? k done.length rest.length = some (rest.map Int32.toInt) := by
  induction rest generalizing done with
  | nil => rfl
  | cons n rest ih =>
    have hn : m.int? k done.length = some n := by
      rw [int?_partly hk]
      simp
    have hrest := ih (done ++ [n]) (by simpa using hk)
    rw [List.length_append, List.length_singleton] at hrest
    simp [Memory.intsFrom?, hn, hrest]

/-- A buffer with its length in front is an array. -/
theorem array?_partly {xs : List Int32} (hlen : xs.length < 2 ^ 31)
    (hk : m.heap[k]? = some ⟨size, partly (Int32.ofNat xs.length :: xs) 0⟩) :
    m.array? (.heap k 0) = some (xs.map Int32.toInt) := by
  have hcount : (Int32.ofNat xs.length).toInt.toNat = xs.length := by
    rw [Int32.toInt_ofNat_of_lt hlen, Int.toNat_natCast]
  have hfrom := intsFrom?_partly [Int32.ofNat xs.length] xs hk
  simp only [Memory.array?, int?_partly hk, List.getElem?_cons_zero, Option.bind_eq_bind,
    Option.bind_some, hcount]
  exact hfrom

/-- From `a` to `b` code computed and wrote into the buffer `k`. -/
structure Writes (k : Nat) (used : List String) (a b : Snap) : Prop where
  registers : ∀ x ∈ used, b.frame.registers.get? x = a.frame.registers.get? x
  stack : b.frame.stack = a.frame.stack
  cells : b.memory.cells = a.memory.cells
  heap : ∀ j, j ≠ k → b.memory.heap[j]? = a.memory.heap[j]?
  out : b.state.out = a.state.out
  generator : b.state.generator = a.state.generator

variable {used used' : List String} {a b c : Snap}

theorem Writes.refl (k : Nat) (used : List String) (a : Snap) : Writes k used a a :=
  ⟨fun _ _ => rfl, rfl, rfl, fun _ _ => rfl, rfl, rfl⟩

theorem Writes.trans (h : Writes k used a b) (h' : Writes k used' b c) (hs : used ⊆ used') :
    Writes k used a c where
  registers x hx := (h'.registers x (hs hx)).trans (h.registers x hx)
  stack := h'.stack.trans h.stack
  cells := h'.cells.trans h.cells
  heap j hj := (h'.heap j hj).trans (h.heap j hj)
  out := h'.out.trans h.out
  generator := h'.generator.trans h.generator

theorem writes_set {x : String} (hx : x ∉ used) (k : Nat) (a : Snap) (w : Word) :
    Writes k used a (a.set x w) :=
  ⟨(quiet_set hx a w).registers, rfl, rfl, fun _ _ => rfl, rfl, rfl⟩

theorem writes_memory {m : Memory} (used : List String)
    (hheap : ∀ j, j ≠ k → m.heap[j]? = a.memory.heap[j]?) (hcells : m.cells = a.memory.cells) :
    Writes k used a (a.setMemory m) :=
  ⟨fun _ _ => rfl, rfl, hcells, hheap, rfl, rfl⟩

/-- Code that makes a buffer and then only writes into that one only computes. -/
theorem Writes.quiet {size : Nat} {contents : Contents}
    (h : Writes a.memory.heap.size used (a.addBuffer size contents) b) : Quiet used a b where
  registers := h.registers
  stack := h.stack
  cells := h.cells
  heap := by
    intro j buffer hj
    have hlt : j < a.memory.heap.size := by
      by_contra hge
      simp [Array.getElem?_eq_none (Nat.le_of_not_lt hge)] at hj
    rw [h.heap j hlt.ne]
    exact extends_addBuffer a size contents j buffer hj
  out := h.out
  generator := h.generator

theorem runs_store_int {image : Image} {x : String} {o l : Operand} {n : Int32} {i : Nat}
    {m : Memory} (ho : Gives image a.frame o (.int n))
    (hl : Gives image a.frame l (.address (.heap k i))) (hm : a.memory.writeInt? k i n = some m) :
    Runs image [⟨x, .store o l⟩] a (a.setMemory m) := by
  refine runs_store ho hl ?_
  show (do
    let s ← get
    let memory ← ofOption .memory (s.memory.writeInt? k i n)
    set { s with memory }
    pure a.frame : Run Frame) a.state = _
  rw [bind_ok (get_run _), hm]
  rfl

end Machine

namespace Lowering
open IR Machine

/-- The operands give the integers. -/
def GiveInts (image : Image) (frame : Frame) (os : List Operand) (ns : List Int32) : Prop :=
  List.Forall₂ (fun o n => Gives image frame o (.int n)) os ns

theorem GiveInts.keep {image : Image} {frame frame' : Frame} {used : List String}
    {os : List Operand} {ns : List Int32} (h : GiveInts image frame os ns)
    (hos : ∀ o ∈ os, o.Known used)
    (hr : ∀ x ∈ used, frame'.registers.get? x = frame.registers.get? x) :
    GiveInts image frame' os ns := by
  induction h with
  | nil => exact .nil
  | cons ho _ ih =>
    exact .cons (ho.keep (hos _ (by simp)) hr) (ih fun o h => hos o (by simp [h]))

theorem storeElements_spec {s : State} {buffer : Operand} (hbuffer : Fits buffer .ints s.used)
    (i : Nat) (os : List Operand) (hos : ∀ o ∈ os, Fits o .i32 s.used) :
    ∃ s' code, buildArray.storeElements buffer i os s = .ok ⟨⟩ s' ∧ Appends code s s' ∧
      ∀ image a k size front ns, Gives image a.frame buffer (.address (.heap k 0)) →
        GiveInts image a.frame os ns → front.length = i → i + os.length ≤ 2 ^ 31 →
        a.memory.heap[k]? = some ⟨size, partly front os.length⟩ →
        ∃ b, Runs image code a b ∧ Writes k s.used a b ∧
          b.memory.heap[k]? = some ⟨size, partly (front ++ ns) 0⟩ := by
  induction os generalizing s i with
  | nil =>
    refine ⟨s, [], rfl, Appends.refl s, ?_⟩
    rintro image a k size front ns - hns - - hk
    cases hns
    exact ⟨a, Runs.nil a, Writes.refl k _ a, by simpa using hk⟩
  | cons o os ih =>
    obtain ⟨x, s1, h1, A1, hx⟩ := emit_spec s (.element buffer (int32 i)) "elemptr" rfl
    have hmisfit : (Operation.store o (.register x buffer.type)).misfit? = none := by
      refine if_pos ?_
      rw [(hos o (by simp)).type]
      exact hbuffer.type
    obtain ⟨y, s2, h2, A2, -⟩ := emit_spec s1 _ "" hmisfit
    have hused : s.used ⊆ s2.used := fun z hz => A2.used (A1.used hz)
    obtain ⟨s3, code, h3, A3, run3⟩ := ih (hbuffer.mono hused) (i + 1)
      (fun o' h' => (hos o' (by simp [h'])).mono hused)
    refine ⟨s3, _, (bind_ok h1).trans ((bind_ok h2).trans h3), (A1.trans A2).trans A3, ?_⟩
    intro image a k size front ns hb hns hfront hlt hk
    cases hns with
    | cons ho hrest =>
      rename_i n ns
      have hi : (Int32.ofInt i).toInt = i :=
        Int32.toInt_ofInt_of_le (by omega) (by simp at hlt; omega)
      have hnonneg : ¬ Int32.ofInt (i : Int) < 0 := by
        rw [Int32.lt_iff_toInt_lt, hi]
        simp
      have R1 := runs_element (x := x) hb (gives_int32 (i : Int)) hnonneg
      rw [hi, Int.toNat_natCast, Nat.zero_add] at R1
      subst hfront
      obtain ⟨m, hm, hk', hother, hcells⟩ := writeInt?_partly n hk
      have W1 : Writes k s.used a _ :=
        writes_set A1.name_fresh k a (.address (.heap k front.length))
      have R2 := runs_store_int (x := y) (ho.keep (hos o (by simp)).known W1.registers)
        (gives_set a x buffer.type _) hm
      have W2 := W1.trans (writes_memory s.used hother hcells) (fun z hz => hz)
      obtain ⟨b, R3, W3, hdone⟩ := run3 image _ k size (front ++ [n]) ns
        (hb.keep hbuffer.known W2.registers)
        (GiveInts.keep hrest (fun o' h' => (hos o' (by simp [h'])).known) W2.registers) (by simp)
        (by simp at hlt; omega) hk'
      exact ⟨b, (R1.append R2).append R3, W2.trans W3 hused, by simpa using hdone⟩

/-- The code of an array literal. -/
theorem buildArray_spec {s : State} {os : List Operand} (hos : ∀ o ∈ os, Fits o .i32 s.used) :
    ∃ o s' code, buildArray os s = .ok ⟨o, .intArray⟩ s' ∧ Appends code s s' ∧
      Fits o .ints s'.used ∧
      ∀ image a ns, Serves image a.memory s'.globals → GiveInts image a.frame os ns →
        ns.length < 2 ^ 31 →
        ∃ b, Computes image s.used code a b ∧
          Carries image b ⟨o, .intArray⟩ (.intArray (ns.map Int32.toInt)) := by
  obtain ⟨raw, s1, h1, A1, hraw⟩ := emit_spec s
    (.call malloc [.int ((os.length + 1) * 4) .i64]) "arraybuf" rfl
  obtain ⟨x, s2, h2, A2, hx⟩ := emit_spec s1
    (.convert .bitcast (.register raw .text) .ints) "arrayptr" rfl
  obtain ⟨y, s3, h3, A3, -⟩ := emit_spec s2
    (.store (int32 os.length) (.register x .ints)) "" rfl
  have hused : s.used ⊆ s3.used := fun z hz => A3.used (A2.used (A1.used hz))
  obtain ⟨s4, code, h4, A4, run4⟩ := storeElements_spec
    (show Fits (.register x .ints) .ints s3.used from ⟨rfl, A3.used hx⟩) 1 os
    fun o h => (hos o h).mono hused
  refine ⟨.register x .ints, s4, _, ?_, ((A1.trans A2).trans A3).trans A4,
    ⟨rfl, A4.used (A3.used hx)⟩, ?_⟩
  · exact (bind_ok h1).trans <| (bind_ok h2).trans <| (bind_ok h3).trans <| (bind_ok h4).trans rfl
  · intro image a ns hs hns hlt
    have hlen : os.length = ns.length := hns.length_eq
    let k := a.memory.heap.size
    let size := (os.length + 1) * 4
    have hsize : (Int64.ofInt ((os.length + 1) * 4)).toInt.toNat = size := by
      rw [Int64.toInt_ofInt_of_le (by omega) (by omega)]
      omega
    have R1 : Runs image _ a _ := runs_malloc (x := raw) (hs.library _ (by simp [library]))
      (.cons (gives_int64 ((os.length + 1) * 4)) .nil)
    rw [hsize] at R1
    let b1 := (a.addBuffer size .blank).set raw (.address (.heap k 0))
    let b2 := b1.set x (.address (.heap k 0))
    have R2 : Runs image [⟨x, .convert .bitcast (.register raw .text) .ints⟩] b1 b2 := runs_convert
      (gives_set (a.addBuffer size .blank) raw .text (.address (.heap k 0))) rfl
    have W2 : Writes k s.used (a.addBuffer size .blank) b2 :=
      (writes_set A1.name_fresh k _ _).trans (writes_set A2.name_fresh k _ _) A1.used
    obtain ⟨m, hm, hk, hother, hcells⟩ := writeInt?_blank os.length
      (Int32.ofInt os.length) (buffer_addBuffer a size .blank) (by omega)
    have hbuffer : Gives image b2.frame (.register x .ints) (.address (.heap k 0)) :=
      gives_set b1 x .ints _
    have R3 := runs_store_int (x := y) (gives_int32 (os.length : Int)) hbuffer hm
    have W3 := W2.trans (writes_memory s.used hother hcells) (fun z hz => hz)
    obtain ⟨b, R4, W4, hdone⟩ := run4 image (b2.setMemory m) k size [Int32.ofInt os.length] ns
      hbuffer (hns.keep (fun o h => (hos o h).known) W3.registers) rfl (by omega) hk
    refine ⟨b, ⟨((R1.append R2).append R3).append R4, (W3.trans W4 hused).quiet⟩, rfl,
      .address (.heap k 0), hbuffer.keep (A3.used hx) W4.registers, holds_intArray.mpr ⟨_, rfl, ?_⟩,
      fun _ => hs.lasting_new le_rfl 0⟩
    have hpartly : b.memory.heap[k]? = some ⟨size, partly (Int32.ofNat ns.length :: ns) 0⟩ := by
      rw [hdone, hlen]
      rfl
    exact array?_partly hlt hpartly

end Lowering
end DualEngine
