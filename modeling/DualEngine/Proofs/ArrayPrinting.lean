import DualEngine.Proofs.Loops

/-! # The loop that prints an array

The loop counts in a stack cell. In each round it prints the next element of the buffer, after a
comma unless it is the first, and steps the cell. So after as many rounds as the buffer has elements
the text of the array has been printed, and no other place of the buffer was read.
-/
namespace DualEngine

/-- Elements as they stand in the text of an array: a comma before each that has another one before
it. -/
def elementsText : Bool → List Int → String
  | _, [] => ""
  | first, x :: xs => (if first then "" else ", ") ++ toString x ++ elementsText false xs

namespace Machine
open IR

variable {xs : List Int} {mem : Memory}

/-- From `a` to `b` code printed the text. It set registers that were not in use and the stack cells
`own`, and made buffers. -/
structure Prints (used own : List String) (text : String) (a b : Snap) : Prop where
  registers : ∀ x ∈ used, b.frame.registers.get? x = a.frame.registers.get? x
  stack : ∀ x, x ∉ own → b.frame.stack.get? x = a.frame.stack.get? x
  cells : b.memory.cells = a.memory.cells
  heap : a.memory.Extends b.memory
  generator : b.state.generator = a.state.generator
  out : b.state.out = a.state.out ++ text

variable {used used' own own' : List String} {t t' : String} {a b c : Snap} {image : Image}

theorem Prints.trans (h : Prints used own t a b) (h' : Prints used' own t' b c)
    (hs : used ⊆ used') : Prints used own (t ++ t') a c where
  registers x hx := (h'.registers x (hs hx)).trans (h.registers x hx)
  stack x hx := (h'.stack x hx).trans (h.stack x hx)
  cells := h'.cells.trans h.cells
  heap := h.heap.trans h'.heap
  generator := h'.generator.trans h.generator
  out := by rw [h'.out, h.out, String.append_assoc]

theorem Prints.mono (h : Prints used own t a b) (hs : used' ⊆ used) (ho : own ⊆ own') :
    Prints used' own' t a b :=
  ⟨fun x hx => h.registers x (hs hx), fun x hx => h.stack x fun hm => hx (ho hm), h.cells, h.heap,
    h.generator, h.out⟩

/-- Code that only computes prints nothing. -/
theorem Quiet.prints (h : Quiet used a b) (own : List String) : Prints used own "" a b :=
  ⟨h.registers, fun _ _ => by rw [h.stack], h.cells, h.heap, h.generator, by
    rw [h.out, String.append_empty]⟩

theorem Prints.after (h : Prints used' own t b c) (q : Quiet used a b) (hs : used ⊆ used') :
    Prints used own t a c := by
  have hp := (q.prints own).trans h hs
  rwa [String.empty_append] at hp

theorem Prints.before (h : Prints used own t a b) (q : Quiet used' b c) (hs : used ⊆ used') :
    Prints used own t a c := by
  have hp := h.trans (q.prints own) hs
  rwa [String.append_empty] at hp

theorem prints_print (used own : List String) (t : String) (a : Snap) :
    Prints used own t a (a.print t) :=
  ⟨fun _ _ => rfl, fun _ _ => rfl, rfl, .refl _, rfl, rfl⟩

theorem prints_setStack (used : List String) (a : Snap) (x : String) (w : Word) :
    Prints used [x] "" a (a.setStack x w) := by
  refine ⟨fun _ _ => rfl, fun y hy => ?_, rfl, .refl _, rfl, by rw [String.append_empty]; rfl⟩
  have hne : x ≠ y := by
    rintro rfl
    exact hy List.mem_cons_self
  exact (Table.get?_insert _ _ _ _).trans (if_neg hne)

theorem runs_load_int {x : String} {o : Operand} {k i : Nat} {n : Int32}
    (ho : Gives image a.frame o (.address (.heap k i))) (hn : a.memory.int? k i = some n) :
    Runs image [⟨x, .load o⟩] a (a.set x (.int n)) := by
  refine runs_load ho ?_
  show (do return Word.int (← ofOption .memory ((← get).memory.int? k i)) : Run Word) a.state = _
  rw [bind_ok (get_run _), hn]
  rfl

theorem Memory.intsFrom?_cons {k i count : Nat} {x : Int}
    (h : mem.intsFrom? k i (count + 1) = some (x :: xs)) :
    ∃ n, mem.int? k i = some n ∧ n.toInt = x ∧ mem.intsFrom? k (i + 1) count = some xs := by
  obtain ⟨n, hn, h⟩ := Option.bind_eq_some_iff.mp h
  obtain ⟨rest, hrest, h⟩ := Option.bind_eq_some_iff.mp h
  cases h
  exact ⟨n, hn, rfl, hrest⟩

end Machine

namespace Lowering
open IR Machine

variable {s s' : State} {o : Operand} {n wanted : String} {type : Ty}

/-! ## Straight-line parts -/

theorem printText_spec (s : State) (contents : String) (hz : '\x00' ∉ contents.toList) :
    ∃ s' code, printText contents s = .ok ⟨⟩ s' ∧ Appends code s s' ∧
      ∀ image a, Serves image a.memory s'.globals →
        ∃ b, Runs image code a b ∧ Prints s.used [] contents a b := by
  obtain ⟨plain, s1, c₁, h1, A1, F1, run1⟩ := textConstant_spec s "%s" "fmt" (by decide)
  obtain ⟨text, s2, c₂, h2, A2, F2, run2⟩ := textConstant_spec s1 contents "str" (by decide)
  have hargs : argumentMisfit? 1 printf.params [plain, text] = none :=
    argumentMisfit?_append 1 [plain] [text] (by simp [F1.type, printf])
  obtain ⟨x, s3, h3, A3, -⟩ := emit_spec s2 (.call printf [plain, text]) "" hargs
  refine ⟨s3, _, (bind_ok h1).trans ((bind_ok h2).trans ((bind_ok h3).trans rfl)),
    (A1.trans A2).trans A3, ?_⟩
  intro image a hs
  have S2 := A3.serves hs
  obtain ⟨b1, plainAddress, C₁, g1, t1⟩ := run1 image a (A2.serves S2)
  obtain ⟨b2, textAddress, C₂, g2, t2⟩ := run2 image b1 (S2.extend C₁.quiet.heap)
  rw [cut_of_not_mem hz] at t2
  rw [cut_of_not_mem (by decide), ← String.append_empty (s := "%s")] at t1
  have hformat := formatAt_one (C₂.quiet.heap.text? t1) (.text t2) (by simp)
  rw [String.append_empty] at hformat
  have R3 : Runs image _ b2 _ := runs_printf (x := x) (hs.library _ (by simp [library]))
    (.cons (g1.keep F1.known C₂.quiet.registers) (.cons g2 .nil)) hformat
  have C := C₁.append C₂ A1.used
  refine ⟨_, C.runs.append R3, ?_⟩
  have hset := quiet_set A3.name_fresh (b2.print contents) (lengthWord contents)
  have hprint := (prints_print s2.used [] contents b2).before hset fun _ h => h
  exact hprint.after C.quiet fun _ h => A2.used (A1.used h)

/-- The text between an element and the one before it. -/
def chooseSeparator (i : Operand) : Lower Operand := do
  let first ← emit (.icmp .eq i (int32 0)) ""
  let nothing ← textConstant "" "str"
  let comma ← textConstant ", " "str"
  emit (.select first nothing comma) ""

/-- The element at an index. It comes after the length. -/
def loadElement (buffer i : Operand) : Lower Operand := do
  let place ← emit (.binary .add i (int32 1)) ""
  let address ← emit (.element buffer place) "elemptr"
  emit (.load address) "elem"

def stepIndex (index i : Operand) : Lower Unit := do
  let next ← emit (.binary .add i (int32 1)) ""
  let _ ← emit (.store next index) ""

theorem printElement_eq (buffer index i : Operand) :
    printElement buffer index i = (do
      let separator ← chooseSeparator i
      let element ← loadElement buffer i
      let both ← textConstant "%s%d" "fmt"
      let _ ← emit (.call printf [both, separator, element]) ""
      stepIndex index i) := by
  simp only [chooseSeparator, loadElement, stepIndex, bind_assoc]
  rfl

variable {buffer index i : Operand}

theorem icmp_first {j : Nat} (hj : j < 2 ^ 31) (st : Machine.State) :
    icmp .eq (.int (Int32.ofNat j)) (.int (Int32.ofInt 0)) st = .ok (.bit (decide (j = 0))) st := by
  have hiff : Int32.ofNat j = Int32.ofInt 0 ↔ j = 0 := by
    rw [← Int32.toInt_inj, Int32.toInt_ofNat_of_lt hj]
    exact Int.natCast_eq_zero
  have hbit : (Int32.ofNat j == Int32.ofInt 0) = decide (j = 0) := by
    rw [← decide_eq_decide.mpr hiff]
    rfl
  rw [← hbit]
  rfl

theorem binary_next (j : Nat) (st : Machine.State) :
    binary .add (.int (Int32.ofNat j)) (.int (Int32.ofInt 1)) st =
      .ok (.int (Int32.ofNat (j + 1))) st := by
  rw [Int32.ofNat_add]
  rfl

theorem chooseSeparator_spec (s : State) (i : Operand) :
    ∃ o s' code, chooseSeparator i s = .ok o s' ∧ Appends code s s' ∧ Fits o .text s'.used ∧
      ∀ image a j, Serves image a.memory s'.globals →
        Gives image a.frame i (.int (Int32.ofNat j)) → j < 2 ^ 31 →
        ∃ b address, Computes image s.used code a b ∧
          Gives image b.frame o (.address address) ∧
          b.memory.text? address = some (if j = 0 then "" else ", ") := by
  obtain ⟨x, s1, h1, A1, hx⟩ := emit_spec s (.icmp .eq i (int32 0)) "" rfl
  obtain ⟨nothing, s2, c₂, h2, A2, F2, run2⟩ := textConstant_spec s1 "" "str" (by decide)
  obtain ⟨comma, s3, c₃, h3, A3, F3, run3⟩ := textConstant_spec s2 ", " "str" (by decide)
  have hchoice : (Operation.select (.register x .i1) nothing comma).misfit? = none :=
    if_pos (F2.type.trans F3.type.symm)
  obtain ⟨y, s4, h4, A4, hy⟩ := emit_spec s3 _ "" hchoice
  refine ⟨_, s4, _, (bind_ok h1).trans ((bind_ok h2).trans ((bind_ok h3).trans h4)),
    ((A1.trans A2).trans A3).trans A4, ⟨F2.type, hy⟩, ?_⟩
  intro image a j hs hgi hj
  have S3 := A4.serves hs
  have C₁ := computes_set A1 (runs_icmp hgi (gives_int32 0) (icmp_first hj a.state))
  obtain ⟨b2, nothingAt, C₂, g2, t2⟩ := run2 image (a.set x (.bit (decide (j = 0)))) (A3.serves S3)
  obtain ⟨b3, commaAt, C₃, g3, t3⟩ := run3 image b2 (S3.extend C₂.quiet.heap)
  rw [cut_of_not_mem (by decide)] at t2 t3
  have hbit : Gives image b3.frame (.register x .i1) (.bit (decide (j = 0))) :=
    ((gives_set a x .i1 _).keep hx C₂.quiet.registers).keep (A2.used hx) C₃.quiet.registers
  have R4 := runs_select (x := y) hbit (g2.keep F2.known C₃.quiet.registers) g3
  have hword : (if decide (j = 0) then Word.address nothingAt else .address commaAt) =
      .address (if j = 0 then nothingAt else commaAt) := by
    by_cases h : j = 0 <;> simp [h]
  rw [hword] at R4
  have C := ((C₁.append C₂ A1.used).append C₃ fun _ h => A2.used (A1.used h)).append
    (computes_set A4 R4) fun _ h => A3.used (A2.used (A1.used h))
  refine ⟨_, _, C, gives_set _ _ _ _, ?_⟩
  by_cases h : j = 0
  · rw [if_pos h, if_pos h]
    exact C₃.quiet.heap.text? t2
  · rw [if_neg h, if_neg h]
    exact t3

theorem loadElement_spec (hb : Fits buffer .ints s.used) (hi : Fits i .i32 s.used) :
    ∃ o s' code, loadElement buffer i s = .ok o s' ∧ Appends code s s' ∧ Fits o .i32 s'.used ∧
      ∀ image a j k n, Gives image a.frame buffer (.address (.heap k 0)) →
        Gives image a.frame i (.int (Int32.ofNat j)) → j + 1 < 2 ^ 31 →
        a.memory.int? k (j + 1) = some n →
        ∃ b, Computes image s.used code a b ∧ Gives image b.frame o (.int n) := by
  obtain ⟨x, s1, h1, A1, hx⟩ := emit_spec s (.binary .add i (int32 1)) "" (if_pos hi.type)
  obtain ⟨y, s2, h2, A2, hy⟩ := emit_spec s1 (.element buffer (.register x i.type)) "elemptr" rfl
  obtain ⟨z, s3, h3, A3, hz⟩ := emit_spec s2 (.load (.register y buffer.type)) "elem" rfl
  have htype : buffer.type.pointee = .i32 := by
    rw [hb.type]
    rfl
  refine ⟨_, s3, _, (bind_ok h1).trans ((bind_ok h2).trans h3), (A1.trans A2).trans A3,
    ⟨htype, hz⟩, ?_⟩
  intro image a j k n hgb hgi hj hn
  have C₁ := computes_set A1 (runs_binary hgi (gives_int32 1) (binary_next j a.state))
  have hplace : (Int32.ofNat (j + 1)).toInt = (j + 1 : Nat) := Int32.toInt_ofNat_of_lt hj
  have hnonneg : ¬ Int32.ofNat (j + 1) < 0 := by
    rw [Int32.lt_iff_toInt_lt, hplace]
    exact Int.not_lt.mpr (Int.natCast_nonneg _)
  have R2 := runs_element (x := y) (hgb.keep hb.known C₁.quiet.registers)
    (gives_set a x i.type _) hnonneg
  rw [hplace, Int.toNat_natCast, Nat.zero_add] at R2
  have R3 : Runs image [⟨z, _⟩] _ _ := runs_load_int
    (gives_set (a.set x (.int (Int32.ofNat (j + 1)))) y buffer.type (.address (.heap k (j + 1)))) hn
  exact ⟨_, (C₁.append (computes_set A2 R2) A1.used).append (computes_set A3 R3)
    fun _ h => A2.used (A1.used h), gives_set _ _ _ _⟩

theorem stepIndex_spec (hx : Fits index (.pointer .i32) s.used) (hi : Fits i .i32 s.used) :
    ∃ s' code, stepIndex index i s = .ok ⟨⟩ s' ∧ Appends code s s' ∧
      ∀ image a j x, Gives image a.frame index (.address (.stack x)) →
        Gives image a.frame i (.int (Int32.ofNat j)) →
        ∃ b, Runs image code a b ∧ Prints s.used [x] "" a b ∧
          b.frame.stack.get? x = some (.int (Int32.ofNat (j + 1))) := by
  obtain ⟨y, s1, h1, A1, hy⟩ := emit_spec s (.binary .add i (int32 1)) "" (if_pos hi.type)
  have hstored : (Operation.store (.register y i.type) index).misfit? = none := by
    refine if_pos ?_
    rw [hx.type]
    exact congrArg Ty.pointer hi.type.symm
  obtain ⟨z, s2, h2, A2, -⟩ := emit_spec s1 _ "" hstored
  refine ⟨s2, _, (bind_ok h1).trans ((bind_ok h2).trans rfl), A1.trans A2, ?_⟩
  intro image a j x hgx hgi
  have C₁ := computes_set A1 (runs_binary hgi (gives_int32 1) (binary_next j a.state))
  have R2 := runs_store_stack (x := z) (gives_set a y i.type _)
    (hgx.keep hx.known C₁.quiet.registers)
  refine ⟨_, C₁.runs.append R2, (prints_setStack s1.used _ x _).after C₁.quiet A1.used, ?_⟩
  exact (Table.get?_insert _ _ _ _).trans (if_pos rfl)

/-- A round prints the next element and steps the index. -/
theorem printElement_spec (hb : Fits buffer .ints s.used) (hx : Fits index (.pointer .i32) s.used)
    (hi : Fits i .i32 s.used) :
    ∃ s' code, printElement buffer index i s = .ok ⟨⟩ s' ∧ Appends code s s' ∧
      ∀ image a j k n x, Serves image a.memory s'.globals →
        Gives image a.frame buffer (.address (.heap k 0)) →
        Gives image a.frame index (.address (.stack x)) →
        Gives image a.frame i (.int (Int32.ofNat j)) → j + 1 < 2 ^ 31 →
        a.memory.int? k (j + 1) = some n →
        ∃ b, Runs image code a b ∧
          Prints s.used [x] ((if j = 0 then "" else ", ") ++ toString n.toInt) a b ∧
          b.frame.stack.get? x = some (.int (Int32.ofNat (j + 1))) := by
  obtain ⟨separator, s1, c₁, h1, A1, F1, run1⟩ := chooseSeparator_spec s i
  obtain ⟨element, s2, c₂, h2, A2, F2, run2⟩ := loadElement_spec (hb.mono A1.used) (hi.mono A1.used)
  obtain ⟨both, s3, c₃, h3, A3, F3, run3⟩ := textConstant_spec s2 "%s%d" "fmt" (by decide)
  have hargs : argumentMisfit? 1 printf.params [both, separator, element] = none :=
    argumentMisfit?_append 1 [both] [separator, element] (by simp [F3.type, printf])
  obtain ⟨y, s4, h4, A4, -⟩ := emit_spec s3 (.call printf [both, separator, element]) "" hargs
  have u3 : s.used ⊆ s3.used := fun _ h => A3.used (A2.used (A1.used h))
  have u4 : s.used ⊆ s4.used := fun _ h => A4.used (u3 h)
  obtain ⟨s5, c₅, h5, A5, run5⟩ := stepIndex_spec (hx.mono u4) (hi.mono u4)
  refine ⟨s5, _, ?_, (((A1.trans A2).trans A3).trans A4).trans A5, ?_⟩
  · rw [printElement_eq]
    exact (bind_ok h1).trans ((bind_ok h2).trans ((bind_ok h3).trans ((bind_ok h4).trans h5)))
  · intro image a j k n x hs hgb hgx hgi hj hn
    have S3 := A4.serves (A5.serves hs)
    obtain ⟨b1, at1, C₁, g1, t1⟩ := run1 image a j (A2.serves (A3.serves S3)) hgi (by omega)
    obtain ⟨b2, C₂, g2⟩ := run2 image b1 j k n (hgb.keep hb.known C₁.quiet.registers)
      (hgi.keep hi.known C₁.quiet.registers) hj (C₁.quiet.heap.int? hn)
    have C := C₁.append C₂ A1.used
    obtain ⟨b3, at3, C₃, g3, t3⟩ := run3 image b2 (S3.extend C.quiet.heap)
    have C' := C.append C₃ fun _ h => A2.used (A1.used h)
    rw [cut_of_not_mem (by decide)] at t3
    -- the separator and the element in one call
    have hseparator := C₃.quiet.heap.text? (C₂.quiet.heap.text? t1)
    have hformat := formatAt_two (by exact t3) (.text hseparator) (.int n)
    have R4 : Runs image _ b3 _ := runs_printf (x := y) (hs.library _ (by simp [library]))
      (.cons g3 (.cons ((g1.keep F1.known C₂.quiet.registers).keep (F1.known.mono A2.used)
        C₃.quiet.registers) (.cons (g2.keep F2.known C₃.quiet.registers) .nil))) hformat
    have hset := quiet_set A4.name_fresh
      (b3.print ((if j = 0 then "" else ", ") ++ toString n.toInt))
      (lengthWord ((if j = 0 then "" else ", ") ++ toString n.toInt))
    have P4 := ((prints_print s3.used [x] _ b3).before hset fun _ h => h).after C'.quiet u3
    -- and the index is stepped
    obtain ⟨b5, R5, P5, hcell⟩ := run5 image _ j x (hgx.keep hx.known P4.registers)
      (hgi.keep hi.known P4.registers)
    have P := P4.trans P5 u4
    rw [String.append_empty] at P
    exact ⟨b5, (C'.runs.append R4).append R5, P, hcell⟩

/-! ## The parts of the loop -/

namespace State

/-- With the blocks of a loop that prints an array. -/
def lined (s : State) : State :=
  ((s.opened "print.cond").opened "print.body").opened "print.end"

def testLabel (s : State) : String := s.fresh "print.cond"
def itemLabel (s : State) : String := (s.opened "print.cond").fresh "print.body"
def closeLabel (s : State) : String :=
  ((s.opened "print.cond").opened "print.body").fresh "print.end"

/-- The state in which the test of the index is lowered. -/
def testing (s : State) : State := s.lined.passed (.jump s.testLabel) s.testLabel

/-- The state in which the printing of an element is lowered, where the register `m` says whether
there is one. -/
def itemizing (s s1 : State) (m : String) : State :=
  s1.passed (.branch (.register m .i1) s.itemLabel s.closeLabel) s.itemLabel

/-- The state after the loop. -/
def closing (s s2 : State) : State := s2.passed (.jump s.testLabel) s.closeLabel

end State

theorem opens_lined (ha : Active s) (hs : Labelled s) :
    Opens [s.closeLabel, s.itemLabel, s.testLabel] s s.lined :=
  (((Opens.refl ha hs).opened hs "print.cond").opened hs "print.body").opened hs "print.end"

theorem leaves_testing (ha : Active s) (hs : Labelled s) :
    Leaves s (.jump s.testLabel) s.testing := by
  have O1 := (Opens.refl ha hs).opened hs "print.cond"
  have O2 := O1.opened hs "print.body"
  have O3 := O2.opened hs "print.end"
  exact (((leaves_passed O3.active _ _).opened O2.labelled O2.active).opened O1.labelled
    O1.active).opened hs ha

/-- A state on the way to `whole` in which lowering goes on, in a block that is not held. -/
structure Stage (held : List String) (whole s : State) : Prop where
  active : Active s
  housed : Housed s
  settles : Settles held s whole
  aside : s.draft.current ∉ held

variable {image : Image} {f : Function} {whole s1 s2 : State} {held : List String}
  {length : Operand} {r m x previous : String} {a b : Snap} {code : List Instruction}

/-- The parts of lowering the loop, whose blocks are made in `s`: the test of the index ends in
`s1`, and the printing of an element in `s2`. The index is in the register `r`. -/
structure Listing (held : List String) (buffer length index : Operand) (r m : String)
    (whole s s1 s2 : State) : Prop where
  buffer_fits : Fits buffer .ints s.used
  length_known : length.Known s.used
  index_fits : Fits index (.pointer .i32) s.used
  test : Appends [⟨r, .load index⟩, ⟨m, .icmp .slt (.register r .i32) length⟩] s.testing s1
  print : printElement buffer index (.register r .i32) (s.itemizing s1 m) = .ok ⟨⟩ s2
  testing : Stage held whole s.testing
  tested : Stage held whole s1
  itemizing : Stage held whole (s.itemizing s1 m)
  printed : Stage held whole s2
  closing : Stage held whole (s.closing s2)
  starts_testing : Starts s.testing
  starts_itemizing : Starts (s.itemizing s1 m)
  starts_closing : Starts (s.closing s2)

theorem Listing.settles (L : Listing held buffer length index r m whole s s1 s2) (ha : Active s)
    (hs : Labelled s) : Settles held s whole := by
  have O := opens_lined ha hs
  exact Settles.of_grows ha ((O.within held).grows O.active) (L.testing.settles.of_passed O.active)

section Rounds
variable {j k : Nat} {count : Int32}

theorem Listing.used (L : Listing held buffer length index r m whole s s1 s2) (ha : Active s)
    (hs : Labelled s) :
    s.used ⊆ s.testing.used ∧ s.testing.used ⊆ s1.used ∧ s1.used ⊆ (s.itemizing s1 m).used ∧
      (s.itemizing s1 m).used ⊆ s2.used := by
  obtain ⟨code, A2⟩ := adding_printElement _ _ _ _ _ _ L.print
  exact ⟨(leaves_testing ha hs).used, L.test.used, used_passed s1 _ _, A2.used⟩

/-- The test goes on with the body while there are elements left. -/
theorem Listing.turn (L : Listing held buffer length index r m whole s s1 s2)
    (hu : s.used ⊆ s.testing.used) (hf : f.blocks = whole.draft.blocks) (hp : Placed whole a)
    (hx : Gives image a.frame index (.address (.stack x)))
    (hj : a.frame.stack.get? x = some (.int (Int32.ofNat j)))
    (hcount : Gives image a.frame length (.int count)) (previous : String) :
    ∃ b, Leads image f (here whole s.testing previous a)
        (here whole (if Int32.ofNat j < count then s.itemizing s1 m else s.closing s2)
          s1.draft.current b) ∧
      Quiet s.testing.used a b ∧ Placed whole b ∧
      Gives image b.frame (.register r .i32) (.int (Int32.ofNat j)) := by
  have hr := L.test.fresh ⟨r, .load index⟩ (by simp)
  have hm := L.test.fresh ⟨m, .icmp .slt (.register r .i32) length⟩ (by simp)
  -- the two instructions of the test
  let a1 := a.set r (.int (Int32.ofNat j))
  let a2 := a1.set m (.bit (decide (Int32.ofNat j < count)))
  have R1 : Runs image [⟨r, .load index⟩] a a1 := runs_load_stack hx hj
  have q1 : Quiet s.testing.used a a1 := quiet_set hr.1 a _
  have R2 : Runs image [⟨m, .icmp .slt (.register r .i32) length⟩] a1 a2 :=
    runs_icmp (gives_set a r .i32 _) (hcount.keep (L.length_known.mono hu) q1.registers) rfl
  have q2 : Quiet s.testing.used a a2 := q1.trans (quiet_set hm.1 a1 _) fun _ h => h
  have R := R1.append R2
  have hdistinct : r ≠ m := by
    have hd := L.test.distinct
    simp only [List.map_cons, List.map_nil, List.nodup_cons, List.mem_singleton] at hd
    exact hd.1
  have hindex : Gives image a2.frame (.register r .i32) (.int (Int32.ofNat j)) := by
    refine gives_register ?_
    rw [Snap.register_set, if_neg hdistinct.symm, Snap.register_set, if_pos rfl]
  have hleads : Leads image f (here whole s.testing previous a) (here whole s1 previous a2) :=
    leads_appends L.test L.testing.active L.tested.settles R previous
  have hplaces : Places whole s1 a2 :=
    (hp.places s.testing).appends L.test L.tested.settles L.testing.housed R
  -- and the branch after them
  have hleaves : Leaves s1 (.branch (.register m .i1) s.itemLabel s.closeLabel)
      (s.itemizing s1 m) := leaves_passed L.tested.active _ _
  have hbit : Gives image a2.frame (.register m .i1) (.bit (decide (Int32.ofNat j < count))) :=
    gives_set a1 m .i1 _
  let next := if Int32.ofNat j < count then s.itemizing s1 m else s.closing s2
  have hnext : Starts next ∧ Settles held next whole ∧ next.draft.current =
      if decide (Int32.ofNat j < count) then s.itemLabel else s.closeLabel := by
    by_cases h : Int32.ofNat j < count
    · simp only [next, h, if_true, decide_true]
      exact ⟨L.starts_itemizing, L.itemizing.settles, rfl⟩
    · simp only [next, h, if_false, decide_false]
      exact ⟨L.starts_closing, L.closing.settles, rfl⟩
  obtain ⟨b, F, Q, P⟩ := follows_branch (j := next) hf _ hleaves L.itemizing.settles L.tested.aside
    L.tested.housed hplaces hbit hm.2 hnext.1 hnext.2.1 hnext.2.2 previous
  exact ⟨b, hleads.trans F.leads, q2.trans Q L.test.used, P, hindex.keep hr.2 Q.registers⟩

/-- A round prints the next element and goes back to the test. -/
theorem Listing.round (L : Listing held buffer length index r m whole s s1 s2)
    (hu : s.used ⊆ (s.itemizing s1 m).used) (hf : f.blocks = whole.draft.blocks)
    (hp : Placed whole a) (hserves : Serves image a.memory s2.globals)
    (hb : Gives image a.frame buffer (.address (.heap k 0)))
    (hx : Gives image a.frame index (.address (.stack x)))
    (hi : Gives image a.frame (.register r .i32) (.int (Int32.ofNat j))) (hj : j + 1 < 2 ^ 31)
    {n : Int32} (hn : a.memory.int? k (j + 1) = some n) (previous : String) :
    ∃ b, Leads image f (here whole (s.itemizing s1 m) previous a)
        (here whole s.testing s2.draft.current b) ∧
      Prints (s.itemizing s1 m).used [x] ((if j = 0 then "" else ", ") ++ toString n.toInt) a b ∧
      Placed whole b ∧ b.frame.stack.get? x = some (.int (Int32.ofNat (j + 1))) := by
  have hr := L.test.fresh ⟨r, .load index⟩ (by simp)
  obtain ⟨s2', code, h2, A2, run2⟩ := printElement_spec (L.buffer_fits.mono hu)
    (L.index_fits.mono hu) (i := .register r .i32) ⟨rfl, used_passed s1 _ _ hr.2⟩
  obtain rfl : s2 = s2' := by
    have h := L.print.symm.trans h2
    cases h
    rfl
  obtain ⟨b1, R1, P1, hcell⟩ := run2 image a j k n x hserves hb hx hi hj hn
  have hplaces := (hp.places (s.itemizing s1 m)).appends A2 L.printed.settles L.itemizing.housed R1
  obtain ⟨b, F, Q, P⟩ := follows_jump (j := s.testing) image hf
    (leaves_passed L.printed.active (.jump s.testLabel) s.closeLabel) L.closing.settles
    L.printed.aside L.printed.housed hplaces L.starts_testing L.testing.settles previous
  refine ⟨b, ?_, P1.before Q A2.used, P, ?_⟩
  · exact (leads_appends A2 L.itemizing.active L.printed.settles R1 previous).trans F.leads
  · rw [Q.stack]
    exact hcell

/-- There are as many rounds as elements are left. -/
theorem ofNat_lt_iff {rest : Nat} (h : count.toInt.toNat = j + rest) :
    Int32.ofNat j < count ↔ 0 < rest := by
  have hbound := count.toInt_lt
  have hj : (Int32.ofNat j).toInt = j := Int32.toInt_ofNat_of_lt (by omega)
  rw [Int32.lt_iff_toInt_lt, hj]
  omega

theorem Listing.rounds (L : Listing held buffer length index r m whole s s1 s2) (ha : Active s)
    (hs : Labelled s) (hf : f.blocks = whole.draft.blocks) {rest : List Int}
    (hcount : count.toInt.toNat = j + rest.length)
    (hrest : a.memory.intsFrom? k (j + 1) rest.length = some rest) (hp : Placed whole a)
    (hserves : Serves image a.memory s2.globals)
    (hb : Gives image a.frame buffer (.address (.heap k 0)))
    (hx : Gives image a.frame index (.address (.stack x)))
    (hlength : Gives image a.frame length (.int count))
    (hj : a.frame.stack.get? x = some (.int (Int32.ofNat j))) (previous : String) :
    ∃ q b, Leads image f (here whole s.testing previous a) (here whole (s.closing s2) q b) ∧
      Prints s.testing.used [x] (elementsText (j == 0) rest) a b ∧ Placed whole b := by
  obtain ⟨u0, u1, u1', u2⟩ := L.used ha hs
  have u : s.testing.used ⊆ (s.itemizing s1 m).used := fun _ h => u1' (u1 h)
  -- the elements that are left are printed one after the other
  induction rest generalizing j a previous with
  | nil =>
    obtain ⟨b, L1, Q1, P1, -⟩ := L.turn u0 hf hp hx hj hlength previous
    rw [if_neg (by simp [ofNat_lt_iff hcount])] at L1
    exact ⟨_, b, L1, Q1.prints [x], P1⟩
  | cons n rest ih =>
    obtain ⟨word, hword, rfl, hmore⟩ := Memory.intsFrom?_cons hrest
    have hbound := count.toInt_lt
    rw [List.length_cons] at hcount
    obtain ⟨b1, L1, Q1, P1, g1⟩ := L.turn u0 hf hp hx hj hlength previous
    rw [if_pos (by simp [ofNat_lt_iff hcount])] at L1
    have keep1 {o : Operand} {w : Word} (ho : o.Known s.used) (hg : Gives image a.frame o w) :
        Gives image b1.frame o w := hg.keep (ho.mono u0) Q1.registers
    obtain ⟨b2, L2, Pr₂, P2, hcell⟩ := L.round (fun _ h => u (u0 h)) hf P1
      (hserves.extend Q1.heap) (keep1 L.buffer_fits.known hb) (keep1 L.index_fits.known hx) g1
      (by omega) (Q1.heap.int? hword) s1.draft.current
    have Pr₁₂ := Pr₂.after Q1 u
    have keep2 {o : Operand} {w : Word} (ho : o.Known s.used) (hg : Gives image a.frame o w) :
        Gives image b2.frame o w := hg.keep (ho.mono u0) Pr₁₂.registers
    obtain ⟨q, b3, L3, Pr₃, P3⟩ := ih (j := j + 1) (by omega) (Pr₁₂.heap.intsFrom? hmore) P2
      (hserves.extend Pr₁₂.heap) (keep2 L.buffer_fits.known hb) (keep2 L.index_fits.known hx)
      (keep2 L.length_known hlength) hcell s2.draft.current
    refine ⟨q, b3, (L1.trans L2).trans L3, ?_, P3⟩
    have Pr := Pr₁₂.trans Pr₃ fun _ h => h
    simpa [elementsText] using Pr

end Rounds

/-! ## Before the loop -/

theorem entryAlloca_inv (ha : Active s) (h : entryAlloca type wanted s = .ok o s') :
    ∃ x first s1, o = .register x (.pointer type) ∧ s' = s1.entered s.draft.current ∧
      s.entry = some first ∧ Appends [⟨x, .alloca type⟩] (s.entered first) s1 := by
  obtain ⟨x, first, s1, hentry, A, h', -⟩ := entryAlloca_spec ha type wanted
  rw [h'] at h
  cases h
  exact ⟨x, first, s1, rfl, rfl, hentry, A⟩

/-- A stack cell that lowering adds to the first block has been made where lowering goes on. -/
theorem leads_entryAlloca (image : Image) (f : Function)
    (h : entryAlloca type wanted s = .ok o s') (ha : Active s) (hh : Housed s)
    (hset : Settles held s' whole) (hp : Places whole s a) (previous : String) :
    ∃ x b, o = .register x (.pointer type) ∧
      Leads image f (here whole s previous a) (here whole s' previous b) ∧ Quiet s.used a b ∧
      Places whole s' b ∧ b.frame.registers.get? x = some (.address (.stack x)) := by
  obtain ⟨x, first, s1, rfl, rfl, hentry, A⟩ := entryAlloca_inv ha h
  by_cases hc : s.draft.current = first
  · -- in the first block itself the cell is made on the way
    subst hc
    have hback : s1.entered s.draft.current = s1 := by
      have hcurrent : s.draft.current = s1.draft.current := A.current.symm
      rw [hcurrent]
      rfl
    rw [hback] at hset ⊢
    have hruns : Runs image [⟨x, .alloca type⟩] a (a.set x (.address (.stack x))) := runs_alloca
    have hnew : Appends [⟨x, .alloca type⟩] s s1 := A
    refine ⟨x, _, rfl, leads_appends hnew ha hset hruns previous,
      quiet_set hnew.name_fresh a _, hp.appends hnew hset hh hruns, ?_⟩
    rw [Snap.register_set, if_pos rfl]
  · have hne : whole.entry ≠ some s.draft.current := by
      have hwhole : whole.entry = some first :=
        hset.entry.trans ((entry_appends A).trans hentry)
      rw [hwhole]
      exact fun he => hc (Option.some.inj he).symm
    have hplaces := (hp.placed hne).places (s1.entered s.draft.current)
    refine ⟨x, a, rfl, ?_, Quiet.refl _ _, hplaces, ?_⟩
    · rw [here_late A hc]
      exact Leads.refl _
    · exact hplaces.cell hset (celled_appends (i := ⟨x, .alloca type⟩) A hentry (by simp) rfl)

/-- The states in which the code before the loop is lowered: the length is loaded into `n`, the
bracket printed, and the cell of the index made and cleared. -/
structure Opening (buffer index : Operand) (n : String) (s s1 s2 s3 s4 : State) : Prop where
  length : Appends [⟨n, .load buffer⟩] s s1
  bracket : printText "[" s1 = .ok ⟨⟩ s2
  cell : entryAlloca .i32 "i" s2 = .ok index s3
  clear : ∃ y, Appends [⟨y, .store (int32 0) index⟩] s3 s4

theorem Opening.names {s3 s4 : State}
    (O : Opening buffer (.register x (.pointer .i32)) n s s1 s2 s3 s4) (ha : Active s) :
    n ∈ s4.used ∧ (x ∉ s.used ∧ x ∈ s4.used) ∧ s2.globals ⊆ s4.globals := by
  obtain ⟨_, A2⟩ := adding_printText _ _ _ _ O.bracket
  obtain ⟨y, A4⟩ := O.clear
  have hn := O.length.fresh ⟨n, .load buffer⟩ (by simp)
  obtain ⟨x', first, t, hx', rfl, -, A3⟩ := entryAlloca_inv (ha.appends (O.length.trans A2)) O.cell
  cases hx'
  have hx := A3.fresh ⟨x, .alloca .i32⟩ (by simp)
  exact ⟨A4.used (A3.used (A2.used hn.2)),
    ⟨fun h => hx.1 (A2.used (O.length.used h)), A4.used hx.2⟩,
    fun _ h => A4.globals (A3.globals h)⟩

/-- Before the first round the bracket is printed, and the index is zero. -/
theorem Opening.leads {s3 s4 : State} {k : Nat} {count : Int32}
    (O : Opening buffer (.register x (.pointer .i32)) n s s1 s2 s3 s4) (ha : Active s)
    (hh : Housed s) (st1 : Stage held whole s1) (st2 : Stage held whole s2)
    (st3 : Stage held whole s3) (hset : Settles held s4 whole) (hp : Places whole s a)
    (hserves : Serves image a.memory s4.globals)
    (hb : Gives image a.frame buffer (.address (.heap k 0)))
    (hcount : a.memory.int? k 0 = some count) (previous : String) :
    ∃ b, Leads image f (here whole s previous a) (here whole s4 previous b) ∧
      Prints s.used [x] "[" a b ∧ Places whole s4 b ∧
      Gives image b.frame (.register x (.pointer .i32)) (.address (.stack x)) ∧
      Gives image b.frame (.register n buffer.type.pointee) (.int count) ∧
      b.frame.stack.get? x = some (.int (Int32.ofNat 0)) := by
  have hn := O.length.fresh ⟨n, .load buffer⟩ (by simp)
  obtain ⟨y, A4⟩ := O.clear
  -- the length and the bracket
  have R1 : Runs image [⟨n, .load buffer⟩] a (a.set n (.int count)) := runs_load_int hb hcount
  have L1 := leads_appends (f := f) O.length ha st1.settles R1 previous
  have p1 := hp.appends O.length st1.settles hh R1
  obtain ⟨s2', code, h2, A2, run2⟩ := printText_spec s1 "[" (by decide)
  obtain rfl : s2 = s2' := by
    have h := O.bracket.symm.trans h2
    cases h
    rfl
  obtain ⟨b2, R2, P2⟩ := run2 image (a.set n (.int count)) (hserves.mono (O.names ha).2.2)
  have L2 := leads_appends (f := f) A2 st1.active st2.settles R2 previous
  have p2 := p1.appends A2 st2.settles st1.housed R2
  -- the cell of the index
  obtain ⟨x', b3, hx', L3, Q3, p3, hcell⟩ := leads_entryAlloca image f O.cell
    st2.active st2.housed st3.settles p2 previous
  cases hx'
  have hgx : Gives image b3.frame (.register x (.pointer .i32)) (.address (.stack x)) :=
    gives_register hcell
  have R4 : Runs image [⟨y, .store (int32 0) (.register x (.pointer .i32))⟩] b3
      (b3.setStack x (.int (Int32.ofInt 0))) := runs_store_stack (gives_int32 0) hgx
  have L4 := leads_appends (f := f) A4 st3.active hset R4 previous
  have p4 := p3.appends A4 hset st3.housed R4
  have hlength : Gives image b3.frame (.register n buffer.type.pointee) (.int count) :=
    ((gives_set a n _ _).keep hn.2 P2.registers).keep (A2.used hn.2) Q3.registers
  have u2 : s.used ⊆ s2.used := fun _ h => A2.used (O.length.used h)
  have hprints : Prints s.used [x] "[" a (b3.setStack x (.int (Int32.ofInt 0))) := by
    have P12 := P2.after (quiet_set hn.1 a (.int count)) O.length.used
    have P13 := (P12.before Q3 u2).mono (fun _ h => h) (List.nil_subset [x])
    have P := P13.trans (prints_setStack s.used b3 x (.int (Int32.ofInt 0))) fun _ h => h
    rwa [String.append_empty] at P
  have hzero : (b3.setStack x (.int (Int32.ofInt 0))).frame.stack.get? x =
      some (.int (Int32.ofNat 0)) := (Table.get?_insert _ _ _ _).trans (if_pos rfl)
  exact ⟨_, ((L1.trans L2).trans L3).trans L4, hprints, p4, hgx, hlength, hzero⟩

/-! ## The whole loop -/

end Lowering
end DualEngine
