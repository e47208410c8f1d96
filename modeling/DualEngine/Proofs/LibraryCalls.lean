import DualEngine.Proofs.DecimalText
import DualEngine.Proofs.Quiet

/-! # Calls of library functions

Formatting is described by the text that each directive makes of its word. A new buffer is blank
until its text is written, so allocating and writing together only add a buffer.
-/
namespace DualEngine.Machine
open IR Lowering

variable {address : Address} {m : Memory}

/-- The directive makes the text of the word. -/
inductive Formats (m : Memory) : String → Word → String → Prop
  | int (n : Int32) : Formats m "%d" (.int n) (toString n.toInt)
  | double (x : Float) : Formats m "%g" (.double x) (doubleText x)
  | text {a : Address} {t : String} (h : m.text? a = some t) : Formats m "%s" (.address a) t

theorem Formats.extend {m' : Memory} {d t : String} {w : Word} (h : Formats m d w t)
    (hm : m.Extends m') : Formats m' d w t := by
  cases h with
  | int n => exact .int n
  | double x => exact .double x
  | text h => exact .text (hm.text? h)

theorem readText_run {s : State} {a : Address} {t : String} (h : s.memory.text? a = some t) :
    readText a s = .ok t s := by
  unfold readText
  rw [bind_ok (get_run s), h]
  rfl

theorem format_directive {s : State} {d t : String} {w : Word} (h : Formats s.memory d w t)
    {rest cs : List Char} {args : List Word} (hr : format rest args s = .ok cs s) :
    format (d.toList ++ rest) (w :: args) s = .ok (t.toList ++ cs) s := by
  cases h with
  | int n =>
    have hd : "%d".toList ++ rest = '%' :: 'd' :: rest := rfl
    rw [hd, format, bind_ok hr]
    rfl
  | double x =>
    have hd : "%g".toList ++ rest = '%' :: 'g' :: rest := rfl
    rw [hd, format, bind_ok hr]
    rfl
  | text h =>
    have hd : "%s".toList ++ rest = '%' :: 's' :: rest := rfl
    rw [hd, format, bind_ok (readText_run h), bind_ok hr]
    rfl

/-- Characters that start no directive stay as they are. -/
theorem format_plain {cs : List Char} (h : '%' ∉ cs) (args : List Word) (s : State) :
    format cs args s = .ok cs s := by
  fun_induction format cs args with
  | case5 c rest args _ _ _ _ ih =>
    rw [bind_ok (ih fun hm => h (List.mem_cons_of_mem c hm))]
    rfl
  | case6 => rfl
  | _ => exact absurd List.mem_cons_self h

section Format
variable {s : State} {a : Address} {d d' t t' tail : String} {w w' : Word}

theorem formatAt_one (ha : s.memory.text? a = some (d ++ tail)) (h : Formats s.memory d w t)
    (htail : '%' ∉ tail.toList) : formatAt a [w] s = .ok (t ++ tail) s := by
  have hf := format_directive h (format_plain htail [] s)
  rw [← String.toList_append] at hf
  unfold formatAt
  rw [bind_ok (readText_run ha), bind_ok hf]
  rw [← String.toList_append, String.ofList_toList]
  rfl

theorem formatAt_two (ha : s.memory.text? a = some (d ++ d')) (h : Formats s.memory d w t)
    (h' : Formats s.memory d' w' t') : formatAt a [w, w'] s = .ok (t ++ t') s := by
  have hlast := format_directive h' (format_plain (List.not_mem_nil : '%' ∉ []) [] s)
  rw [List.append_nil, List.append_nil] at hlast
  have hf := format_directive h hlast
  rw [← String.toList_append] at hf
  unfold formatAt
  rw [bind_ok (readText_run ha), bind_ok hf]
  rw [← String.toList_append, String.ofList_toList]
  rfl

end Format

/-! ## What a call does to a snapshot -/

namespace Snap

/-- The snapshot with more output. -/
def print (a : Snap) (t : String) : Snap :=
  { a with state := { a.state with out := a.state.out ++ t } }

/-- The snapshot with another memory. -/
def setMemory (a : Snap) (m : Memory) : Snap := { a with state := { a.state with memory := m } }

/-- The snapshot with one more buffer. -/
def addBuffer (a : Snap) (size : Nat) (contents : Contents) : Snap :=
  a.setMemory { a.memory with heap := a.memory.heap.push ⟨size, contents⟩ }

end Snap

variable {image : Image} {a b : Snap} {x : String} {args : List Operand} {ws : List Word}

theorem runs_printf {t : String} (hf : image.function? printf.name = none)
    (hargs : GivesAll image a.frame args (.address address :: ws))
    (h : formatAt address ws a.state = .ok t a.state) :
    Runs image [⟨x, .call printf args⟩] a ((a.print t).set x (lengthWord t)) := by
  refine runs_library hf hargs ?_ rfl
  have hcall : callLibrary printf.name (.address address :: ws) = (do
      let s ← formatAt address ws
      modify fun state => { state with out := state.out ++ s }
      pure (some (lengthWord s))) := rfl
  rw [hcall, bind_ok h]
  rfl

theorem runs_snprintf {t : String} (hf : image.function? snprintf.name = none)
    (hargs : GivesAll image a.frame args (.address .null :: .long 0 :: .address address :: ws))
    (h : formatAt address ws a.state = .ok t a.state) :
    Runs image [⟨x, .call snprintf args⟩] a (a.set x (lengthWord t)) := by
  refine runs_library hf hargs ?_ rfl
  have hcall : callLibrary snprintf.name (.address .null :: .long 0 :: .address address :: ws) =
      (do return some (lengthWord (← formatAt address ws))) := rfl
  rw [hcall, bind_ok h]
  rfl

theorem runs_sprintf {buffer : Address} {t : String} (hf : image.function? sprintf.name = none)
    (hargs : GivesAll image a.frame args (.address buffer :: .address address :: ws))
    (h : formatAt address ws a.state = .ok t a.state) (hm : a.memory.writeText? buffer t = some m) :
    Runs image [⟨x, .call sprintf args⟩] a ((a.setMemory m).set x (lengthWord t)) := by
  refine runs_library hf hargs ?_ rfl
  have hcall : callLibrary sprintf.name (.address buffer :: .address address :: ws) = (do
      let s ← formatAt address ws
      let state ← get
      let memory ← ofOption .memory (state.memory.writeText? buffer s)
      set { state with memory }
      pure (some (lengthWord s))) := rfl
  rw [hcall, bind_ok h, bind_ok (get_run _), hm]
  rfl

theorem runs_malloc {n : Int64} (hf : image.function? malloc.name = none)
    (hargs : GivesAll image a.frame args [.long n]) :
    Runs image [⟨x, .call malloc args⟩] a
      ((a.addBuffer n.toInt.toNat .blank).set x (.address (.heap a.memory.heap.size 0))) :=
  runs_library hf hargs rfl rfl

theorem runs_strdup {t : String} (hf : image.function? strdup.name = none)
    (hargs : GivesAll image a.frame args [.address address]) (h : a.memory.text? address = some t) :
    Runs image [⟨x, .call strdup args⟩] a
      ((a.addBuffer (t.utf8ByteSize + 1) (.text t)).set x
        (.address (.heap a.memory.heap.size 0))) := by
  refine runs_library hf hargs ?_ rfl
  have hcall : callLibrary strdup.name [.address address] = (do
      let s ← readText address
      some <$> allocate (s.utf8ByteSize + 1) (.text s)) := rfl
  rw [hcall, bind_ok (readText_run h)]
  rfl

theorem runs_strcmp {address' : Address} {t t' : String} (hf : image.function? strcmp.name = none)
    (hargs : GivesAll image a.frame args [.address address, .address address'])
    (h : a.memory.text? address = some t) (h' : a.memory.text? address' = some t') :
    Runs image [⟨x, .call strcmp args⟩] a (a.set x (orderWord t t')) := by
  refine runs_library hf hargs ?_ rfl
  have hcall : callLibrary strcmp.name [.address address, .address address'] = (do
      let s ← readText address
      let t ← readText address'
      pure (some (orderWord s t))) := rfl
  rw [hcall, bind_ok (readText_run h), bind_ok (readText_run h')]
  rfl

/-! ## Buffers -/

theorem extends_addBuffer (a : Snap) (size : Nat) (contents : Contents) :
    a.memory.Extends (a.addBuffer size contents).memory := Memory.extends_push rfl

theorem buffer_addBuffer (a : Snap) (size : Nat) (contents : Contents) :
    (a.addBuffer size contents).memory.heap[a.memory.heap.size]? = some ⟨size, contents⟩ := by
  simp [Snap.addBuffer, Snap.setMemory]

/-- A text that fits is written and changes no other buffer. -/
theorem writeText?_spec {k size : Nat} {contents : Contents} {t : String}
    (hk : m.heap[k]? = some ⟨size, contents⟩) (ht : t.utf8ByteSize < size) :
    ∃ m', m.writeText? (.heap k 0) t = some m' ∧ m'.heap[k]? = some ⟨size, .text t⟩ ∧
      (∀ j, j ≠ k → m'.heap[j]? = m.heap[j]?) ∧ m'.cells = m.cells := by
  refine ⟨m.setContents k (.text t), ?_, ?_, ?_, rfl⟩
  · simp only [Memory.writeText?, hk, ht, if_true]
  · simp [Memory.setContents, Array.getElem?_modify, hk]
  · intro j hj
    simp [Memory.setContents, Array.getElem?_modify, Ne.symm hj]

end DualEngine.Machine
