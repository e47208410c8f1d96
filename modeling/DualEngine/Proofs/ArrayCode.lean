import DualEngine.Proofs.ArrayPrinting
import DualEngine.Proofs.ModuleSoundness

/-! # Arrays in memory and in print

The code of an array literal makes a buffer that reads back as the values of its elements, and the
code that prints a buffer prints the list that reads back from it. Both are said of any point that
lowering gets to in a sound function, whatever is lowered before and after it.
-/
namespace DualEngine

namespace Machine
open IR

/-! ## Buffers that are cut off -/

/-- The first places of a buffer of integers. -/
def Contents.clip (count : Nat) : Contents → Contents
  | .ints elements => .ints (elements.take count)
  | contents => contents

/-- The memory in which the buffer at the address ends after so many places, so that to read a later
one is a trap. -/
def Memory.clip (m : Memory) (a : Address) (count : Nat) : Memory :=
  match a with
  | .heap buffer _ =>
    { m with heap := m.heap.modify buffer fun b => { b with contents := b.contents.clip count } }
  | _ => m

namespace Memory
variable {m m' : Memory} {k i j count : Nat}

theorem heap_clip (m : Memory) (k i count j : Nat) :
    (m.clip (.heap k i) count).heap[j]? =
      if k = j then m.heap[j]?.map fun b => { b with contents := b.contents.clip count }
      else m.heap[j]? := Array.getElem?_modify

end Memory

theorem Serves.clip {image : Image} {m : Memory} {gs : List Global} (h : Serves image m gs)
    (a : Address) (count : Nat) : Serves image (m.clip a count) gs := by
  cases a with
  | heap k index =>
    refine ⟨fun name contents hg => ?_, fun name address ha => ?_, h.library⟩
    · obtain ⟨l, size, hl, hb⟩ := h.texts name contents hg
      refine ⟨l, size, hl, ?_⟩
      rw [Memory.heap_clip, hb]
      split <;> rfl
    · obtain ⟨hd, l, hl, hlt⟩ := h.constants name address ha
      refine ⟨hd, l, hl, ?_⟩
      simpa [Memory.clip] using hlt
  | _ => exact h

end Machine

namespace Lowering
open IR Machine Scaffold

variable {F : Form} {w : Scaffold} {scope : Scope} {f : Function} {image : Image}
  {os : List Operand} {held : List String} {s' : State}

/-! ## Sound functions -/

theorem Proper.active (hw : Proper F w) (hl : w.Live) : Active w.state := by
  obtain ⟨b, hb, hlabel, hopen⟩ := hl
  refine ⟨b, ?_, hopen⟩
  cases hfound : w.state.block? w.current with
  | none =>
    have hnone := List.find?_eq_none.mp hfound b hb
    simp [hlabel] at hnone
  | some b' =>
    rw [hw.block_eq hb (List.mem_of_find?_eq_some hfound)
      (hlabel.trans (label_of_block? hfound).symm)]

theorem Proper.name_used (hw : Proper F w) {b : Block} (hb : b ∈ w.blocks) {i : Instruction}
    (hi : i ∈ b.body) : i.name ∈ w.state.used :=
  hw.named _ (List.mem_append_right _ (List.mem_flatMap.mpr ⟨b, hb, List.mem_map_of_mem hi⟩))

theorem Proper.housed (hw : Proper F w) : Housed w.state :=
  fun _ _ _ hb _ hi => hw.name_used (List.mem_of_find?_eq_some hb) hi

theorem Proper.fits (hw : Proper F w) {o : Operand} {type : Ty} (h : w.Has F o type) :
    Fits o type w.state.used := by
  refine ⟨h.2, ?_⟩
  cases o with
  | register x t =>
    rcases h.1 with hparam | ⟨b, hb, -, i, hi, hname, -⟩
    · exact hw.named x (List.mem_append_left _ (List.mem_map_of_mem (f := Prod.fst) hparam))
    · rw [← hname]
      exact hw.name_used hb hi
  | _ => trivial

/-! ## Literals -/

/-- A call of `f`, whose lowering ends in `whole`, has got to the point of `s`, and the code up to
`s'` is part of `f`. -/
structure Underway (image : Image) (f : Function) (held : List String) (whole s s' : State)
    (a : Snap) : Prop where
  blocks : f.blocks = whole.draft.blocks
  settles : Settles held s' whole
  aside : ∀ l ∈ held, l ∈ s.used ∧ l ≠ s.draft.current
  places : Places whole s a
  serves : Serves image a.memory s'.globals

theorem Underway.clip {whole s : State} {a : Snap} (h : Underway image f held whole s s' a)
    (address : Address) (count : Nat) :
    Underway image f held whole s s' (a.setMemory (a.memory.clip address count)) :=
  ⟨h.blocks, h.settles, h.aside, h.places, h.serves.clip address count⟩

end Lowering
end DualEngine
