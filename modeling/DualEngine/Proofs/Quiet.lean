import DualEngine.Proofs.Emission

/-! # What straight-line code leaves alone

Code that only computes sets registers of its own and adds buffers. Everything an operand stood for
before such code, it still stands for afterwards. `Serves` says what code expects of the image it
runs in: the module's texts are in buffers, and the library functions are the machine's.
-/
namespace DualEngine.Machine
open IR Lowering

variable {m' : Memory} {o : Operand}

/-- From `a` to `b` no register that was in use, no cell and no output changed, and no buffer. -/
structure Quiet (used : List String) (a b : Snap) : Prop where
  registers : ∀ x ∈ used, b.frame.registers.get? x = a.frame.registers.get? x
  stack : b.frame.stack = a.frame.stack
  cells : b.memory.cells = a.memory.cells
  heap : a.memory.Extends b.memory
  out : b.state.out = a.state.out
  generator : b.state.generator = a.state.generator

variable {used used' : List String} {a b c : Snap} {image : Image} {m : Memory} {gs : List Global}
  {v : Value} {r : Option Typed}

theorem Quiet.refl (used : List String) (a : Snap) : Quiet used a a :=
  ⟨fun _ _ => rfl, rfl, rfl, .refl _, rfl, rfl⟩

theorem Quiet.trans (h : Quiet used a b) (h' : Quiet used' b c) (hs : used ⊆ used') :
    Quiet used a c where
  registers x hx := (h'.registers x (hs hx)).trans (h.registers x hx)
  stack := h'.stack.trans h.stack
  cells := h'.cells.trans h.cells
  heap := h.heap.trans h'.heap
  out := h'.out.trans h.out
  generator := h'.generator.trans h.generator

theorem quiet_set {x : String} (hx : x ∉ used) (a : Snap) (w : Word) : Quiet used a (a.set x w) where
  registers y hy := by
    rw [Snap.register_set, if_neg]
    rintro rfl
    exact hx hy
  stack := rfl
  cells := rfl
  heap := .refl _
  out := rfl
  generator := rfl

/-- From `a` to `b` no register that was in use changed, no stack cell but those that were named on
the way, and no buffer. -/
structure Keeps (used used' : List String) (a b : Snap) : Prop where
  registers : ∀ x ∈ used, b.frame.registers.get? x = a.frame.registers.get? x
  stack : ∀ x, x ∈ used ∨ x ∉ used' → b.frame.stack.get? x = a.frame.stack.get? x
  heap : a.memory.Extends b.memory

theorem Keeps.trans {used'' : List String} (h : Keeps used used' a b) (h' : Keeps used' used'' b c)
    (hs : used ⊆ used') (hs' : used' ⊆ used'') : Keeps used used'' a c where
  registers x hx := (h'.registers x (hs hx)).trans (h.registers x hx)
  stack x hx := by
    rcases hx with hx | hx
    · exact (h'.stack x (.inl (hs hx))).trans (h.stack x (.inl hx))
    · exact (h'.stack x (.inr hx)).trans (h.stack x (.inr fun hm => hx (hs' hm)))
  heap := h.heap.trans h'.heap

theorem Quiet.keeps (h : Quiet used a b) (used' : List String) : Keeps used used' a b :=
  ⟨h.registers, fun _ _ => by rw [h.stack], h.heap⟩

theorem operand_congr {frame frame' : Frame} (ho : o.Known used)
    (h : ∀ x ∈ used, frame'.registers.get? x = frame.registers.get? x) :
    operand image frame' o = operand image frame o := by
  cases o with
  | register x type => simp only [operand, h x ho]
  | _ => rfl

theorem Gives.keep {frame frame' : Frame} {w : Word} (h : Gives image frame o w)
    (ho : o.Known used) (hr : ∀ x ∈ used, frame'.registers.get? x = frame.registers.get? x) :
    Gives image frame' o w := by
  intro s
  rw [operand_congr ho hr]
  exact h s

/-- What code of a module with these globals expects of the image and of memory. -/
structure Serves (image : Image) (m : Memory) (globals : List Global) : Prop where
  texts : ∀ name contents, Global.text name contents ∈ globals →
    ∃ k size, image.constants.get? name = some (.heap k 0) ∧
      m.heap[k]? = some ⟨size, .text contents⟩
  constants : ∀ name address, image.constants.get? name = some address →
    name.toList.head? ≠ some 'd' ∧ ∃ k, address = .heap k 0 ∧ k < m.heap.size
  library : ∀ callee ∈ library, image.function? callee.name = none

theorem Memory.Extends.size_le (h : m.Extends m') : m.heap.size ≤ m'.heap.size := by
  by_contra hle
  have hlt : m'.heap.size < m.heap.size := by omega
  have hk := h _ _ (Array.getElem?_eq_getElem hlt)
  simp at hk

theorem Serves.mono {gs' : List Global} (h : Serves image m gs') (hs : gs ⊆ gs') :
    Serves image m gs :=
  ⟨fun name contents hg => h.texts name contents (hs hg), h.constants, h.library⟩

theorem Serves.extend (h : Serves image m gs) (hm : m.Extends m') : Serves image m' gs where
  texts name contents hg := by
    obtain ⟨k, size, hk, hb⟩ := h.texts name contents hg
    exact ⟨k, size, hk, hm k _ hb⟩
  constants name address ha := by
    obtain ⟨hd, k, rfl, hk⟩ := h.constants name address ha
    exact ⟨hd, k, rfl, hk.trans_le hm.size_le⟩
  library := h.library

/-- A name with this first letter is no constant of the module. -/
theorem Serves.no_constant (h : Serves image m gs) {name : String}
    (hname : name.toList.head? = some 'd') : image.constants.get? name = none := by
  cases hc : image.constants.get? name with
  | none => rfl
  | some address => exact absurd hname (h.constants name address hc).1

/-- The word does not point into the constants of the module, which are freed after its run. -/
def Lasting (image : Image) : Word → Prop
  | .address (.heap k _) => ∀ name i, image.constants.get? name ≠ some (.heap k i)
  | _ => True

/-- A buffer made by the code is none of the constants. -/
theorem Serves.lasting_new (h : Serves image m gs) {k : Nat} (hk : m.heap.size ≤ k) (i : Nat) :
    Lasting image (.address (.heap k i)) := by
  intro name j hc
  obtain ⟨-, k', hk', hlt⟩ := h.constants name _ hc
  cases hk'
  omega

/-- The word stands for the value, and for an array beyond the run of the module. -/
def Stands (image : Image) (m : Memory) (v : Value) (w : Word) : Prop :=
  Holds m v w ∧ (v.kind = .intArray → Lasting image w)

theorem Stands.extend {w : Word} (h : Stands image m v w) (hm : m.Extends m') :
    Stands image m' v w :=
  ⟨h.1.extend hm, h.2⟩

/-- The typed operand stands for the value. -/
def Carries (image : Image) (a : Snap) (t : Typed) (v : Value) : Prop :=
  t.kind = v.kind ∧ ∃ w, Gives image a.frame t.operand w ∧ Stands image a.memory v w

/-- The same for a result; no operand stands for no value. -/
def CarriesResult (image : Image) (a : Snap) : Option Typed → Value → Prop
  | some t, v => Carries image a t v
  | none, v => v = .none

/-- The operand is of the type of its kind. -/
def TypedFits (used : List String) (t : Typed) : Prop := Fits t.operand (irType t.kind) used

def ResultFits (used : List String) : Option Typed → Prop
  | some t => TypedFits used t
  | none => True

theorem ResultFits.mono (h : ResultFits used r) (hs : used ⊆ used') : ResultFits used' r := by
  cases r with
  | none => trivial
  | some t => exact Fits.mono h hs

theorem Carries.keep {t : Typed} (h : Carries image a t v) (ht : TypedFits used t)
    (hq : Quiet used a b) : Carries image b t v := by
  obtain ⟨hk, w, hg, hs⟩ := h
  exact ⟨hk, w, hg.keep ht.known hq.registers, hs.extend hq.heap⟩

theorem CarriesResult.keep (h : CarriesResult image a r v) (hr : ResultFits used r)
    (hq : Quiet used a b) : CarriesResult image b r v := by
  cases r with
  | none => exact h
  | some t => exact Carries.keep h hr hq

theorem Carries.kept {t : Typed} (h : Carries image a t v) (ht : TypedFits used t)
    (hk : Keeps used used' a b) : Carries image b t v := by
  obtain ⟨hkind, w, hg, hs⟩ := h
  exact ⟨hkind, w, hg.keep ht.known hk.registers, hs.extend hk.heap⟩

theorem CarriesResult.kept (h : CarriesResult image a r v) (hr : ResultFits used r)
    (hk : Keeps used used' a b) : CarriesResult image b r v := by
  cases r with
  | none => exact h
  | some t => exact Carries.kept h hr hk

theorem CarriesResult.kindOf (h : CarriesResult image a r v) : kindOf r = v.kind := by
  cases r with
  | none =>
    have hv : v = .none := h
    rw [hv]
    rfl
  | some t => exact h.1

end DualEngine.Machine
