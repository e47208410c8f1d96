import DualEngine.Proofs.Blocks
import DualEngine.Proofs.Coercions
import DualEngine.Proofs.Evaluation

/-! # Variables in memory

Each slot has a cell of its own. Memory mirrors the variables of an evaluation through bindings of
names to slots: every slot that stands for a name holds the value of the name, converted to the
kind of the slot.
-/
namespace DualEngine

/-! ## Symbols of slots -/

theorem append_dot_injective {l l' d d' : List Char} (hd : '.' ∉ d) (hd' : '.' ∉ d')
    (h : l ++ '.' :: d = l' ++ '.' :: d') : l = l' ∧ d = d' := by
  rcases List.append_eq_append_iff.mp h with ⟨c, rfl, hc⟩ | ⟨c, rfl, hc⟩
  all_goals
    cases c with
    | nil => simp_all
    | cons x c =>
      simp only [List.cons_append, List.cons.injEq] at hc
      simp [hc.2] at hd hd'

theorem dot_not_mem_toString (n : Nat) : '.' ∉ (toString n).toList := by
  rw [Nat.toString_eq_repr, Nat.toList_repr]
  intro h
  exact absurd (Nat.isDigit_of_mem_toDigits (by decide) (by decide) h) (by decide)

/-- Different slots have different symbols. -/
theorem Slot.symbol_injective {s t : Slot} (h : s.symbol = t.symbol) :
    s.name = t.name ∧ s.number = t.number := by
  have hlist : "duet.var.".toList ++ s.name.toList ++ '.' :: (toString s.number).toList =
      "duet.var.".toList ++ t.name.toList ++ '.' :: (toString t.number).toList := by
    simpa [Slot.symbol, String.toList_append] using congrArg String.toList h
  obtain ⟨hname, hnumber⟩ :=
    append_dot_injective (dot_not_mem_toString _) (dot_not_mem_toString _) hlist
  refine ⟨String.toList_inj.mp (List.append_cancel_left hname), ?_⟩
  have hrepr := String.toList_inj.mp hnumber
  rw [Nat.toString_eq_repr, Nat.toString_eq_repr] at hrepr
  exact Nat.repr_injective hrepr

theorem Slot.symbol_head (s : Slot) : s.symbol.toList.head? = some 'd' := by
  simp [Slot.symbol, String.toList_append]

/-- The symbol of a slot is no name that the machine gives a meaning of its own. -/
theorem Slot.symbol_ne (s : Slot) {name : String} (h : "duet.var.".toList.isPrefixOf name.toList = false) :
    s.symbol ≠ name := by
  rintro rfl
  simp [Slot.symbol, String.toList_append] at h

namespace Machine
open Lowering

/-- The cell of a slot. -/
theorem address_symbol {image : Image} {m : Memory} {gs : List IR.Global} (h : Serves image m gs)
    (slot : Slot) : image.address slot.symbol = .cell slot.symbol := by
  have htext : slot.symbol ≠ emptyText := slot.symbol_ne (by decide)
  have harray : slot.symbol ≠ emptyArray := slot.symbol_ne (by decide)
  rw [Image.address, h.no_constant slot.symbol_head]
  simp only [if_neg htext, if_neg harray]

end Machine

/-! ## Memory mirrors the variables -/

/-- Names with the symbols that stand for them. -/
abbrev Bindings := String → Symbol Slot → Prop

def Context.bindings (c : Context Slot) : Bindings := fun x sym => c.get? x = some sym

/-- Symbols of their own names, with slots of their own kinds. -/
structure Bindings.Proper (D : Bindings) : Prop where
  name : ∀ x sym, D x sym → sym.storage.name = x
  kind : ∀ x sym, D x sym → sym.storage.kind = sym.kind
  kind_ne : ∀ x sym, D x sym → sym.kind ≠ .none

namespace Machine
open IR Lowering

variable {image : Image} {D D' : Bindings} {c : Context Value} {m m' : Memory} {v : Value}
  {w : Word}

/-- The word stands for the value, also after the run of the module. -/
def Rests (image : Image) (m : Memory) (v : Value) (w : Word) : Prop :=
  Holds m v w ∧ Lasting image w

theorem Rests.extend (h : Rests image m v w) (hm : m.Extends m') : Rests image m' v w :=
  ⟨h.1.extend hm, h.2⟩

theorem Rests.stands (h : Rests image m v w) : Stands image m v w :=
  ⟨h.1, fun _ => h.2⟩

/-- Only texts and arrays are addresses. -/
theorem lasting_of_holds (h : Holds m v w) (hs : v.kind = .string → Lasting image w)
    (ha : v.kind = .intArray → Lasting image w) : Lasting image w := by
  cases v with
  | int n =>
    obtain ⟨i, rfl, -⟩ := holds_int.mp h
    trivial
  | float y =>
    obtain rfl := holds_float.mp h
    trivial
  | bool bit =>
    obtain rfl := holds_bool.mp h
    trivial
  | string text => exact hs rfl
  | intArray xs => exact ha rfl
  | none => simp at h

def Mirrors (image : Image) (D : Bindings) (c : Context Value) (m : Memory) : Prop :=
  ∀ x sym v, D x sym → c.value? x = some v →
    ∃ w, m.cells.get? sym.storage.symbol = some w ∧ Rests image m (v.coerce sym.kind) w

theorem Mirrors.extend (h : Mirrors image D c m) (hm : m.Extends m') (hc : m'.cells = m.cells) :
    Mirrors image D c m' := by
  intro x sym v hx hv
  obtain ⟨w, hw, hrests⟩ := h x sym v hx hv
  exact ⟨w, by rw [hc]; exact hw, hrests.extend hm⟩

/-- A name gets a value, and the one slot that stands for it from then on gets it too. -/
theorem Mirrors.assign (h : Mirrors image D c m) {x : String} {slot : Slot}
    (hcells : m'.cells = m.cells.insert slot.symbol w) (hm : m.Extends m')
    (hw : Rests image m' v w) (hslot : slot.name = x) (hD' : D'.Proper)
    (hx : ∀ sym, D' x sym → sym.storage = slot ∧ sym.kind = v.kind)
    (hother : ∀ y sym, D' y sym → y ≠ x → D y sym) (k : Kind) :
    Mirrors image D' (c.add x v k) m' := by
  intro y sym u hy hu
  rw [Context.value?_add] at hu
  by_cases hxy : x = y
  · subst hxy
    obtain ⟨rfl, hkind⟩ := hx sym hy
    rw [if_pos rfl, Option.some.injEq] at hu
    subst hu
    refine ⟨w, ?_, ?_⟩
    · rw [hcells, Table.get?_insert, if_pos rfl]
    · rwa [hkind, coerce_of_kind_eq rfl]
  · rw [if_neg hxy] at hu
    obtain ⟨w', hw', hrests⟩ := h y sym u (hother y sym hy (Ne.symm hxy)) hu
    refine ⟨w', ?_, hrests.extend hm⟩
    have hne : slot.symbol ≠ sym.storage.symbol := by
      intro heq
      exact hxy (hslot ▸ hD'.name y sym hy ▸ (Slot.symbol_injective heq).1)
    rw [hcells, Table.get?_insert, if_neg hne]
    exact hw'

/-- The snapshot with a cell set. -/
def Snap.setCell (a : Snap) (symbol : String) (w : Word) : Snap :=
  { a with state := { a.state with memory := a.memory.setCell symbol w } }

end Machine

namespace Lowering
open IR Machine

variable {s : State} {scope : Scope} {x : String} {sym : Symbol Slot} {image : Image}
  {gs : List Global} {o : Operand} {slot : Slot} {t : Typed}

/-! ## Reading and stepping -/

theorem slotAddress_spec (s : State) (slot : Slot) :
    ∃ s', slotAddress slot s = .ok (.global slot.symbol (.pointer (irType slot.kind))) s' ∧
      Appends [] s s' := external_spec s _ _

theorem runs_load_slot {a : Snap} {r : String} {type : Ty} {w : Word}
    (hs : Serves image a.memory gs) (hw : a.memory.cells.get? slot.symbol = some w) :
    Runs image [⟨r, .load (.global slot.symbol type)⟩] a (a.set r w) := by
  refine runs_load (gives_global _ _) ?_
  rw [address_symbol hs]
  simp only [load]
  rw [bind_ok (get_run a.state), hw]
  rfl

theorem runs_store_slot {a : Snap} {r : String} {type : Ty} {w : Word}
    (hs : Serves image a.memory gs) (ho : Gives image a.frame o w) :
    Runs image [⟨r, .store o (.global slot.symbol type)⟩] a (a.setCell slot.symbol w) := by
  refine runs_store ho (gives_global _ _) ?_
  rw [address_symbol hs]
  rfl

theorem keeps_setCell (used used' : List String) (a : Snap) (symbol : String) (w : Word) :
    Keeps used used' a (a.setCell symbol w) :=
  ⟨fun _ _ => rfl, fun _ _ => rfl, Memory.extends_of_heap_eq rfl⟩

theorem loadName_spec (hp : scope.params.get? x = none) (hx : s.context.get? x = some sym)
    (hk : sym.storage.kind = sym.kind) :
    ∃ r s' code, loadName scope x s = .ok ⟨.register r (irType sym.kind), sym.kind⟩ s' ∧
      Appends code s s' ∧ r ∈ s'.used ∧
      ∀ image a w, Serves image a.memory s'.globals →
        a.memory.cells.get? sym.storage.symbol = some w →
        Computes image s.used code a (a.set r w) := by
  obtain ⟨s1, h1, A1⟩ := slotAddress_spec s sym.storage
  obtain ⟨r, s2, h2, A2, hr⟩ := emit_spec s1
    (.load (.global sym.storage.symbol (.pointer (irType sym.storage.kind)))) x rfl
  refine ⟨r, s2, _, ?_, A1.trans A2, hr, ?_⟩
  · unfold loadName
    rw [hp]
    dsimp only
    have htype : irType sym.kind = irType sym.storage.kind := by rw [hk]
    rw [bind_ok (get_run s), hx, htype]
    exact (bind_ok h1).trans ((bind_ok h2).trans rfl)
  · intro image a w hs hw
    exact (Computes.nil s.used a).append (computes_set A2 (runs_load_slot hs hw)) A1.used

theorem loadName_param (hp : scope.params.get? x = some o) (s : State) :
    loadName scope x s = .ok ⟨o, .float⟩ s := by
  unfold loadName
  rw [hp]
  rfl

theorem loadName_inv {s' : State} (h : loadName scope x s = .ok t s') :
    (∃ o, scope.params.get? x = some o) ∨ ∃ sym, s.context.get? x = some sym := by
  unfold loadName at h
  cases hp : scope.params.get? x with
  | some o => exact .inl ⟨o, rfl⟩
  | none =>
    rw [hp] at h
    dsimp only at h
    rw [bind_ok (get_run s)] at h
    cases hx : s.context.get? x with
    | some sym => exact .inr ⟨sym, rfl⟩
    | none =>
      rw [hx] at h
      cases h

theorem stepVariable_spec (op : BinaryOp) (hp : scope.params.contains x = false)
    (hx : s.context.get? x = some sym) (hk : sym.storage.kind = sym.kind) (hint : sym.kind = .int) :
    ∃ r s' code, stepVariable scope x op s = .ok ⟨.register r .i32, .int⟩ s' ∧
      Appends code s s' ∧ r ∈ s'.used ∧
      ∀ image a i j, Serves image a.memory s'.globals →
        a.memory.cells.get? sym.storage.symbol = some (.int i) →
        (∀ st, binary op (.int i) (.int 1) st = .ok (.int j) st) →
        ∃ b, Runs image code a b ∧ Keeps s.used s'.used a b ∧
          b.memory = a.memory.setCell sym.storage.symbol (.int j) ∧ b.state.out = a.state.out ∧
          Gives image b.frame (.register r .i32) (.int j) := by
  have hirType : irType sym.storage.kind = .i32 := by rw [hk, hint]; rfl
  obtain ⟨s1, h1, A1⟩ := slotAddress_spec s sym.storage
  rw [hirType] at h1
  obtain ⟨y, s2, h2, A2, hy⟩ := emit_spec s1
    (.load (.global sym.storage.symbol (.pointer .i32))) x rfl
  obtain ⟨r, s3, h3, A3, hr⟩ := emit_spec s2
    (.binary op (.register y .i32) (int32 1)) "step" rfl
  obtain ⟨z, s4, h4, A4, -⟩ := emit_spec s3
    (.store (.register r .i32) (.global sym.storage.symbol (.pointer .i32))) "" rfl
  refine ⟨r, s4, _, ?_, ((A1.trans A2).trans A3).trans A4, A4.used hr, ?_⟩
  · unfold stepVariable
    rw [hp]
    simp only [Bool.false_eq_true, if_false]
    refine (bind_ok (get_run s)).trans ?_
    rw [hx]
    dsimp only
    rw [if_pos hint]
    exact (bind_ok h1).trans ((bind_ok h2).trans ((bind_ok h3).trans ((bind_ok h4).trans rfl)))
  · intro image a i j hs hw hj
    have C₂ := (Computes.nil s.used a).append
      (computes_set A2 (runs_load_slot hs hw)) A1.used
    have C₃ := C₂.append (computes_set A3 (runs_binary (gives_set a y .i32 (.int i))
      (gives_int32 1) (hj _))) fun z hz => A2.used (A1.used hz)
    have hgives : Gives image ((a.set y (.int i)).set r (.int j)).frame (.register r .i32) (.int j) :=
      gives_set _ _ _ _
    refine ⟨_, C₃.runs.append (runs_store_slot hs hgives), ?_, rfl, rfl, hgives⟩
    exact (C₃.quiet.keeps s4.used).trans (keeps_setCell s4.used s4.used _ _ _)
      (fun z hz => A4.used (A3.used (A2.used (A1.used hz)))) (fun z hz => hz)

theorem stepVariable_inv {op : BinaryOp} {s' : State} (h : stepVariable scope x op s = .ok t s') :
    scope.params.contains x = false ∧ ∃ sym, s.context.get? x = some sym ∧ sym.kind = .int := by
  unfold stepVariable at h
  cases hp : scope.params.contains x with
  | true =>
    rw [hp] at h
    cases h
  | false =>
    rw [hp] at h
    simp only [Bool.false_eq_true, if_false] at h
    rw [bind_ok (get_run s)] at h
    cases hx : s.context.get? x with
    | none =>
      rw [hx] at h
      cases h
    | some sym =>
      rw [hx] at h
      by_cases hint : sym.kind = .int
      · exact ⟨rfl, sym, rfl, hint⟩
      · simp only [if_neg hint] at h
        cases h

/-! ## Assigning -/

/-- A value is stored in a form that outlives the module. -/
theorem storeSlot_spec (ht : TypedFits s.used t) (hk : slot.kind = t.kind) :
    ∃ s' code, storeSlot slot t s = .ok ⟨⟩ s' ∧ Appends code s s' ∧
      ∀ image a v, Serves image a.memory s'.globals → Carries image a t v →
        ∃ b w, Runs image code a b ∧ Keeps s.used s'.used a b ∧
          b.memory.cells = a.memory.cells.insert slot.symbol w ∧ Rests image b.memory v w ∧
          b.state.out = a.state.out := by
  have hstore (s : State) (o : Operand) (ho : Fits o (irType t.kind) s.used) :
      ∃ s' code, (do
          let address ← slotAddress slot
          let _ ← emit (.store o address) "" : Lower Unit) s = .ok ⟨⟩ s' ∧ Appends code s s' ∧
        ∀ image a w, Serves image a.memory s'.globals → Gives image a.frame o w →
          Runs image code a (a.setCell slot.symbol w) := by
    obtain ⟨s1, h1, A1⟩ := slotAddress_spec s slot
    have hfit : (Operation.store o (.global slot.symbol (.pointer (irType slot.kind)))).misfit? =
        none := if_pos (by rw [ho.type, hk]; rfl)
    obtain ⟨y, s2, h2, A2, -⟩ := emit_spec s1 _ "" hfit
    refine ⟨s2, _, (bind_ok h1).trans ((bind_ok h2).trans rfl), A1.trans A2, ?_⟩
    intro image a w hs hw
    exact (Runs.nil a).append (runs_store_slot hs hw)
  unfold storeSlot
  by_cases hstring : t.kind = .string
  · have htext : t.operand.type = .text := by rw [Fits.type ht, hstring]; rfl
    obtain ⟨r, s1, h1, A1, hr⟩ := emit_spec s (.call strdup [t.operand]) "strcopy"
      (argumentMisfit?_append 1 [t.operand] [] (by simp [htext, strdup]))
    have hfits : Fits (.register r .text) (irType t.kind) s1.used := ⟨by rw [hstring]; rfl, hr⟩
    obtain ⟨s2, code, h2, A2, run2⟩ := hstore s1 (.register r .text) hfits
    simp only [if_pos hstring]
    refine ⟨s2, _, (bind_ok h1).trans h2, A1.trans A2, ?_⟩
    rintro image a v hs ⟨hkind, w, hg, hw⟩
    cases v with
    | string text =>
      obtain ⟨address, rfl, htext⟩ := holds_string.mp hw.1
      have R1 : Runs image _ a _ := runs_strdup (x := r) (hs.library _ (by simp [library]))
        (.cons hg .nil) htext
      let b := (a.addBuffer (text.utf8ByteSize + 1) (.text text)).set r
        (.address (.heap a.memory.heap.size 0))
      have Q : Quiet s.used a b := quiet_addBuffer A1.name_fresh _ _ _ _
      have R2 := run2 image b _ (hs.extend Q.heap) (gives_set _ _ _ _)
      refine ⟨_, _, R1.append R2, ?_, rfl, ⟨holds_string.mpr ⟨_, rfl, ?_⟩, ?_⟩, rfl⟩
      · exact (Q.keeps s2.used).trans (keeps_setCell s2.used s2.used _ _ _)
          (fun z hz => A2.used (A1.used hz)) fun z hz => hz
      · have hcut : cut text = text := by
          obtain ⟨k, size, t', -, -, rfl⟩ := Memory.text?_eq_some htext
          exact cut_cut t'
        rw [← hcut]
        exact Memory.text?_heap (buffer_addBuffer a _ _)
      · exact hs.lasting_new le_rfl 0
    | _ => simp [Value.kind, hstring] at hkind
  · obtain ⟨s1, code, h1, A1, run1⟩ := hstore s t.operand ht
    simp only [if_neg hstring]
    refine ⟨s1, code, h1, A1, ?_⟩
    rintro image a v hs ⟨hkind, w, hg, hw⟩
    refine ⟨_, w, run1 image a w hs hg, keeps_setCell _ _ _ _ _, rfl,
      ⟨hw.1.extend (Memory.extends_of_heap_eq rfl), ?_⟩, rfl⟩
    exact lasting_of_holds hw.1 (fun h => absurd (hkind.trans h) hstring) hw.2

/-- A new slot inside a branch gets the former value of its name, converted to its kind. -/
theorem seedSlot_spec {label : String} (ho : scope.outermost = some label)
    (hk : sym.storage.kind = sym.kind) (hne : slot.kind ≠ .none) (hdiff : slot.kind ≠ sym.kind) :
    ∃ s1 code, seedSlot scope slot (some sym) s = .ok ⟨⟩ (s1.entered s.draft.current) ∧
      Appends code (s.entered label) s1 ∧
      ∀ image a v w, Serves image a.memory s1.globals → Grounded image a.memory →
        a.memory.cells.get? sym.storage.symbol = some w → Rests image a.memory v w →
        v.kind = sym.kind → v.Portable → (v.kind = .bool → slot.kind ≠ .string) →
        ∃ b w', Runs image code a b ∧ Keeps s.used s1.used a b ∧
          b.memory.cells = a.memory.cells.insert slot.symbol w' ∧
          Rests image b.memory (v.coerce slot.kind) w' ∧ b.state.out = a.state.out := by
  obtain ⟨s1, h1, A1⟩ := slotAddress_spec (s.entered label) sym.storage
  rw [hk] at h1
  obtain ⟨x, s2, h2, A2, hx⟩ := emit_spec s1
    (.load (.global sym.storage.symbol (.pointer (irType sym.kind)))) "previous" rfl
  have hfits : TypedFits s2.used ⟨.register x (irType sym.kind), sym.kind⟩ := ⟨rfl, hx⟩
  obtain ⟨o, s3, code, h3, A3, F3, run3⟩ := coerce_spec hfits hne
  obtain ⟨s4, h4, A4⟩ := slotAddress_spec s3 slot
  have hstore : (Operation.store o (.global slot.symbol (.pointer (irType slot.kind)))).misfit? =
      none := if_pos (by rw [F3.type]; rfl)
  obtain ⟨y, s5, h5, A5, -⟩ := emit_spec s4 _ "" hstore
  refine ⟨s5, _, ?_, (((A1.trans A2).trans A3).trans A4).trans A5, ?_⟩
  · unfold seedSlot
    rw [ho]
    refine inBlock_run ((bind_ok h1).trans ((bind_ok h2).trans ((bind_ok h3).trans ?_)))
    exact (bind_ok h4).trans ((bind_ok h5).trans rfl)
  · intro image a v w hs hg hw hr hkind hp hbool
    have S3 := A4.serves (A5.serves hs)
    have C₂ := (Computes.nil s.used a).append
      (computes_set A2 (runs_load_slot hs hw)) A1.used
    have hcarries : Carries image (a.set x w) ⟨.register x (irType sym.kind), sym.kind⟩ v :=
      ⟨hkind.symm, w, gives_set _ _ _ _, hr.stands⟩
    obtain ⟨b, w', C₃, g, hstands, hlast⟩ := run3 image (a.set x w) v S3 hg hcarries
    rw [recast_of_portable hp] at hstands
    have C := C₂.append C₃ fun z hz => A2.used (A1.used hz)
    have hused : s.used ⊆ s5.used := fun z hz =>
      A5.used (A4.used (A3.used (A2.used (A1.used hz))))
    have hkeeps := (C.quiet.keeps s5.used).trans
      (keeps_setCell s5.used s5.used b slot.symbol w') hused fun z hz => hz
    refine ⟨_, w', (C.runs.append (Runs.nil b)).append (runs_store_slot (hs.extend C.quiet.heap) g),
      hkeeps, ?_, ⟨hstands.1.extend (Memory.extends_of_heap_eq rfl), ?_⟩, C.quiet.out⟩
    · exact congrArg (·.insert slot.symbol w') C.quiet.cells
    · refine lasting_of_holds hstands.1 (fun h => ?_) hstands.2
      rw [kind_coerce] at h
      -- a text of a text is no conversion, and one of a bool is a constant of the module
      refine (hlast ?_ ?_).resolve_right fun hn => hn h
      · exact fun hstring => hdiff (h.trans hstring.symm)
      · exact fun hb => hbool (hkind.trans hb) h

end Lowering
end DualEngine
