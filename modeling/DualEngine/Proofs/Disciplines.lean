import DualEngine.Proofs.Renaming

/-! # What every step of lowering keeps

Lowering is put together from a few steps: code is appended, blocks are opened and ended, texts and
variables are added to the module. A `Discipline` says what these steps keep, and all that is put
together from them keeps it as well. Code stores only to variables and to addresses that the function
has made itself, so a discipline may follow these addresses from world to world. It may also compare a
computation with the same computation under a renaming, which goes the same way. What happens to
variables and functions every discipline says for itself.
-/
namespace DualEngine

namespace IR.Operation
variable {own : Operand → Prop}

/-- The operation writes through no address that it is given. -/
def Plain : Operation → Prop
  | .store _ _ => False
  | .call callee _ => callee.name ≠ Lowering.sprintf.name
  | _ => True

/-- The operation writes through no address but the own ones. -/
def Heeds (own : Operand → Prop) : Operation → Prop
  | .store _ address => own address
  | .call callee args => callee.name = Lowering.sprintf.name →
      ∃ buffer rest, args = buffer :: rest ∧ own buffer
  | _ => True

/-- The operation makes an address, or goes on from an own one. -/
def Gains (own : Operand → Prop) : Operation → Prop
  | .alloca _ => True
  | .call callee _ => callee = Lowering.malloc
  | .convert how value _ => how = .bitcast ∧ own value
  | .element base _ => own base
  | _ => False

theorem Plain.heeds {op : Operation} (h : op.Plain) : op.Heeds own := by
  cases op with
  | store value address => exact h.elim
  | call callee args => exact fun hname => absurd hname h
  | _ => trivial

end IR.Operation

/-- What the renaming makes of an operand. -/
noncomputable abbrev Renaming.operand (ρ : Renaming) : IR.Operand → IR.Operand :=
  IR.Operand.rename ρ.name

namespace Lowering
open IR

theorem plain_call {callee : Signature} {args : List Operand} (h : callee.name ≠ sprintf.name) :
    (Operation.call callee args).Plain := h

/-- The wanted names of constant texts. -/
def textNames : List String := ["str", "fmt", "concat_fmt"]

/-- The name belongs to a variable outside the modules. -/
def Outside (name : String) : Prop := name.toList.take 5 = ['d', 'u', 'e', 't', '.']

instance (name : String) : Decidable (Outside name) :=
  inferInstanceAs (Decidable (name.toList.take 5 = ['d', 'u', 'e', 't', '.']))

theorem outside_symbol (slot : Slot) : Outside slot.symbol := by
  simp [Outside, Slot.symbol, String.toList_append]

theorem rename_library {ρ : Renaming} {callee : Signature} (h : callee ∈ library) :
    callee.rename ρ.name = callee := by
  have hall : ∀ callee ∈ library,
      callee.name.toList.take 6 ≠ ['d', 'u', 'e', 't', '.', 'v'] ∧
        callee.name.toList.take 6 ≠ ['r', 'e', 'p', 'l', '_', 'e'] := by decide
  rw [Signature.rename, ρ.name_eq (hall callee h).1 (hall callee h).2]

/-- `Keeps w f p q Q`: from the world `w` on `p` keeps to the discipline, and so does `q`, which is `p`
under the renaming, with the result that `f` gives. `Q` tells of the result of `p` and the world after
it. `Own w` are the addresses that the function has made, and all states on the way are such that
`Holds`. A discipline that is no comparison does not look at `q`. -/
structure Discipline (ρ : Renaming) (d : Nat) (W : Type) [Preorder W] where
  Keeps : ∀ {α β : Type}, W → (α → β) → Lower α → Lower β → (α → W → Prop) → Prop
  Own : W → Operand → Prop
  Holds : State → Prop
  own_mono : ∀ {w w' o}, Own w o → w ≤ w' → Own w' o
  imp : ∀ {α β w} {f : α → β} {p q} {Q R : α → W → Prop},
    Keeps w f p q Q → (∀ a w', Q a w' → R a w') → Keeps w f p q R
  pure : ∀ {α β w} {f : α → β} {a b} {Q : α → W → Prop},
    b = f a → (∀ w', w ≤ w' → Q a w') → Keeps w f (pure a) (pure b) Q
  bind : ∀ {α β γ δ w} {f : α → β} {g : γ → δ} {p q} {k : α → Lower γ} {k' : β → Lower δ}
    {Q : α → W → Prop} {R : γ → W → Prop}, Keeps w f p q Q →
    (∀ a w', w ≤ w' → Q a w' → Keeps w' g (k a) (k' (f a)) R) → Keeps w g (p >>= k) (q >>= k') R
  fail : ∀ {α β w} {f : α → β} {Q : α → W → Prop} (cause : Fault),
    Keeps w f (fail cause) (fail cause) Q
  get : ∀ {α β w} {f : α → β} {k : State → Lower α} {k' : State → Lower β} {Q : α → W → Prop},
    (∀ s, Holds s → Keeps w f (k s) (k' (s.rename ρ d)) Q) → Keeps w f (get >>= k) (get >>= k') Q
  emit : ∀ {w op}, op.Heeds (Own w) → ∀ wanted,
    Keeps w ρ.operand (emit op wanted) (emit (op.rename ρ.name) wanted)
      fun o w' => op.Gains (Own w) → Own w' o
  terminate : ∀ {w} t, Keeps w id (terminate t) (terminate (t.rename ρ.name)) fun _ _ => True
  enter : ∀ {w} label, Keeps w id (enter label) (enter label) fun _ _ => True
  addBlock : ∀ {w} wanted, Keeps w id (addBlock wanted) (addBlock wanted) fun _ _ => True
  external : ∀ {w symbol}, Outside symbol → ∀ type,
    Keeps w ρ.operand (external symbol type) (external (ρ.name symbol) type) fun _ _ => True
  textName : ∀ {w wanted}, wanted ∈ textNames → ∀ contents,
    Keeps w ρ.name (textName contents wanted) (textName contents wanted) fun _ _ => True

namespace Discipline
variable {ρ : Renaming} {d : Nat} {W : Type} [Preorder W] {D : Discipline ρ d W} {α β γ δ : Type}
  {w : W} {f : α → β} {g : γ → δ} {p : Lower α} {q : Lower β} {k : α → Lower γ} {k' : β → Lower δ}
  {K : Node → Prop} {o : Operand} {callee : Signature} {C : Signature → Prop} {slot : Slot}
  {symbol : String} {R : γ → W → Prop}

/-- The computations keep to the discipline wherever they start. -/
def Admits (D : Discipline ρ d W) (f : α → β) (p : Lower α) (q : Lower β) : Prop :=
  ∀ w, D.Keeps w f p q fun _ _ => True

/-! ## Rules -/

/-- After a computation that tells nothing of its result. -/
theorem next (hp : D.Keeps w f p q fun _ _ => True)
    (hk : ∀ a w', w ≤ w' → D.Keeps w' g (k a) (k' (f a)) R) : D.Keeps w g (p >>= k) (q >>= k') R :=
  D.bind hp fun a w' hle _ => hk a w' hle

theorem Admits.before (hp : D.Admits f p q)
    (hk : ∀ a w', w ≤ w' → D.Keeps w' g (k a) (k' (f a)) R) : D.Keeps w g (p >>= k) (q >>= k') R :=
  D.next (hp w) hk

theorem Admits.bind (hp : D.Admits f p q) (hk : ∀ a, D.Admits g (k a) (k' (f a))) :
    D.Admits g (p >>= k) (q >>= k') := fun _ => hp.before fun a w' _ => hk a w'

theorem admits_pure {a : α} {b : β} (h : b = f a) : D.Admits f (Pure.pure a) (Pure.pure b) :=
  fun _ => D.pure h fun _ _ => trivial

theorem Admits.map (hp : D.Admits f p q) {k : α → γ} {k' : β → δ} (hk : ∀ a, k' (f a) = g (k a)) :
    D.Admits g (k <$> p) (k' <$> q) := by
  rw [map_eq_pure_bind, map_eq_pure_bind]
  exact hp.bind fun a => admits_pure (hk a)

theorem admits_fail (cause : Fault) : D.Admits f (Lowering.fail cause) (Lowering.fail cause) :=
  fun _ => D.fail cause

theorem admits_mismatch (cause : Mismatch) : D.Admits f (mismatch cause) (mismatch cause) :=
  fun _ => D.fail (.mismatch cause)

/-- Nothing follows a failure. -/
theorem admits_mismatch_bind (cause : Mismatch) {k : PUnit → Lower γ} {k' : PUnit → Lower δ} :
    D.Admits g (mismatch cause >>= k) (mismatch cause >>= k') :=
  fun _ => D.bind (f := id) (D.fail (.mismatch cause)) fun _ _ _ (h : False) => h.elim

/-- What is read of the state may decide what follows. -/
theorem admits_get {k : State → Lower γ} {k' : State → Lower δ}
    (hk : ∀ s, D.Holds s → D.Admits g (k s) (k' (s.rename ρ d))) :
    D.Admits g (MonadState.get >>= k) (MonadState.get >>= k') := fun w => D.get fun s hs => hk s hs w

theorem admits_emit {op : Operation} (h : op.Plain) (wanted : String) :
    D.Admits ρ.operand (Lowering.emit op wanted) (Lowering.emit (op.rename ρ.name) wanted) :=
  fun _ => D.imp (D.emit h.heeds wanted) fun _ _ _ => trivial

theorem keeps_store (h : D.Own w o) (value : Operand) (wanted : String) :
    D.Keeps w ρ.operand (Lowering.emit (.store value o) wanted)
      (Lowering.emit (.store (ρ.operand value) (ρ.operand o)) wanted) fun _ _ => True := by
  have hop : (Operation.store value o).Heeds (D.Own w) := h
  exact D.imp (D.emit hop wanted) fun _ _ _ => trivial

theorem keeps_library (hc : callee ∈ library) {args : List Operand}
    (hop : (Operation.call callee args).Heeds (D.Own w)) (wanted : String) :
    D.Keeps w ρ.operand (Lowering.emit (.call callee args) wanted)
      (Lowering.emit (.call callee (args.map ρ.operand)) wanted)
      fun o w' => callee = malloc → D.Own w' o := by
  have hm := D.emit hop wanted
  rwa [Operation.rename, rename_library hc] at hm

theorem admits_library (hc : callee ∈ library) (hne : callee.name ≠ Lowering.sprintf.name)
    (args : List Operand) (wanted : String) :
    D.Admits ρ.operand (Lowering.emit (.call callee args) wanted)
      (Lowering.emit (.call callee (args.map ρ.operand)) wanted) :=
  fun _ => D.imp (keeps_library hc (plain_call hne).heeds wanted) fun _ _ _ => trivial

theorem keeps_malloc (size : List Operand) (wanted : String) :
    D.Keeps w ρ.operand (Lowering.emit (.call malloc size) wanted)
      (Lowering.emit (.call malloc (size.map ρ.operand)) wanted) fun o w' => D.Own w' o :=
  D.imp (keeps_library (by simp [library]) (plain_call (by decide)).heeds wanted) fun _ _ h => h rfl

theorem keeps_sprintf (h : D.Own w o) (args : List Operand) (wanted : String) :
    D.Keeps w ρ.operand (Lowering.emit (.call sprintf (o :: args)) wanted)
      (Lowering.emit (.call sprintf ((o :: args).map ρ.operand)) wanted) fun _ _ => True :=
  D.imp (keeps_library (by simp [library]) (fun _ => ⟨o, args, rfl, h⟩) wanted) fun _ _ _ => trivial

theorem admits_terminate (t : Terminator) :
    D.Admits id (Lowering.terminate t) (Lowering.terminate (t.rename ρ.name)) :=
  fun _ => D.terminate t

theorem admits_enter (label : String) : D.Admits id (Lowering.enter label) (Lowering.enter label) :=
  fun _ => D.enter label

theorem admits_addBlock (wanted : String) :
    D.Admits id (Lowering.addBlock wanted) (Lowering.addBlock wanted) := fun _ => D.addBlock wanted

theorem admits_currentBlock : D.Admits id currentBlock currentBlock :=
  admits_get fun _ _ => admits_pure rfl

/-- A variable that is shared by all submissions. -/
theorem admits_shared (h : Outside symbol) (hs : ρ.name symbol = symbol) (type : Ty) :
    D.Admits ρ.operand (Lowering.external symbol type) (Lowering.external symbol type) := by
  intro w
  have hm := D.external (w := w) h type
  rwa [hs] at hm

theorem admits_slotAddress (slot : Slot) :
    D.Admits ρ.operand (slotAddress slot) (slotAddress (ρ.slot slot)) := by
  intro w
  rw [slotAddress, slotAddress, ← ρ.name_symbol]
  exact D.external (outside_symbol slot) _

theorem admits_cast (how : Conversion) (value : Operand) (type : Ty) (wanted : String) :
    D.Admits ρ.operand (cast how value type wanted) (cast how (ρ.operand value) type wanted) := by
  unfold Lowering.cast
  rw [Operand.type_rename]
  split
  · exact admits_pure rfl
  · exact admits_emit (by trivial) _

theorem keeps_bitcast (h : D.Own w o) (type : Ty) (wanted : String) :
    D.Keeps w ρ.operand (cast .bitcast o type wanted) (cast .bitcast (ρ.operand o) type wanted)
      fun o' w' => D.Own w' o' := by
  unfold Lowering.cast
  rw [Operand.type_rename]
  split
  · exact D.pure rfl fun _ hle => D.own_mono h hle
  · have hop : (Operation.convert .bitcast o type).Heeds (D.Own w) := by trivial
    exact D.imp (D.emit hop wanted) fun _ _ ho => ho ⟨rfl, h⟩

theorem admits_textConstant (contents : String) {wanted : String} (h : wanted ∈ textNames) :
    D.Admits ρ.operand (textConstant contents wanted) (textConstant contents wanted) :=
  fun _ => D.next (D.textName h contents) fun _ w' _ => admits_cast .bitcast _ .text "" w'

theorem keeps_inBlock {Q : α → W → Prop} (hmono : ∀ a w w', w ≤ w' → Q a w → Q a w')
    (h : ∀ w', w ≤ w' → D.Keeps w' f p q Q) (label : String) :
    D.Keeps w f (inBlock label p) (inBlock label q) Q :=
  admits_currentBlock.before fun _ _ h1 => (admits_enter _).before fun _ _ h2 =>
    D.bind (h _ (h1.trans h2)) fun _ _ _ ha => (admits_enter _).before fun _ _ h3 =>
      D.pure rfl fun _ h4 => hmono _ _ _ (h3.trans h4) ha

theorem Admits.inBlock (h : D.Admits f p q) (label : String) :
    D.Admits f (inBlock label p) (inBlock label q) :=
  fun _ => keeps_inBlock (fun _ _ _ _ h => h) (fun w' _ => h w') label

theorem keeps_entryAlloca (type : Ty) (wanted : String) :
    D.Keeps w ρ.operand (entryAlloca type wanted) (entryAlloca type wanted)
      fun o w' => D.Own w' o := by
  have hcell (w : W) : D.Keeps w ρ.operand (Lowering.emit (.alloca type) wanted)
      (Lowering.emit (.alloca type) wanted) fun o w' => D.Own w' o := by
    have hop : (Operation.alloca type).Heeds (D.Own w) := by trivial
    exact D.imp (D.emit hop wanted) fun _ _ h => h trivial
  refine D.get fun s _ => ?_
  have hblocks : (s.rename ρ d).draft.blocks = s.draft.blocks.map (Block.rename ρ.name) := rfl
  rw [hblocks]
  cases s.draft.blocks with
  | nil => exact hcell w
  | cons first rest =>
    refine keeps_inBlock (fun o w w' hle h => ?_) (fun w' _ => hcell w') _
    exact D.own_mono h hle

/-! ## Values and operators -/

theorem admits_zero (kind : Kind) : D.Admits (Option.map ρ.operand) (zero kind) (zero kind) := by
  cases kind with
  | string | intArray =>
    exact (admits_shared (by decide) (ρ.name_eq (by decide) (by decide)) _).bind fun _ =>
      (admits_cast _ _ _ _).map fun _ => rfl
  | _ => exact admits_pure rfl

theorem admits_toFloat (value : Typed) :
    D.Admits ρ.operand (toFloat value) (toFloat (value.rename ρ)) := by
  obtain ⟨operand, kind⟩ := value
  cases kind with
  | float => exact admits_pure rfl
  | bool => exact admits_cast .uitofp operand .double ""
  | _ => exact admits_cast .sitofp operand .double ""

theorem admits_boolText (operand : Operand) :
    D.Admits ρ.operand (boolText operand) (boolText (ρ.operand operand)) :=
  (admits_textConstant _ (by decide)).bind fun _ =>
    (admits_textConstant _ (by decide)).bind fun _ => admits_emit (by trivial) _

/-- A directive with its argument. -/
noncomputable def renameArgument (ρ : Renaming) (a : String × Operand) : String × Operand :=
  (a.1, ρ.operand a.2)

theorem admits_formatted (value : Option Typed) :
    D.Admits (renameArgument ρ) (formatted value) (formatted (value.map (Typed.rename ρ))) := by
  have hnone : D.Admits (renameArgument ρ) (do return ("%s", ← textConstant "none" "str"))
      (do return ("%s", ← textConstant "none" "str")) :=
    (admits_textConstant _ (by decide)).bind fun _ => admits_pure rfl
  cases value with
  | none => exact hnone
  | some t =>
    obtain ⟨operand, kind⟩ := t
    cases kind with
    | bool => exact (admits_boolText operand).bind fun _ => admits_pure rfl
    | none => exact hnone
    | intArray => exact admits_mismatch _
    | _ => exact admits_pure rfl

theorem admits_textOf (value : Typed) :
    D.Admits ρ.operand (textOf value) (textOf (value.rename ρ)) := by
  obtain ⟨operand, kind⟩ := value
  cases kind with
  | string => exact admits_pure rfl
  | int | float =>
    refine (admits_formatted (some ⟨operand, _⟩)).bind fun a _ => ?_
    refine D.bind (keeps_malloc _ _) fun buffer _ _ hb => ?_
    refine (admits_textConstant a.1 (by decide)).before fun format _ hle => ?_
    exact D.next (keeps_sprintf (D.own_mono hb hle) [format, a.2] _) fun _ w' _ => admits_pure rfl w'
  | _ => exact (admits_formatted (some ⟨operand, _⟩)).bind fun _ => admits_pure rfl

theorem admits_concat (left right : Option Typed) : D.Admits ρ.operand (concat left right)
    (concat (left.map (Typed.rename ρ)) (right.map (Typed.rename ρ))) := by
  refine (admits_formatted left).bind fun l => (admits_formatted right).bind fun r => ?_
  refine (admits_textConstant (l.1 ++ r.1) (by decide)).bind fun format => ?_
  refine (admits_library (by simp [library]) (by decide) [_, _, format, l.2, r.2] _).bind fun _ => ?_
  refine (admits_cast .sext _ .i64 "").bind fun _ => (admits_emit (by trivial) _).bind fun size _ => ?_
  refine D.bind (keeps_malloc [size] _) fun buffer _ _ hb => ?_
  exact D.next (keeps_sprintf hb [format, l.2, r.2] _) fun _ w' _ => admits_pure rfl w'

theorem admits_coerce (value : Option Typed) (target : Kind) :
    D.Admits (Option.map ρ.operand) (coerce value target)
      (coerce (value.map (Typed.rename ρ)) target) := by
  cases value with
  | none => exact admits_zero target
  | some v =>
    obtain ⟨operand, kind⟩ := v
    have htext := admits_textOf (D := D) ⟨operand, kind⟩
    have hfloat := admits_toFloat (D := D) ⟨operand, kind⟩
    simp only [coerce, Option.map_some, Typed.rename]
    split
    · exact admits_pure rfl
    · cases target <;> cases kind <;> first
        | exact admits_pure rfl
        | exact admits_zero _
        | exact htext.map fun _ => rfl
        | exact hfloat.map fun _ => rfl
        | exact (admits_cast _ operand _ "").map fun _ => rfl
        | exact (admits_emit (by trivial) "").map fun _ => rfl

theorem admits_arithmetic (left : Option Typed) (op : ArithOp) (right : Option Typed) :
    D.Admits (Typed.rename ρ) (arithmetic left op right)
      (arithmetic (left.map (Typed.rename ρ)) op (right.map (Typed.rename ρ))) := by
  unfold arithmetic
  rw [kindOf_rename, kindOf_rename]
  cases (kindOf left).arithmetic? op (kindOf right) with
  | none => exact admits_mismatch _
  | some kind =>
    cases kind with
    | string => exact (admits_concat left right).bind fun _ => admits_pure rfl
    | _ =>
      cases left with
      | none => exact admits_mismatch _
      | some l =>
        cases right with
        | none => exact admits_mismatch _
        | some r =>
          first
            | exact (admits_toFloat l).bind fun _ => (admits_toFloat r).bind fun _ =>
                (admits_emit (by trivial) _).bind fun _ => admits_pure rfl
            | exact (admits_emit (by trivial) _).bind fun _ => admits_pure rfl

theorem admits_comparison (left : Option Typed) (op : CompareOp) (right : Option Typed) :
    D.Admits (Typed.rename ρ) (comparison left op right)
      (comparison (left.map (Typed.rename ρ)) op (right.map (Typed.rename ρ))) := by
  unfold comparison
  rw [kindOf_rename, kindOf_rename]
  cases (kindOf left).comparable op (kindOf right) with
  | false => exact admits_mismatch _
  | true =>
    cases left with
    | none => exact admits_mismatch _
    | some l =>
      cases right with
      | none => exact admits_mismatch _
      | some r =>
        have hl := admits_textOf (D := D) l
        have hr := admits_textOf (D := D) r
        simp only [Option.map_some, Typed.rename] at hl hr ⊢
        split
        · split
          · exact (admits_toFloat l).bind fun _ => (admits_toFloat r).bind fun _ =>
              (admits_emit (by trivial) _).bind fun _ => admits_pure rfl
          · exact (admits_emit (by trivial) _).bind fun _ => admits_pure rfl
        · split
          · exact (admits_emit (by trivial) _).bind fun _ => admits_pure rfl
          · exact hl.bind fun a => hr.bind fun b =>
              (admits_library (by simp [library]) (by decide) [a, b] _).bind fun _ =>
              (admits_emit (by trivial) _).bind fun _ => admits_pure rfl

theorem admits_truth (value : Option Typed) :
    D.Admits ρ.operand (truth value) (truth (value.map (Typed.rename ρ))) := by
  cases value with
  | none => exact admits_mismatch _
  | some v =>
    obtain ⟨operand, kind⟩ := v
    cases kind with
    | bool => exact admits_pure rfl
    | int =>
      have hop : (Operation.icmp .ne operand (int32 0)).Plain := by trivial
      exact admits_emit hop "cond"
    | _ => exact admits_mismatch _

theorem admits_randomBetween (drawn : Operand) (low high : Option Typed) :
    D.Admits (Typed.rename ρ) (randomBetween drawn low high)
      (randomBetween (ρ.operand drawn) (low.map (Typed.rename ρ)) (high.map (Typed.rename ρ))) := by
  have hints (a b : Operand) : D.Admits (Typed.rename ρ)
      (randomBetween drawn (some ⟨a, .int⟩) (some ⟨b, .int⟩))
      (randomBetween (ρ.operand drawn) (some ⟨ρ.operand a, .int⟩) (some ⟨ρ.operand b, .int⟩)) :=
    (admits_emit (by trivial) _).bind fun _ => (admits_emit (by trivial) _).bind fun _ =>
      (admits_emit (by trivial) _).bind fun _ => (admits_emit (by trivial) _).bind fun _ =>
      (admits_emit (by trivial) _).bind fun _ => (admits_emit (by trivial) _).bind fun _ =>
      (admits_emit (by trivial) _).bind fun _ => admits_pure rfl
  cases low with
  | none => exact admits_mismatch _
  | some l =>
    obtain ⟨a, kind⟩ := l
    cases high with
    | none => cases kind <;> exact admits_mismatch _
    | some h =>
      obtain ⟨b, kind'⟩ := h
      cases kind <;> cases kind' <;> first | exact hints a b | exact admits_mismatch _

/-! ## Arrays and output -/

theorem keeps_storeElements {buffer : Operand} (h : D.Own w buffer) (i : Nat)
    (elements : List Operand) :
    D.Keeps w id (buildArray.storeElements buffer i elements)
      (buildArray.storeElements (ρ.operand buffer) i (elements.map ρ.operand)) fun _ _ => True := by
  induction elements generalizing i w with
  | nil => exact admits_pure rfl w
  | cons element rest ih =>
    refine D.bind (D.emit (by trivial) _) fun address _ h1 ha => ?_
    exact D.next (keeps_store (ha h) _ _) fun _ _ h2 => ih (D.own_mono h (h1.trans h2)) (i + 1)

theorem admits_buildArray (elements : List Operand) :
    D.Admits (Typed.rename ρ) (buildArray elements) (buildArray (elements.map ρ.operand)) := by
  unfold buildArray
  rw [List.length_map]
  refine fun _ => D.bind (keeps_malloc _ _) fun raw _ _ hraw => ?_
  refine D.bind (keeps_bitcast hraw _ _) fun buffer _ _ hbuffer => ?_
  refine D.next (keeps_store hbuffer _ _) fun _ _ hle => ?_
  exact D.next (keeps_storeElements (D.own_mono hbuffer hle) 1 elements) fun _ w' _ =>
    admits_pure rfl w'

theorem admits_printText (contents : String) :
    D.Admits id (printText contents) (printText contents) :=
  (admits_textConstant _ (by decide)).bind fun plain =>
    (admits_textConstant _ (by decide)).bind fun text =>
    (admits_library (by simp [library]) (by decide) [plain, text] _).bind fun _ => admits_pure rfl

theorem keeps_printElement (buffer i : Operand) {index : Operand} (h : D.Own w index) :
    D.Keeps w id (printElement buffer index i)
      (printElement (ρ.operand buffer) (ρ.operand index) (ρ.operand i)) fun _ _ => True := by
  refine (admits_emit (by trivial) _).before fun first _ h1 => ?_
  refine (admits_textConstant _ (by decide)).before fun nothing _ h2 => ?_
  refine (admits_textConstant _ (by decide)).before fun comma _ h3 => ?_
  refine (admits_emit (by trivial) _).before fun separator _ h4 => ?_
  refine (admits_emit (by trivial) _).before fun place _ h5 => ?_
  refine (admits_emit (by trivial) _).before fun address _ h6 => ?_
  refine (admits_emit (by trivial) _).before fun element _ h7 => ?_
  refine (admits_textConstant _ (by decide)).before fun both _ h8 => ?_
  refine (admits_library (by simp [library]) (by decide) [both, separator, element] _).before
    fun _ _ h9 => ?_
  refine (admits_emit (by trivial) _).before fun next _ h10 => ?_
  have hindex := D.own_mono h (h1.trans (h2.trans (h3.trans (h4.trans (h5.trans (h6.trans
    (h7.trans (h8.trans (h9.trans h10)))))))))
  exact D.next (keeps_store hindex _ _) fun _ w' _ => admits_pure rfl w'

theorem admits_printArray (buffer : Operand) :
    D.Admits id (printArray buffer) (printArray (ρ.operand buffer)) := by
  refine (admits_emit (by trivial) _).bind fun length => (admits_printText _).bind fun _ _ => ?_
  refine D.bind (keeps_entryAlloca _ _) fun index _ _ hindex => ?_
  refine D.next (keeps_store hindex _ _) fun _ _ h1 => ?_
  refine (admits_addBlock _).before fun condition _ h2 => ?_
  refine (admits_addBlock _).before fun body _ h3 => ?_
  refine (admits_addBlock _).before fun done _ h4 => ?_
  refine (admits_terminate _).before fun _ _ h5 => (admits_enter _).before fun _ _ h6 => ?_
  refine (admits_emit (by trivial) _).before fun i _ h7 => ?_
  refine (admits_emit (by trivial) _).before fun more _ h8 => ?_
  refine (admits_terminate (.branch more body done)).before fun _ _ h9 =>
    (admits_enter _).before fun _ _ h10 => ?_
  have hindex' := D.own_mono hindex (h1.trans (h2.trans (h3.trans (h4.trans (h5.trans (h6.trans
    (h7.trans (h8.trans (h9.trans h10)))))))))
  refine D.next (keeps_printElement buffer i hindex') fun _ w' _ => ?_
  exact ((admits_terminate (.jump condition)).bind fun _ => (admits_enter _).bind fun _ =>
    admits_printText _) w'

theorem admits_printValue (value : Option Typed) :
    D.Admits id (printValue value) (printValue (value.map (Typed.rename ρ))) := by
  have hone (value : Option Typed) : D.Admits id
      (do
        let a ← formatted value
        let format ← textConstant (a.1 ++ "\n") "fmt"
        let _ ← Lowering.emit (.call printf [format, a.2]) "")
      (do
        let a ← formatted (value.map (Typed.rename ρ))
        let format ← textConstant (a.1 ++ "\n") "fmt"
        let _ ← Lowering.emit (.call printf [format, a.2]) "") :=
    (admits_formatted value).bind fun a => (admits_textConstant _ (by decide)).bind fun format =>
      (admits_library (by simp [library]) (by decide) [format, a.2] _).bind fun _ => admits_pure rfl
  cases value with
  | none => exact hone none
  | some v =>
    obtain ⟨operand, kind⟩ := v
    cases kind with
    | intArray => exact admits_printArray operand
    | _ => exact hone (some ⟨operand, _⟩)

/-! ## Variables -/

theorem admits_loadName (scope : Scope) (name : String) :
    D.Admits (Typed.rename ρ) (loadName scope name) (loadName (scope.rename ρ) name) := by
  unfold loadName
  rw [Scope.get?_rename]
  cases scope.params.get? name with
  | some operand => exact admits_pure rfl
  | none =>
    refine admits_get fun s _ => ?_
    rw [State.get?_rename]
    cases s.context.get? name with
    | none => exact admits_fail _
    | some symbol =>
      exact (admits_slotAddress symbol.storage).bind fun _ =>
        (admits_emit (by trivial) _).bind fun _ => admits_pure rfl

/-- Code may store to the variable. -/
def Writes (D : Discipline ρ d W) (symbol : String) (type : Ty) : Prop :=
  ∀ w, D.Keeps w ρ.operand (Lowering.external symbol type) (Lowering.external (ρ.name symbol) type)
    fun o w' => ∀ w'', w' ≤ w'' → ∀ value wanted,
      D.Keeps w'' ρ.operand (Lowering.emit (.store value o) wanted)
        (Lowering.emit (.store (ρ.operand value) (ρ.operand o)) wanted) fun _ _ => True

/-- Code may store to the slot. -/
abbrev WritesSlot (D : Discipline ρ d W) (slot : Slot) : Prop :=
  D.Writes slot.symbol (irType slot.kind)

theorem Writes.admits {type : Ty} (h : D.Writes symbol type) (value : Operand) :
    D.Admits id (do
        let address ← Lowering.external symbol type
        let _ ← Lowering.emit (.store value address) "")
      (do
        let address ← Lowering.external (ρ.name symbol) type
        let _ ← Lowering.emit (.store (ρ.operand value) address) "") :=
  fun w => D.bind (h w) fun _ _ _ ha => D.next (ha _ le_rfl value _) fun _ w' _ => admits_pure rfl w'

theorem WritesSlot.admits (h : D.WritesSlot slot) (value : Operand) :
    D.Admits id (do
        let address ← slotAddress slot
        let _ ← Lowering.emit (.store value address) "")
      (do
        let address ← slotAddress (ρ.slot slot)
        let _ ← Lowering.emit (.store (ρ.operand value) address) "") := by
  have hm := Writes.admits h value
  rwa [ρ.name_symbol] at hm

theorem admits_storeSlot (h : D.WritesSlot slot) (value : Typed) :
    D.Admits id (storeSlot slot value) (storeSlot (ρ.slot slot) (value.rename ρ)) := by
  unfold storeSlot
  rw [show (value.rename ρ).kind = value.kind from rfl]
  split
  · exact (admits_library (by simp [library]) (by decide) [value.operand] _).bind h.admits
  · exact Admits.bind (f := ρ.operand) (admits_pure rfl) h.admits

theorem admits_seedSlot (scope : Scope) (h : D.WritesSlot slot) (former : Option (Symbol Slot)) :
    D.Admits id (seedSlot scope slot former)
      (seedSlot (scope.rename ρ) (ρ.slot slot) (former.map (Symbol.rename ρ))) := by
  unfold seedSlot
  rw [show (scope.rename ρ).outermost = scope.outermost from rfl]
  cases scope.outermost with
  | none => exact admits_pure rfl
  | some label =>
    cases former with
    | none => exact admits_pure rfl
    | some symbol =>
      refine Admits.inBlock ?_ label
      refine (admits_slotAddress symbol.storage).bind fun _ => (admits_emit (by trivial) _).bind
        fun old => (admits_coerce (some ⟨old, symbol.kind⟩) slot.kind).bind fun value => ?_
      cases value with
      | none => exact admits_pure rfl
      | some o => exact h.admits o

theorem admits_stepVariable (scope : Scope) {name : String} (op : BinaryOp)
    (h : ∀ s symbol, D.Holds s → s.context.get? name = some symbol → symbol.kind = .int →
      D.WritesSlot symbol.storage) :
    D.Admits (Typed.rename ρ) (stepVariable scope name op) (stepVariable (scope.rename ρ) name op) := by
  unfold stepVariable
  rw [Scope.contains_rename]
  cases scope.params.contains name with
  | true => exact admits_mismatch_bind _
  | false =>
    refine admits_get fun s hs => ?_
    rw [State.get?_rename]
    cases hx : s.context.get? name with
    | none => exact admits_fail _
    | some symbol =>
      simp only [Option.map_some, show (symbol.rename ρ).kind = symbol.kind from rfl]
      split
      · rename_i hint
        have hwrites := h s symbol hs hx hint
        rw [WritesSlot, Writes, ρ.name_symbol] at hwrites
        refine fun w => D.bind (hwrites w) fun address _ _ ha => ?_
        refine (admits_emit (by trivial) _).before fun current _ h1 => ?_
        refine (admits_emit (by trivial) _).before fun updated _ h2 => ?_
        exact D.next (ha _ (h1.trans h2) _ _) fun _ w' _ => admits_pure rfl w'
      · exact admits_mismatch _

theorem admits_storePresence (h : D.Writes resultPresent .i8) (ran : Option Operand) :
    D.Admits id (storePresence ran) (storePresence (ran.map ρ.operand)) := by
  have hstore := h.admits
  rw [ρ.name_eq (by decide) (by decide)] at hstore
  cases ran with
  | none => exact Admits.bind (f := ρ.operand) (admits_pure rfl) hstore
  | some flag =>
    have hloaded : D.Admits ρ.operand (Lowering.emit (.load flag) "ran" >>= (cast .zext · .i8 ""))
        (Lowering.emit (.load (ρ.operand flag)) "ran" >>= (cast .zext · .i8 "")) :=
      (admits_emit (by trivial) _).bind fun loaded => admits_cast .zext loaded .i8 ""
    exact hloaded.bind hstore

/-! ## Branches and loops -/

theorem admits_merge (t e : Option Typed) (thenEnd elseEnd : String) :
    D.Admits (Lowered.rename ρ) (merge t e thenEnd elseEnd)
      (merge (t.map (Typed.rename ρ)) (e.map (Typed.rename ρ)) thenEnd elseEnd) := by
  cases t with
  | none => exact admits_pure rfl
  | some t =>
    cases e with
    | none => exact admits_pure rfl
    | some e =>
      simp only [merge, Option.map_some, show (t.rename ρ).kind = t.kind from rfl,
        show (e.rename ρ).kind = e.kind from rfl]
      split
      · exact (admits_emit (by trivial) _).bind fun _ => admits_pure rfl
      · exact admits_pure rfl

/-- The computation of a tree and the one under the renaming. -/
abbrev AdmitsParts (D : Discipline ρ d W) (part part' : Scope → Lower Lowered) : Prop :=
  ∀ scope : Scope, D.Admits (Lowered.rename ρ) (part scope) (part' (scope.rename ρ))

theorem Admits.lowerBranch (scope : Scope) {condition condition' : Lower Lowered}
    {thenPart thenPart' elsePart elsePart' : Scope → Lower Lowered}
    (hc : D.Admits (Lowered.rename ρ) condition condition') (ht : D.AdmitsParts thenPart thenPart')
    (he : D.AdmitsParts elsePart elsePart') :
    D.Admits (Lowered.rename ρ) (lowerBranch scope condition thenPart elsePart)
      (lowerBranch (scope.rename ρ) condition' thenPart' elsePart') := by
  refine hc.bind fun c => (admits_truth c.value).bind fun holds => ?_
  refine (admits_addBlock _).bind fun thenBlock => (admits_addBlock _).bind fun elseBlock =>
    (admits_addBlock _).bind fun after => admits_currentBlock.bind fun before => ?_
  refine (admits_terminate (.branch holds thenBlock elseBlock)).bind fun _ =>
    (admits_enter _).bind fun _ => (ht (scope.branching before)).bind fun t => ?_
  refine admits_currentBlock.bind fun thenEnd => (admits_terminate (.jump after)).bind fun _ =>
    (admits_enter _).bind fun _ => (he (scope.branching before)).bind fun e => ?_
  exact admits_currentBlock.bind fun elseEnd => (admits_terminate (.jump after)).bind fun _ =>
    (admits_enter _).bind fun _ => admits_merge t.value e.value thenEnd elseEnd

/-- The cells of a loop are the function's own. -/
def OwnCells (D : Discipline ρ d W) (cells : Option LoopCells) (w : W) : Prop :=
  ∀ c, cells = some c → D.Own w c.value ∧ D.Own w c.ran

theorem keeps_keepValue (value : Option Typed) :
    D.Keeps w (Option.map (LoopCells.rename ρ)) (keepValue value)
      (keepValue (value.map (Typed.rename ρ))) D.OwnCells := by
  cases value with
  | none => exact D.pure rfl fun _ _ c hc => nomatch hc
  | some t =>
    refine D.bind (keeps_entryAlloca _ _) fun value _ _ hvalue => ?_
    refine D.bind (keeps_entryAlloca _ _) fun ran _ h2 hran => ?_
    refine D.next (keeps_store (D.own_mono hvalue h2) _ _) fun _ _ h3 => ?_
    refine D.next (keeps_store (D.own_mono hran h3) _ _) fun _ _ h4 =>
      D.pure rfl fun _ h5 c hc => ?_
    cases hc
    exact ⟨D.own_mono hvalue (h2.trans (h3.trans (h4.trans h5))),
      D.own_mono hran (h3.trans (h4.trans h5))⟩

theorem keeps_clearCells (before : String) {cells : LoopCells} (hv : D.Own w cells.value)
    (hr : D.Own w cells.ran) :
    D.Keeps w id (clearCells before cells) (clearCells before (cells.rename ρ)) fun _ _ => True := by
  refine keeps_inBlock (fun _ _ _ _ h => h) (fun _ h1 => ?_) _
  refine (admits_zero _).before fun value _ h2 => ?_
  have hran {w'} (hle : w ≤ w') : D.Keeps w' id
      (do let _ ← Lowering.emit (.store (.int 0 .i1) cells.ran) "")
      (do let _ ← Lowering.emit (.store (.int 0 .i1) (cells.rename ρ).ran) "") fun _ _ => True :=
    D.next (keeps_store (D.own_mono hr hle) _ _) fun _ w' _ => admits_pure rfl w'
  cases value with
  | none => exact hran (h1.trans h2)
  | some z =>
    exact D.next (keeps_store (D.own_mono hv (h1.trans h2)) _ _) fun _ _ h3 =>
      hran (h1.trans (h2.trans h3))

theorem keeps_finishLoop (before after : String) {cells : Option LoopCells}
    (h : D.OwnCells cells w) :
    D.Keeps w (Lowered.rename ρ) (finishLoop before after cells)
      (finishLoop before after (cells.map (LoopCells.rename ρ))) fun _ _ => True := by
  cases cells with
  | none => exact (admits_enter _).before fun _ w' _ => admits_pure rfl w'
  | some c =>
    obtain ⟨hv, hr⟩ := h c rfl
    exact D.next (keeps_clearCells before hv hr) fun _ _ _ => (admits_enter _).before fun _ _ _ =>
      (admits_emit (by trivial) _).before fun _ w' _ => admits_pure rfl w'

theorem loopExit_rename (bodyBlock after : String) (holds : Option Operand) :
    loopExit bodyBlock after (holds.map ρ.operand) =
      (loopExit bodyBlock after holds).rename ρ.name := by
  cases holds <;> rfl

theorem Admits.lowerLoop (scope : Scope) {start start' : Lower Lowered}
    {condition condition' : Scope → Lower (Option Operand)}
    {step step' body body' : Scope → Lower Lowered}
    (hs : D.Admits (Lowered.rename ρ) start start')
    (hc : ∀ scope : Scope, D.Admits (Option.map ρ.operand) (condition scope)
      (condition' (scope.rename ρ)))
    (ht : D.AdmitsParts step step') (hb : D.AdmitsParts body body') :
    D.Admits (Lowered.rename ρ) (lowerLoop scope start condition step body)
      (lowerLoop (scope.rename ρ) start' condition' step' body') := by
  refine hs.bind fun _ => admits_currentBlock.bind fun before => ?_
  refine (admits_addBlock _).bind fun conditionBlock => (admits_addBlock _).bind fun bodyBlock =>
    (admits_addBlock _).bind fun stepBlock => (admits_addBlock _).bind fun after => ?_
  refine (admits_terminate (.jump conditionBlock)).bind fun _ => (admits_enter _).bind fun _ =>
    (hc (scope.branching before)).bind fun holds => ?_
  rw [loopExit_rename]
  refine (admits_terminate (loopExit bodyBlock after holds)).bind fun _ =>
    (admits_enter _).bind fun _ => (hb (scope.branching before)).bind fun b _ => ?_
  refine D.bind (keeps_keepValue b.value) fun cells _ _ hcells => ?_
  refine (admits_terminate (.jump stepBlock)).before fun _ _ h1 => (admits_enter _).before
    fun _ _ h2 => (ht (scope.branching before)).before fun _ _ h3 => ?_
  refine (admits_terminate (.jump conditionBlock)).before fun _ _ h4 => ?_
  have hle := h1.trans (h2.trans (h3.trans h4))
  exact keeps_finishLoop _ _ fun c heq =>
    ⟨D.own_mono (hcells c heq).1 hle, D.own_mono (hcells c heq).2 hle⟩

theorem admits_returnValue (value : Option Typed) (kind : Kind) :
    D.Admits id (returnValue value kind) (returnValue (value.map (Typed.rename ρ)) kind) :=
  (admits_coerce value kind).bind fun o => by
    cases o with
    | none => exact admits_terminate .retVoid
    | some o => exact admits_terminate (.ret o)

theorem admits_returnResult (kind : Kind) (value : Option Operand) :
    D.Admits id (returnResult kind value) (returnResult kind (value.map ρ.operand)) := by
  cases value with
  | none => exact admits_terminate .retVoid
  | some o =>
    simp only [returnResult, Option.map_some]
    split
    · exact (admits_cast _ o _ _).bind fun byte => admits_terminate (.ret byte)
    · exact admits_terminate (.ret o)

/-! ## Trees -/

variable {earlier : Earlier} {nodes : List Node}

/-- Lowering the tree keeps to the discipline in every scope. -/
abbrev Lowers (D : Discipline ρ d W) (earlier : Earlier) (node : Node) : Prop :=
  D.AdmitsParts (lower earlier · node) (lower earlier · node)

theorem admits_lowerAll (h : ∀ node ∈ nodes, D.Lowers earlier node) (scope : Scope)
    (last : Lowered) : D.Admits (Lowered.rename ρ) (lowerAll earlier scope nodes last)
      (lowerAll earlier (scope.rename ρ) nodes (last.rename ρ)) := by
  induction nodes generalizing last with
  | nil => exact admits_pure rfl
  | cons node rest ih =>
    exact (h node (by simp) scope).bind fun r => ih (fun n hn => h n (by simp [hn])) r

theorem admits_lowerElements (h : ∀ node ∈ nodes, D.Lowers earlier node) (scope : Scope) :
    D.Admits (List.map ρ.operand) (lowerElements earlier scope nodes)
      (lowerElements earlier (scope.rename ρ) nodes) := by
  induction nodes with
  | nil => exact admits_pure rfl
  | cons node rest ih =>
    refine (h node (by simp) scope).bind fun r => ?_
    obtain ⟨value, ran⟩ := r
    cases value with
    | none => exact admits_mismatch _
    | some v =>
      obtain ⟨operand, kind⟩ := v
      cases kind with
      | int => exact (ih fun n hn => h n (by simp [hn])).bind fun _ => admits_pure rfl
      | _ => exact admits_mismatch _

theorem admits_lowerArguments (h : ∀ node ∈ nodes, D.Lowers earlier node) (scope : Scope)
    (function : String) (params : List String) :
    D.Admits (List.map ρ.operand) (lowerArguments earlier scope function params nodes)
      (lowerArguments earlier (scope.rename ρ) function params nodes) := by
  induction nodes generalizing params with
  | nil => cases params <;> exact admits_pure rfl
  | cons node rest ih =>
    cases params with
    | nil => exact admits_pure rfl
    | cons param params =>
      refine (h node (by simp) scope).bind fun r => ?_
      obtain ⟨value, ran⟩ := r
      cases value with
      | none => exact admits_mismatch _
      | some v =>
        simp only [Lowered.rename, Option.map_some, show (v.rename ρ).kind = v.kind from rfl]
        split
        · exact (admits_toFloat v).bind fun _ =>
            (ih (fun n hn => h n (by simp [hn])) params).bind fun _ => admits_pure rfl
        · exact admits_mismatch _

/-- What a discipline says of the trees `K`: where they bind names, and what they call. Such calls
go to functions of which `C` holds. -/
structure Trees (D : Discipline ρ d W) (earlier : Earlier) (K : Node → Prop)
    (C : Signature → Prop) : Prop where
  child : ∀ {node child : Node}, K node → child ∈ node.children → K child
  body : ∀ {s name definition}, D.Holds s → s.context.getFunction? name = some definition →
    K definition.body
  callee : ∀ {s name callee}, D.Holds s → s.functions.get? name = some callee → C callee
  function : ∀ {name definition}, K definition.body → ∀ w,
    D.Keeps w (Signature.rename ρ.name) (earlier name definition) (earlier name definition)
      fun callee _ => C callee
  call : ∀ {callee}, C callee → ∀ args wanted,
    D.Admits ρ.operand (Lowering.emit (.call callee args) wanted)
      (Lowering.emit (.call (callee.rename ρ.name) (args.map ρ.operand)) wanted)
  assign : ∀ {name e}, K (.assign name e) → ∀ scope value, D.Admits (Typed.rename ρ)
    (assign scope name value) (assign (scope.rename ρ) name (value.map (Typed.rename ρ)))
  step : ∀ {name node s symbol}, K node → node = .increment name ∨ node = .decrement name →
    D.Holds s → s.context.get? name = some symbol → symbol.kind = .int → D.WritesSlot symbol.storage
  define : ∀ {name params body}, K (.define name params body) → D.Lowers earlier body →
    D.Lowers earlier (.define name params body)

theorem Trees.lowerCall (hD : D.Trees earlier K C) (h : ∀ node ∈ nodes, D.Lowers earlier node)
    (name : String) : D.Lowers earlier (.call name nodes) := by
  refine fun scope => admits_get fun s hs => ?_
  rw [show (s.rename ρ d).context.getFunction? name = s.context.getFunction? name from rfl]
  cases hf : s.context.getFunction? name with
  | none => exact admits_fail _
  | some definition =>
    dsimp only
    split
    · refine (admits_lowerArguments h scope name definition.params).bind fun os => ?_
      have hcall {callee : Signature} (hc : C callee) : D.Admits (Lowered.rename ρ)
          (do return { value := ← callFunction callee definition.returns os })
          (do
            let value ← callFunction (callee.rename ρ.name) definition.returns (os.map ρ.operand)
            return { value }) := by
        refine Admits.bind (f := Option.map (Typed.rename ρ)) ?_ fun _ => admits_pure rfl
        unfold callFunction
        split
        · exact (hD.call hc _ _).bind fun _ => admits_pure rfl
        · exact (hD.call hc _ _).bind fun _ => admits_pure rfl
      refine admits_get fun t ht => ?_
      rw [State.functions_rename]
      cases hcallee : t.functions.get? name with
      | some callee => exact hcall (hD.callee ht hcallee)
      | none =>
        exact fun w => D.bind (hD.function (hD.body hs hf) w) fun _ w' _ hc => hcall hc w'
    · exact admits_mismatch _

theorem Trees.lower (hD : D.Trees earlier K C) (node : Node) (hn : K node) :
    D.Lowers earlier node := by
  induction node using Node.induction with
  | h node ih =>
  have part (child : Node) (hc : child ∈ node.children) : D.Lowers earlier child :=
    ih child hc (hD.child hn hc)
  have ifPresent (child : Node) (hc : child ∈ node.children) (scope : Scope) :
      D.Admits (Lowered.rename ρ)
        (if child.isMissing then Pure.pure {} else Lowering.lower earlier scope child)
        (if child.isMissing then Pure.pure {} else
          Lowering.lower earlier (scope.rename ρ) child) := by
    split
    · exact admits_pure rfl
    · exact part child hc scope
  intro scope
  cases node with
  | sequence statements => exact admits_lowerAll part scope {}
  | number n | float x | boolean b => exact admits_pure rfl
  | string t => exact (admits_textConstant t (by decide)).bind fun _ => admits_pure rfl
  | identifier name => exact (admits_loadName scope name).bind fun _ => admits_pure rfl
  | binary left op right =>
    cases op with
    | other symbol => exact admits_fail _
    | _ =>
      exact (part left (by simp [Node.children]) scope).bind fun l =>
        (part right (by simp [Node.children]) scope).bind fun r =>
        (admits_arithmetic l.value _ r.value).bind fun _ => admits_pure rfl
  | comparison left op right =>
    cases op with
    | other symbol => exact admits_fail _
    | _ =>
      exact (part left (by simp [Node.children]) scope).bind fun l =>
        (part right (by simp [Node.children]) scope).bind fun r =>
        (admits_comparison l.value _ r.value).bind fun _ => admits_pure rfl
  | assign name expression =>
    simp only [Lowering.lower, Scope.contains_rename]
    split
    · exact admits_mismatch_bind _
    · exact (part expression (by simp [Node.children]) scope).bind fun e =>
        (hD.assign hn scope e.value).bind fun _ => admits_pure rfl
  | increment name =>
    exact (admits_stepVariable scope .add fun _ _ hs => hD.step hn (.inl rfl) hs).bind
      fun _ => admits_pure rfl
  | decrement name =>
    exact (admits_stepVariable scope .sub fun _ _ hs => hD.step hn (.inr rfl) hs).bind
      fun _ => admits_pure rfl
  | branch condition thenPart elsePart =>
    exact Admits.lowerBranch scope (part condition (by simp [Node.children]) scope)
      (part thenPart (by simp [Node.children])) (ifPresent elsePart (by simp [Node.children]))
  | loop start condition step body =>
    refine Admits.lowerLoop scope (ifPresent start (by simp [Node.children]) scope)
      (fun inner => ?_) (ifPresent step (by simp [Node.children]))
      (part body (by simp [Node.children]))
    split
    · exact admits_pure rfl
    · exact (part condition (by simp [Node.children]) inner).bind fun c =>
        (admits_truth c.value).bind fun _ => admits_pure rfl
  | print expression =>
    exact (part expression (by simp [Node.children]) scope).bind fun e =>
      (admits_printValue e.value).bind fun _ => admits_pure rfl
  | random low high =>
    refine (admits_library (by simp [library]) (by decide) [] _).bind fun drawn => ?_
    split
    · exact admits_pure rfl
    · exact (part low (by simp [Node.children]) scope).bind fun l =>
        (part high (by simp [Node.children]) scope).bind fun h =>
        (admits_randomBetween drawn l.value h.value).bind fun _ => admits_pure rfl
  | define name params body => exact hD.define hn (part body (by simp [Node.children])) scope
  | call name args => exact hD.lowerCall part name scope
  | array elements =>
    exact (admits_lowerElements part scope).bind fun operands =>
      (admits_buildArray operands).bind fun _ => admits_pure rfl
  | missing | bare => exact admits_fail _

end Discipline
end Lowering
end DualEngine
