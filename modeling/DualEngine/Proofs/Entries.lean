import DualEngine.Proofs.Changes

/-! # The entry function of a submission

Lowering a submission declares the library and the entry function, lowers the tree, and then
returns what the tree gave as the predicted kind.
-/
namespace DualEngine.Lowering
open IR

def entrySignature (entry : String) (kind : Kind) : Signature := ⟨entry, entryType kind, [], false⟩

/-- The entry function before the tree is lowered. -/
def entryDraft : Draft :=
  let (first, names) := (openNames []).2.register "entry"
  { names, blocks := [{ label := first }], current := first }

namespace State

/-- With a function declared that the module does not define. -/
def declaring (s : State) (signature : Signature) : State :=
  { s with
    globals := s.globals ++ [.function { signature, params := (openNames signature.params).1 }]
    globalNames := (s.globalNames.register signature.name).2 }

/-- With the library and the entry function declared, at the start of the entry function. -/
def begun (s : State) (entry : String) (kind : Kind) : State :=
  { (library ++ [entrySignature entry kind]).foldl declaring s with draft := entryDraft }

theorem context_foldl_declaring (signatures : List Signature) (s : State) :
    (signatures.foldl declaring s).context = s.context ∧
      (signatures.foldl declaring s).created = s.created ∧
      (signatures.foldl declaring s).nextSlot = s.nextSlot ∧
      (signatures.foldl declaring s).functions = s.functions := by
  induction signatures generalizing s with
  | nil => exact ⟨rfl, rfl, rfl, rfl⟩
  | cons signature rest ih => exact ih (s.declaring signature)

@[simp] theorem context_begun (s : State) (entry : String) (kind : Kind) :
    (s.begun entry kind).context = s.context := (context_foldl_declaring _ s).1

@[simp] theorem created_begun (s : State) (entry : String) (kind : Kind) :
    (s.begun entry kind).created = s.created := (context_foldl_declaring _ s).2.1

@[simp] theorem nextSlot_begun (s : State) (entry : String) (kind : Kind) :
    (s.begun entry kind).nextSlot = s.nextSlot := (context_foldl_declaring _ s).2.2.1

@[simp] theorem functions_begun (s : State) (entry : String) (kind : Kind) :
    (s.begun entry kind).functions = s.functions := (context_foldl_declaring _ s).2.2.2

end State

/-- What happens after the tree is lowered. -/
def closeEntry (entry : String) (kind : Kind) (result : Lowered) : Lower Unit := do
  let value ← coerce result.value kind
  storePresence result.ran
  returnResult kind value
  defineFunction entry [] (← get).draft.blocks

theorem declare_run (signature : Signature) (s : State) :
    declare signature s = .ok ⟨⟩ (s.declaring signature) := rfl

theorem forM_declare (signatures : List Signature) (s : State) :
    signatures.forM declare s = .ok ⟨⟩ (signatures.foldl State.declaring s) := by
  induction signatures generalizing s with
  | nil => rfl
  | cons signature rest ih =>
    exact (bind_ok (declare_run signature s)).trans (ih (s.declaring signature))

theorem lowerEntry_run (entry : String) (kind : Kind) (node : Node) (s : State) :
    lowerEntry entry kind node s =
      (lower (emitEarlier s.context.functions.entries.length) {} node >>= closeEntry entry kind)
        (s.begun entry kind) := by
  have hbegun : s.begun entry kind =
      { (library.foldl State.declaring s).declaring (entrySignature entry kind) with
        draft := entryDraft } := by
    rw [State.begun, List.foldl_append]
    rfl
  have hcontext : ((library.foldl State.declaring s).declaring
      (entrySignature entry kind)).context = s.context := (State.context_foldl_declaring library s).1
  unfold lowerEntry
  rw [bind_ok (forM_declare library s), bind_ok (declare_run _ _)]
  dsimp only
  rw [bind_ok (modify_run _ _), bind_ok (get_run _), ← entrySignature, hbegun]
  simp only [hcontext]
  rfl

section
variable {c : Context Slot} {number nextSlot next : Nat} {node : Node}

theorem lowerSubmission_ok {s : State}
    (h : lowerEntry (entryName number) (Prediction.predictResult c node) node
      { context := c, nextSlot } = .ok ⟨⟩ s) :
    lowerSubmission c number nextSlot node =
      (.ok ⟨⟨s.globals⟩, entryName number, Prediction.predictResult c node, s.context, s.created⟩,
        s.nextSlot) := by
  rw [entryName] at h ⊢
  simp only [lowerSubmission, h]

theorem lowerSubmission_error {s : State} {cause : Fault}
    (h : lowerEntry (entryName number) (Prediction.predictResult c node) node
      { context := c, nextSlot } = .error cause s) :
    lowerSubmission c number nextSlot node = (.error cause, s.nextSlot) := by
  rw [entryName] at h
  simp only [lowerSubmission, h]

/-- The steps that gave an artifact. -/
theorem lowerSubmission_inv {a : Artifact}
    (h : lowerSubmission c number nextSlot node = (.ok a, next)) :
    ∃ r s1 s2, lower (emitEarlier c.functions.entries.length) {} node
        (State.begun { context := c, nextSlot } (entryName number)
          (Prediction.predictResult c node)) = .ok r s1 ∧
      closeEntry (entryName number) (Prediction.predictResult c node) r s1 = .ok ⟨⟩ s2 ∧
      a = ⟨⟨s2.globals⟩, entryName number, Prediction.predictResult c node, s2.context,
        s2.created⟩ ∧
      next = s2.nextSlot := by
  cases hrun : lowerEntry (entryName number) (Prediction.predictResult c node) node
      { context := c, nextSlot } with
  | ok u s2 =>
    rw [lowerSubmission_ok hrun] at h
    rw [lowerEntry_run] at hrun
    obtain ⟨r, s1, h1, h2⟩ := bind_eq_ok.mp hrun
    cases h
    exact ⟨r, s1, s2, h1, h2, rfl, rfl⟩
  | error cause s =>
    rw [lowerSubmission_error hrun] at h
    cases h

end

/-! ## The end of the entry function -/

theorem closeEntry_inv {entry : String} {kind : Kind} {r : Lowered} {s s' : State}
    (h : closeEntry entry kind r s = .ok ⟨⟩ s') :
    ∃ o s1 s2 s3, coerce r.value kind s = .ok o s1 ∧ storePresence r.ran s1 = .ok ⟨⟩ s2 ∧
      returnResult kind o s2 = .ok ⟨⟩ s3 ∧ s' = s3.closed entry [] s3.draft.blocks := by
  obtain ⟨o, s1, h1, h⟩ := bind_eq_ok.mp h
  obtain ⟨⟨⟩, s2, h2, h⟩ := bind_eq_ok.mp h
  obtain ⟨⟨⟩, s3, h3, h⟩ := bind_eq_ok.mp h
  rw [bind_ok (get_run s3)] at h
  cases h
  exact ⟨o, s1, s2, s3, h1, h2, h3, rfl⟩

variable {g : Grant}

theorem makes_storePresence (ran : Option Operand) : Makes g (storePresence ran) :=
  makes_of_admits (Discipline.admits_storePresence (changing_writes (by decide) _) ran)

theorem makes_defineFunction {name : String} (params : List String) (blocks : List Block)
    (hn : name ∉ library.map Signature.name) : Makes g (defineFunction name params blocks) :=
  fun s _ => .single (.blocks s params blocks hn)

theorem makes_closeEntry (number : Nat) (kind : Kind) (r : Lowered) :
    Makes g (closeEntry (entryName number) kind r) :=
  (makes_of_admits (Discipline.admits_coerce _ _)).bind fun _ => (makes_storePresence _).bind fun _ =>
    (makes_of_admits (Discipline.admits_returnResult _ _)).bind fun _ => makes_get fun _ =>
      makes_defineFunction _ _ (not_library (.inr (entryName_head number)))

end DualEngine.Lowering
