import DualEngine.Proofs.Disciplines
import DualEngine.Proofs.Slots

/-! # What lowering changes beside the function under construction

Every change that lowering makes to the module and to the context is one of a few. `Changes`
collects them along a run; a `Grant` says which names and functions may be bound on the way. For
trees without assignments and definitions nothing needs to be granted.
-/
namespace DualEngine

/-- No tree of these shapes stands in the body of a recorded function. -/
def Context.FunctionsAvoid {σ : Type} (shapes : List String) (c : Context σ) : Prop :=
  ∀ name d, c.getFunction? name = some d → d.body.Avoids shapes

namespace Lowering
open IR

variable {name symbol : String}

/-- The forms of trees that bind a name. -/
def bindingForms : List String := ["Assign", "FunctionDef"]

theorem avoids_bindingForms {node : Node} (h : node.isExpression = true) :
    node.Avoids bindingForms :=
  Node.avoids_of_isExpression h fun t ht => by
    cases t <;> simp [bindingForms, Node.shape] at ht <;> rfl

/-- The names and the functions that may be bound. -/
structure Grant where
  names : Set String
  functions : Set String

namespace Grant

def nothing : Grant := ⟨∅, ∅⟩

/-- Whatever the tree binds may be bound. -/
structure Covers (g : Grant) (node : Node) : Prop where
  names : ∀ x ∈ node.assigned, x ∈ g.names
  functions : ∀ f ∈ node.defined, f ∈ g.functions

/-- Whatever the recorded functions bind may be bound. -/
def CoversAll (g : Grant) (c : Context Slot) : Prop :=
  ∀ name d, c.getFunction? name = some d → g.Covers d.body

variable {g : Grant}

theorem Covers.child {node child : Node} (h : g.Covers node) (hc : child ∈ node.children) :
    g.Covers child :=
  ⟨fun x hx => h.names x (Node.assigned_subset hc hx),
    fun f hf => h.functions f (Node.defined_subset hc hf)⟩

theorem covers_of_avoids {node : Node} (h : node.Avoids bindingForms) : g.Covers node := by
  constructor
  · rw [h.assigned_eq_nil (by decide)]
    simp
  · rw [h.defined_eq_nil (by decide)]
    simp

theorem coversAll_of_avoids {c : Context Slot} (h : c.FunctionsAvoid bindingForms) :
    g.CoversAll c := fun name d hd => covers_of_avoids (h name d hd)

end Grant

/-- One change, whatever happens to the function under construction. -/
inductive Change (g : Grant) : State → State → Prop
  | draft (s : State) (draft : Draft) : Change g s { s with draft }
  | external (s : State) {symbol : String} (type : Ty) (ho : Outside symbol)
      (hn : ∀ t, Global.external symbol t ∉ s.globals) :
      Change g s { s with globals := s.globals ++ [.external symbol type] }
  | text (s : State) (contents : String) {wanted : String} (h : wanted ∈ textNames) :
      Change g s { s with
        globals := s.globals ++ [.text (s.globalNames.register wanted).1 contents]
        globalNames := (s.globalNames.register wanted).2 }
  | function (s : State) (name : String) (d : Definition) : Change g s (s.declared name d)
  | blocks (s : State) {name : String} (params : List String) (blocks : List Block)
      (hn : name ∉ library.map Signature.name) : Change g s (s.closed name params blocks)
  | slot (s : State) (name : String) {kind : Kind} (hk : kind ≠ .none) (h : name ∈ g.names) :
      Change g s (s.withSlot ⟨name, s.nextSlot, kind⟩)
  | bind (s : State) {slot : Slot} (hs : slot ∈ s.created) (h : slot.name ∈ g.names) :
      Change g s (s.binding slot.name slot slot.kind)
  | define (s : State) (name : String) {d : Definition} (h : name ∈ g.functions)
      (hd : g.Covers d.body) : Change g s { s with context := s.context.addFunction name d }

abbrev Changes (g : Grant) : State → State → Prop := Relation.ReflTransGen (Change g)

/-- The computation only makes such changes, also where it fails. -/
def Makes (g : Grant) {α : Type} (m : Lower α) : Prop :=
  ∀ s, g.CoversAll s.context → Changes g s (final (m s))

variable {g : Grant} {α β : Type} {s s' : State}

/-- What no change touches if nothing may be bound. -/
structure Steady (s s' : State) : Prop where
  context : s'.context = s.context
  created : s'.created = s.created
  nextSlot : s'.nextSlot = s.nextSlot

theorem Change.steady (h : Change .nothing s s') : Steady s s' := by
  cases h <;> first | exact ⟨rfl, rfl, rfl⟩ | exact absurd ‹_› (Set.notMem_empty _)

theorem Changes.steady (h : Changes .nothing s s') : Steady s s' := by
  induction h with
  | refl => exact ⟨rfl, rfl, rfl⟩
  | tail _ hc ih =>
    have := hc.steady
    exact ⟨this.context.trans ih.context, this.created.trans ih.created,
      this.nextSlot.trans ih.nextSlot⟩

/-- A slot that was made stays made. -/
theorem Changes.created_subset (h : Changes g s s') : s.created ⊆ s'.created := by
  induction h with
  | refl => exact fun _ h => h
  | tail _ hc ih =>
    refine fun slot hs => ?_
    cases hc with
    | slot => exact List.mem_append_left _ (ih hs)
    | _ => exact ih hs

theorem Change.coversAll (hc : g.CoversAll s.context) (h : Change g s s') :
    g.CoversAll s'.context := by
  cases h with
  | define name hf hd =>
    intro f e he
    simp only [Context.getFunction?, Context.addFunction, Table.get?_insert] at he
    split at he
    · cases he
      exact hd
    · exact hc f e he
  | _ => exact hc

theorem Grant.CoversAll.changes (hc : g.CoversAll s.context) (h : Changes g s s') :
    g.CoversAll s'.context := by
  induction h with
  | refl => exact hc
  | tail _ h ih => exact h.coversAll ih

theorem Makes.ok {m : Lower α} {a : α} (hm : Makes g m) (hc : g.CoversAll s.context)
    (h : m s = .ok a s') : Changes g s s' := by
  have := hm s hc
  rwa [h] at this

theorem makes_pure (a : α) : Makes g (pure a) := fun _ _ => .refl

theorem Makes.bind_of {m : Lower α} {f : α → Lower β} (hm : Makes g m)
    (hf : ∀ s a s', g.CoversAll s.context → m s = .ok a s' → Makes g (f a)) :
    Makes g (m >>= f) := by
  intro s hc
  have hs := hm s hc
  cases hm' : m s with
  | ok a s1 =>
    rw [hm'] at hs
    rw [bind_ok hm']
    exact hs.trans (hf s a s1 hc hm' s1 (hc.changes hs))
  | error e s1 =>
    rw [hm'] at hs
    rwa [bind_error hm']

theorem Makes.bind {m : Lower α} {f : α → Lower β} (hm : Makes g m)
    (hf : ∀ a, Makes g (f a)) : Makes g (m >>= f) := hm.bind_of fun _ a _ _ _ => hf a

theorem makes_fail (cause : Fault) : Makes g (fail cause : Lower α) := fun _ _ => .refl

theorem makes_mismatch (cause : Mismatch) : Makes g (mismatch cause : Lower α) := fun _ _ => .refl

theorem makes_mismatch_bind (cause : Mismatch) (f : α → Lower β) :
    Makes g ((mismatch cause : Lower α) >>= f) := fun _ _ => .refl

/-- What is read of the state may decide what follows. -/
theorem makes_get {f : State → Lower α} (hf : ∀ t, Makes g (f t)) :
    Makes g (get >>= f) := fun s hc => hf s s hc

/-! ## Primitive steps -/

theorem makes_freshName (wanted : String) : Makes g (freshName wanted) :=
  fun s _ => .single (.draft s _)

theorem makes_updateCurrent (f : Block → Block) : Makes g (updateCurrent f) :=
  fun s _ => .single (.draft s _)

theorem makes_emit (op : Operation) (wanted : String) : Makes g (emit op wanted) := by
  unfold emit
  cases op.misfit? with
  | some cause => exact (makes_fail _).bind fun _ => (makes_freshName _).bind fun _ =>
      (makes_updateCurrent _).bind fun _ => makes_pure _
  | none => exact (makes_freshName _).bind fun _ => (makes_updateCurrent _).bind fun _ =>
      makes_pure _

theorem makes_terminate (t : Terminator) : Makes g (terminate t) :=
  (makes_freshName _).bind fun _ => makes_updateCurrent _

theorem makes_enter (label : String) : Makes g (enter label) :=
  fun s _ => .single (.draft s _)

theorem makes_addBlock (wanted : String) : Makes g (addBlock wanted) :=
  fun s _ => .single (.draft s _)

theorem makes_external (type : Ty) (ho : Outside symbol) : Makes g (external symbol type) := by
  intro s _
  unfold external
  rw [bind_ok (get_run s)]
  dsimp only
  split
  · rename_i hknown
    refine .single (.external s type ho fun t ht => ?_)
    simp only [Bool.not_eq_eq_eq_not, Bool.not_true, List.any_eq_false] at hknown
    exact hknown _ ht (beq_self_eq_true symbol)
  · exact .refl

theorem makes_textName (contents : String) {wanted : String} (hw : wanted ∈ textNames) :
    Makes g (textName contents wanted) := by
  intro s _
  rcases textName_run s contents wanted with ⟨name, hrun, -⟩ | hrun
  · rw [hrun]
    exact .refl
  · rw [hrun]
    exact .single (.text s contents hw)

theorem Makes.told {m : Lower α} (h : Makes g m) :
    Makes g m ∧ ∀ s a s', g.CoversAll s.context → m s = .ok a s' → True :=
  ⟨h, fun _ _ _ _ _ => trivial⟩

/-- The discipline of such changes. It does not matter where code stores. -/
def changing (g : Grant) : Discipline .refl 0 Unit where
  Keeps _ _ m _ Q := Makes g m ∧
    ∀ (s : State) a s', g.CoversAll s.context → m s = .ok a s' → Q a ()
  Own _ _ := True
  Holds s := g.CoversAll s.context
  own_mono _ _ := trivial
  imp h hq := ⟨h.1, fun s a s' hc hrun => hq a () (h.2 s a s' hc hrun)⟩
  pure _ h := ⟨makes_pure _, by
    rintro _ _ _ _ ⟨⟩
    exact h () le_rfl⟩
  bind hm hf := by
    refine ⟨hm.1.bind_of fun s a s' hc h => (hf a () le_rfl (hm.2 s a s' hc h)).1, ?_⟩
    intro s b s'' hc h
    obtain ⟨a, s', h1, h2⟩ := bind_eq_ok.mp h
    exact (hf a () le_rfl (hm.2 s a s' hc h1)).2 s' b s'' (hc.changes (hm.1.ok hc h1)) h2
  fail cause := ⟨makes_fail cause, by rintro _ _ _ _ ⟨⟩⟩
  get hf := ⟨fun s hc => (hf s hc).1 s hc, fun s a s' hc h => (hf s hc).2 s a s' hc h⟩
  emit _ wanted := ⟨makes_emit _ wanted, fun _ _ _ _ _ _ => trivial⟩
  terminate t := (makes_terminate t).told
  enter label := (makes_enter label).told
  addBlock wanted := (makes_addBlock wanted).told
  external h type := (makes_external type h).told
  textName h contents := (makes_textName contents h).told

variable {f : α → β} {m : Lower α} {copy : Lower β}

theorem Makes.admits (h : Makes g m) : (changing g).Admits f m copy := fun _ => h.told

theorem makes_of_keeps {Q : α → Unit → Prop} (h : (changing g).Keeps () f m copy Q) :
    Makes g m := h.1

theorem makes_of_admits (h : (changing g).Admits f m copy) : Makes g m := makes_of_keeps (h ())

open Discipline

/-! ## Variables -/

theorem changing_writes (h : Outside symbol) (type : Ty) : (changing g).Writes symbol type :=
  fun _ => ⟨makes_external type h, fun _ _ _ _ _ _ _ _ _ => (makes_emit _ _).told⟩

theorem makes_storeSlot (slot : Slot) (value : Typed) : Makes g (storeSlot slot value) :=
  makes_of_admits (admits_storeSlot (changing_writes (outside_symbol slot) _) value)

theorem makes_seedSlot (scope : Scope) (slot : Slot) (former : Option (Symbol Slot)) :
    Makes g (seedSlot scope slot former) :=
  makes_of_admits (admits_seedSlot scope (changing_writes (outside_symbol slot) _) former)

theorem makes_slotFor (scope : Scope) {kind : Kind} (hk : kind ≠ .none) (hn : name ∈ g.names) :
    Makes g (slotFor scope name kind) := by
  intro s hc
  unfold slotFor
  rw [bind_ok (get_run s)]
  cases (s.context.get? name).filter (·.kind = kind) with
  | some symbol => exact .refl
  | none =>
    dsimp only
    rw [bind_ok (newSlot_run name kind s)]
    have c₁ : Change g s (s.withSlot ⟨name, s.nextSlot, kind⟩) := .slot s name hk hn
    have c₂ := makes_seedSlot scope ⟨name, s.nextSlot, kind⟩ (s.context.get? name) _
      (c₁.coversAll hc)
    cases hseed : seedSlot scope ⟨name, s.nextSlot, kind⟩ (s.context.get? name)
        (s.withSlot ⟨name, s.nextSlot, kind⟩) with
    | error e s1 =>
      rw [hseed] at c₂
      rw [bind_error hseed]
      exact .head c₁ c₂
    | ok _ s1 =>
      rw [hseed] at c₂
      rw [bind_ok hseed]
      have hslot : (⟨name, s.nextSlot, kind⟩ : Slot) ∈ s1.created :=
        c₂.created_subset (List.mem_append_right _ (List.mem_singleton_self _))
      exact .head c₁ (.tail c₂ (.bind s1 hslot hn))

theorem makes_assign (scope : Scope) (hn : name ∈ g.names) (value : Option Typed) :
    Makes g (assign scope name value) := by
  cases value with
  | none => exact makes_mismatch _
  | some t =>
    dsimp only [assign]
    split
    · exact makes_mismatch_bind _ _
    · rename_i hk
      exact (makes_slotFor scope hk hn).bind fun _ => (makes_storeSlot _ _).bind fun _ =>
        makes_pure _

/-! ## Functions -/

theorem functionName_head (s : State) (name : String) :
    (s.functionName name).toList.head? = some 'f' := by
  rcases s.globalNames.register_form ("fn_" ++ name) with h | ⟨n, h⟩
  · simp [State.functionName, h, String.toList_append]
  · simp [State.functionName, h, Names.numbered, String.toList_append]

/-- No name of the library starts with these letters. -/
theorem not_library (h : name.toList.head? = some 'f' ∨ name.toList.head? = some 'r') :
    name ∉ library.map Signature.name := by
  intro hm
  have hall : ∀ n ∈ library.map Signature.name,
      n.toList.head? ≠ some 'f' ∧ n.toList.head? ≠ some 'r' := by decide
  have := hall name hm
  exact h.elim this.1 this.2

theorem Makes.emitFunction {d : Definition} {lowerBody : Scope → Lower Lowered}
    (hb : ∀ inner, Makes g (lowerBody inner)) : Makes g (emitFunction name d lowerBody) := by
  intro s hc
  have c₁ : Changes g s { s.declared name d with draft := Definition.draft d } :=
    .tail (.single (.function s name d)) (.draft _ _)
  refine c₁.trans ?_
  rw [emitFunction_run]
  refine Makes.bind (hb _) (fun r => (makes_of_admits (admits_returnValue _ _)).bind fun _ => makes_get fun t => ?_) _
    (hc.changes c₁)
  intro s1 _
  exact .tail (.single (.blocks s1 _ _ (not_library (.inl (functionName_head s name)))))
    (.draft _ _)

/-! ## Trees -/

variable {earlier : Earlier}

/-- The functions of earlier submissions are lowered with such changes. -/
def Earlier.Makes (g : Grant) (earlier : Earlier) : Prop :=
  ∀ name d, g.Covers d.body → Lowering.Makes g (earlier name d)

theorem makes_lower (he : earlier.Makes g) (node : Node) (hn : g.Covers node) (scope : Scope) :
    Makes g (lower earlier scope node) := by
  have htrees : (changing g).Trees earlier g.Covers fun _ => True := by
    refine ⟨fun hn hc => hn.child hc, fun {_ name d} hs hd => hs name d hd, fun _ _ => trivial,
      fun hd _ => (he _ _ hd).told, fun _ _ _ => (makes_emit _ _).admits, ?_,
      fun _ _ _ _ _ => changing_writes (outside_symbol _) _, ?_⟩
    · exact fun hn scope value =>
        (makes_assign scope (hn.names _ (Node.mem_assigned_self _ _)) value).admits
    · refine fun {name params body} hn part scope => Makes.admits fun s hc => ?_
      have hbody : g.Covers body := hn.child (by simp [Node.children])
      have c₁ : Change g s
          { s with context := s.context.addFunction name (s.definition name params body) } :=
        .define s name (hn.functions _ (Node.mem_defined_self _ _ _)) hbody
      have hdefine : Makes g (emitFunction name (s.definition name params body)
          (fun inner => lower earlier inner body) >>= fun _ => pure ({} : Lowered)) :=
        (Makes.emitFunction fun inner => makes_of_admits (part inner)).bind fun _ => makes_pure _
      exact .head c₁ (hdefine _ (c₁.coversAll hc))
  exact makes_of_admits (htrees.lower node hn scope)

theorem makes_emitEarlier (g : Grant) (depth : Nat) : (emitEarlier depth).Makes g := by
  induction depth with
  | zero => exact fun _ _ _ => makes_fail _
  | succ depth ih => exact fun _ d hd => Makes.emitFunction fun inner => makes_lower ih d.body hd inner

end Lowering
end DualEngine
