import DualEngine.Proofs.Points

/-! # Code that follows an evaluation

An evaluation and the code for the same tree go side by side. `Path` says which part of lowering a
function the code comes from, `Accords` how memory and registers stand to the state of evaluation,
and `Follows` that the code gets from one point to the next. A loop whose body never ran has no
value in evaluation and a zero with a flag in code, so `Tells` says for which trees the value in
code is that of evaluation.
-/
namespace DualEngine

namespace Node

mutual

/-- The value of the tree is not that of a loop. -/
def plain : Node → Bool
  | .sequence statements => plainLast statements
  | .branch _ thenPart elsePart => thenPart.plain && elsePart.plain
  | .loop .. => false
  | _ => true

def plainLast : List Node → Bool
  | [] => true
  | [node] => node.plain
  | _ :: rest => plainLast rest

end

mutual

/-- The value in code is that of the tree, if there is one. -/
def telling : Node → Bool
  | .sequence statements => tellingLast statements
  | .branch _ thenPart elsePart => thenPart.plain && elsePart.plain
  | .loop _ _ _ body => body.plain
  | _ => true

def tellingLast : List Node → Bool
  | [] => true
  | [node] => node.telling
  | _ :: rest => tellingLast rest

end

mutual

/-- Where there is no value in code, the tree has none. -/
def exact : Node → Bool
  | .sequence statements => exactLast statements
  | .branch .. => false
  | .loop _ _ _ body => body.exact
  | _ => true

def exactLast : List Node → Bool
  | [] => true
  | [node] => node.exact
  | _ :: rest => exactLast rest

end

theorem telling_of_plain {node : Node} (h : node.plain = true) : node.telling = true := by
  revert h
  refine induction (P := fun node => node.plain = true → node.telling = true)
    (fun node ih h => ?_) node
  cases node with
  | sequence statements =>
    simp only [children] at ih
    simp only [plain] at h
    simp only [telling]
    induction statements with
    | nil => rfl
    | cons first rest ihr =>
      cases rest with
      | nil => exact ih first List.mem_cons_self h
      | cons second rest =>
        exact ihr (fun child hc => ih child (List.mem_cons_of_mem _ hc)) h
  | branch condition thenPart elsePart => exact h
  | loop start condition step body => cases h
  | _ => rfl

theorem plain_of_isExpression {node : Node} (h : node.isExpression = true) :
    node.plain = true ∧ node.exact = true := by
  have hform := ((isExpression_iff node).mp h).1
  cases node with
  | sequence | branch | loop | assign | define => simp [isStatementForm] at hform
  | _ => exact ⟨rfl, rfl⟩

end Node

namespace Lowering
open IR Machine

variable {image : Image} {f : Function} {whole s s' s1 t : State} {held : List String}
  {a b c : Snap} {code : List Instruction} {scope : Scope} {D D' : Bindings} {new new' : List Slot}
  {node : Node} {r : Lowered} {u v : Value} {ran : Bool} {gs : List Global}

/-! ## Parts of lowering a function -/

/-- Lowering goes from `s` to `s'` on its way to `whole`, makes slots for new names only, and all
of these are among the bindings `D`. -/
structure Path (held : List String) (scope : Scope) (s s' whole : State) (D : Bindings) :
    Prop where
  poised : Poised scope s
  housed : Housed s
  stable : ∃ new, Moves scope s s' new ∧ Novel s new
  bound : ∀ x sym, s'.context.get? x = some sym → D x sym
  settles : Settles held s' whole
  aside : ∀ k ∈ held, k ∈ s.used ∧ k ≠ s.draft.current

theorem Declares.unique (h : Declares s s' new) (h' : Declares s s' new') : new = new' :=
  List.append_cancel_left (h.created.symm.trans h'.created)

theorem Path.novel (h : Path held scope s s' whole D) (hd : Declares s s' new) : Novel s new := by
  obtain ⟨new', m, hn⟩ := h.stable
  rwa [hd.unique m.declares]

theorem Path.known (h : Path held scope s s' whole D) : held ⊆ s.used := fun k hk => (h.aside k hk).1

theorem aside_grows (h : ∀ k ∈ held, k ∈ s.used ∧ k ≠ s.draft.current) {held' : List String}
    (g : Grows held' s s') : ∀ k ∈ held, k ∈ s'.used ∧ k ≠ s'.draft.current := by
  intro k hk
  obtain ⟨hused, hne⟩ := h k hk
  refine ⟨g.evolves.used hused, ?_⟩
  rcases g.current with hc | hc
  · rwa [hc]
  · rintro rfl
    exact hc hused

/-- The first of two parts. -/
theorem Path.first (h : Path held scope s s' whole D) (m : Moves scope s s1 new)
    (m' : Moves scope s1 s' new') : Path held scope s s1 whole D := by
  have hn := h.novel (m.declares.trans m'.declares)
  have hn' := hn.right m.declares
  have p1 := m.poised h.poised
  refine ⟨h.poised, h.housed, ⟨new, m, hn.left⟩,
    fun x sym hx => h.bound x sym (hn'.keeps m'.declares hx), ?_, h.aside⟩
  refine Settles.of_grows p1.active (m'.grows held ?_ fun _ _ => .inr hn') h.settles
  exact fun k hk => (m.grown h.poised).evolves.used (h.known hk)

/-- The second of two parts. -/
theorem Path.second (h : Path held scope s s' whole D) (m : Moves scope s s1 new)
    (m' : Moves scope s1 s' new') : Path held scope s1 s' whole D := by
  have hn := h.novel (m.declares.trans m'.declares)
  have g := m.grown h.poised
  exact ⟨m.poised h.poised, g.evolves.housed h.housed, ⟨new', m', hn.right m.declares⟩, h.bound,
    h.settles, aside_grows h.aside g⟩

theorem Path.context (h : Path held scope s s' whole D) {x : String} {sym : Symbol Slot}
    (hx : s.context.get? x = some sym) : D x sym := by
  obtain ⟨new, m, hn⟩ := h.stable
  exact h.bound x sym (hn.keeps m.declares hx)

theorem Path.grows (h : Path held scope s s' whole D) : Grows held s s' := by
  obtain ⟨new, m, hn⟩ := h.stable
  exact m.grows held h.known fun _ _ => .inr hn

theorem Path.start (h : Path held scope s s' whole D) : Settles held s whole :=
  Settles.of_grows h.poised.active h.grows h.settles

theorem Path.poised_end (h : Path held scope s s' whole D) : Poised scope s' := by
  obtain ⟨new, m, -⟩ := h.stable
  exact m.poised h.poised

theorem Path.housed_end (h : Path held scope s s' whole D) : Housed s' :=
  h.grows.evolves.housed h.housed

theorem Path.not_held (h : Path held scope s s' whole D) : s'.draft.current ∉ held :=
  fun hk => (aside_grows h.aside h.grows _ hk).2 rfl

/-! ## From point to point -/

/-- The code gets from the point of `s` to that of `s'` and leaves alone what was named before. -/
structure Follows (image : Image) (f : Function) (whole s : State) (previous : String) (a : Snap)
    (s' : State) (previous' : String) (b : Snap) : Prop where
  leads : Leads image f (here whole s previous a) (here whole s' previous' b)
  keeps : Keeps s.used s'.used a b
  places : Places whole s' b

theorem Follows.refl (previous : String) (h : Places whole s a) :
    Follows image f whole s previous a s previous a := ⟨.refl _, Keeps.refl _ _, h⟩

theorem Follows.trans {p p1 p' : String} (h : Follows image f whole s p a s1 p1 b)
    (h' : Follows image f whole s1 p1 b s' p' c) (hs : s.used ⊆ s1.used) (hs' : s1.used ⊆ s'.used) :
    Follows image f whole s p a s' p' c :=
  ⟨h.leads.trans h'.leads, h.keeps.trans h'.keeps hs hs', h'.places⟩

theorem Follows.appends {p p1 : String} (h : Follows image f whole s p a s1 p1 b)
    (hs : s.used ⊆ s1.used) (A : Appends code s1 s') (ha : Active s1) (hh : Housed s1)
    (hset : Settles held s' whole) (hr : Runs image code b c) (hk : Keeps s1.used s'.used b c) :
    Follows image f whole s p a s' p1 c :=
  h.trans ⟨leads_appends A ha hset hr p1, hk, h.places.appends A hset hh hr⟩ hs A.used

/-! ## Memory and registers -/

/-- Evaluation and machine agree: memory mirrors the variables, each with a slot of its kind, and
the same text was printed after `before`. -/
structure Concurs (image : Image) (gs : List Global) (D : Bindings) (F : Table Definition)
    (before : String) (st : Evaluator.State) (m : Machine.State) : Prop where
  serves : Serves image m.memory gs
  grounded : Grounded image m.memory
  mirrors : Mirrors image D st.context m.memory
  kinds : ∀ x sym v, D x sym → st.context.value? x = some v → v.kind = sym.kind
  covers : ∀ x v, st.context.value? x = some v → ∃ sym, D x sym
  functions : st.context.functions = F
  out : st.out = before ++ m.out

/-- Within a function, the parameters are also in registers. -/
structure Accords (image : Image) (gs : List Global) (D : Bindings) (F : Table Definition)
    (params : Table Operand) (before : String) (frame : Evaluator.Frame) (st : Evaluator.State)
    (a : Snap) : Prop extends Concurs image gs D F before st a.state where
  bound : ∀ x y, frame.get? x = some y → ∃ o, params.get? x = some o ∧
    Gives image a.frame o (.double y)
  free : ∀ x, frame.get? x = none → params.get? x = none

variable {F : Table Definition} {before : String} {frame : Evaluator.Frame}
  {st st' : Evaluator.State} {params : Table Operand} {used used' : List String}

/-- What has to be said anew after code that keeps what was named before. -/
theorem Accords.moved (h : Accords image gs D F params before frame st a)
    (hk : Keeps used used' a b) (hp : ∀ x o, params.get? x = some o → o.Known used)
    (hm : Mirrors image D' st'.context b.memory)
    (hkinds : ∀ x sym v, D' x sym → st'.context.value? x = some v → v.kind = sym.kind)
    (hcovers : ∀ x v, st'.context.value? x = some v → ∃ sym, D' x sym)
    (hf : st'.context.functions = st.context.functions) (ho : st'.out = before ++ b.state.out) :
    Accords image gs D' F params before frame st' b where
  serves := h.serves.extend hk.heap
  grounded := h.grounded.extend hk.heap
  mirrors := hm
  kinds := hkinds
  covers := hcovers
  functions := hf.trans h.functions
  out := ho
  bound x y hx := by
    obtain ⟨o, ho, hg⟩ := h.bound x y hx
    exact ⟨o, ho, hg.keep (hp x o ho) hk.registers⟩
  free := h.free

theorem Accords.keeps (h : Accords image gs D F params before frame st a)
    (hk : Keeps used used' a b) (hp : ∀ x o, params.get? x = some o → o.Known used)
    (hc : b.memory.cells = a.memory.cells) (ho : b.state.out = a.state.out) :
    Accords image gs D F params before frame st b :=
  h.moved hk hp (h.mirrors.extend hk.heap hc) h.kinds h.covers rfl (by rw [ho]; exact h.out)

theorem Accords.quiet (h : Accords image gs D F params before frame st a) (q : Quiet used a b)
    (hp : ∀ x o, params.get? x = some o → o.Known used) :
    Accords image gs D F params before frame st b :=
  h.keeps (q.keeps used) hp q.cells q.out

/-- A variable's slot holds its value. -/
theorem Accords.read (h : Accords image gs D F params before frame st a) {x : String}
    {sym : Symbol Slot} (hx : D x sym) (hv : st.context.value? x = some v) :
    v.kind = sym.kind ∧ ∃ w, a.memory.cells.get? sym.storage.symbol = some w ∧
      Rests image a.memory v w := by
  have hk := h.kinds x sym v hx hv
  obtain ⟨w, hw, hr⟩ := h.mirrors x sym v hx hv
  rw [coerce_of_kind_eq hk] at hr
  exact ⟨hk, w, hw, hr⟩

theorem Poised.known (hp : Poised scope s) :
    ∀ x o, scope.params.get? x = some o → o.Known s.used := fun x o ho => (hp.params x o ho).known

/-! ## Results -/

/-- The operands of a result stand for a value and for whether the tree gave it. -/
structure Returned (image : Image) (a : Snap) (r : Lowered) (u : Value) (ran : Bool) : Prop where
  value : CarriesResult image a r.value u
  flag : ∀ o, r.ran = some o → ∃ y, Gives image a.frame o (.address (.stack y)) ∧
    a.frame.stack.get? y = some (.bit ran)
  always : r.ran = none → ran = true

theorem returned_value {t : Option Typed} (h : CarriesResult image a t v) :
    Returned image a { value := t } v true := ⟨h, by simp, fun _ => rfl⟩

/-- What the value `u` in code says about the value `v` of the tree. -/
structure Tells (node : Node) (r : Lowered) (u v : Value) (ran : Bool) : Prop where
  plain : node.plain = true → ran = true
  value : node.telling = true → r.value.isSome = true ∨ node.exact = true →
    v = if ran then u else .none

theorem tells_same (node : Node) (r : Lowered) (v : Value) : Tells node r v v true :=
  ⟨fun _ => rfl, fun _ _ => rfl⟩

/-- The value of an expression is in its operand. -/
theorem Tells.expression (h : Tells node r u v ran) (he : node.isExpression = true) : u = v := by
  obtain ⟨hp, hx⟩ := Node.plain_of_isExpression he
  have hv := h.value (Node.telling_of_plain hp) (.inr hx)
  rw [h.plain hp] at hv
  exact hv.symm

end Lowering
end DualEngine
