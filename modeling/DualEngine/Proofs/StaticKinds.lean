import DualEngine.Proofs.Growth
import DualEngine.Proofs.PredictedKinds

/-! # Kinds that are decided twice

Evaluation goes by the kinds of values, lowering by those of slots. Where both know the same names
with the same kinds, a tree without branches and calls is accepted by both or by none, and both know
the same names afterwards. Only a division by zero stops evaluation alone.
-/
namespace DualEngine

/-! ## Computations side by side -/

section
variable {ε τ α β γ δ : Type} {P : α → Evaluator.State → β → τ → Prop}
  {Q : γ → Evaluator.State → δ → τ → Prop} {op : ArithOp}

/-- Both computations end, with related results, or the second fails with the first. Nothing is said
where the first one divides by zero or runs out of fuel. -/
def Alongside (P : α → Evaluator.State → β → τ → Prop)
    (x : EStateM.Result Evaluator.Halt Evaluator.State α) (y : EStateM.Result ε τ β) : Prop :=
  match x with
  | .ok a st => ∃ b s, y = .ok b s ∧ P a st b s
  | .error (.fault cause) _ => cause = .divideByZero ∨ ∃ e s, y = .error e s
  | .error .exhausted _ => True

theorem Alongside.bind {x : Evaluator.Eval α} {y : EStateM ε τ β} {f : α → Evaluator.Eval γ}
    {g : β → EStateM ε τ δ} {st : Evaluator.State} {s : τ} (h : Alongside P (x st) (y s))
    (hnext : ∀ a st' b s', x st = .ok a st' → y s = .ok b s' → P a st' b s' →
      Alongside Q (f a st') (g b s')) : Alongside Q ((x >>= f) st) ((y >>= g) s) := by
  cases hx : x st with
  | ok a st' =>
    rw [hx] at h
    obtain ⟨b, s', hy, hP⟩ := h
    rw [bind_ok hx, bind_ok hy]
    exact hnext a st' b s' hx hy hP
  | error halt st' =>
    rw [hx] at h
    rw [bind_error hx]
    cases halt with
    | exhausted => trivial
    | fault cause =>
      rcases h with hzero | ⟨e, s', hy⟩
      · exact .inl hzero
      · exact .inr ⟨e, s', bind_error hy⟩

/-- Where the second computation fails, it is enough that the first has no result. -/
theorem alongside_error {x : EStateM.Result Evaluator.Halt Evaluator.State α}
    {y : EStateM.Result ε τ β} {e : ε} {s : τ} (hy : y = .error e s)
    (hx : ∀ a st, x ≠ .ok a st) : Alongside P x y := by
  cases x with
  | ok a st => exact absurd rfl (hx a st)
  | error halt st =>
    cases halt with
    | exhausted => trivial
    | fault cause => exact .inr ⟨e, s, hy⟩

end

/-! ## Operators on kinds -/

namespace Value

variable {cause : Fault}

theorem intArithmetic_error {l r : Int} (hop : ∀ symbol, op ≠ .other symbol)
    (h : intArithmetic op l r = .error cause) : cause = .divideByZero := by
  cases op with
  | div =>
    simp only [intArithmetic] at h
    split at h <;> cases h
    rfl
  | other symbol => exact absurd rfl (hop symbol)
  | _ => cases h

theorem floatArithmetic_error {l r : Float} (hop : ∀ symbol, op ≠ .other symbol)
    (h : floatArithmetic op l r = .error cause) : cause = .divideByZero := by
  cases op with
  | div =>
    simp only [floatArithmetic] at h
    split at h <;> cases h
    rfl
  | other symbol => exact absurd rfl (hop symbol)
  | _ => cases h

/-- Arithmetic fails for its kinds, or divides by zero. -/
theorem arithmetic_error {l r : Value} (hop : ∀ symbol, op ≠ .other symbol)
    (h : l.arithmetic op r = .error cause) :
    cause = .divideByZero ∨ l.kind.arithmetic? op r.kind = Option.none := by
  unfold arithmetic at h
  split at h
  · exact .inl (intArithmetic_error hop h)
  · exact .inl (floatArithmetic_error hop h)
  · exact .inl (floatArithmetic_error hop h)
  · exact .inl (floatArithmetic_error hop h)
  · rename_i hii hif hfi hff
    refine .inr ?_
    have hnumeric : (l.kind.isNumeric && r.kind.isNumeric) = false := by
      cases l <;> cases r <;> simp_all [kind, Kind.isNumeric]
    simp only [Kind.arithmetic?, hnumeric, Bool.false_eq_true, if_false]
    split at h
    · rename_i hstring
      unfold joinTexts at h
      split at h
      · rename_i hne
        rw [if_neg (fun hadd => hne hadd.1)]
      · split at h
        · rename_i hl
          simp_all
        · split at h
          · rename_i hr
            simp_all
          · cases h
    · rename_i hstring
      rw [if_neg (fun hadd => hstring hadd.2)]

/-- Values are compared if their kinds are. -/
theorem compare_kinds (l r : Value) (op : CompareOp) (hop : ∀ symbol, op ≠ .other symbol) :
    (∃ b, l.compare op r = .ok b) ↔ l.kind.comparable op r.kind = true := by
  have hsymbol : ∀ symbol, op = .other symbol → False := fun symbol h => hop symbol h
  cases l <;> cases r <;> cases op <;>
    simp_all [compare, compareTexts, kind, Kind.comparable, Kind.isNumeric, Kind.isScalar,
      Kind.isTextual, CompareOp.isEquality]

end Value

/-! ## The same names on both sides -/

/-- Both contexts bind the same names in the same order and with the same kinds, which are those of
the values. -/
structure Context.Matches {σ : Type} (c : Context Value) (c' : Context σ) : Prop where
  entries : (c.symbols.entries.map fun entry => (entry.1, entry.2.kind)) =
    c'.symbols.entries.map fun entry => (entry.1, entry.2.kind)
  values : ∀ x var, c.get? x = some var → var.storage.kind = var.kind

namespace Context.Matches
variable {σ : Type} {c : Context Value} {c' : Context σ} {x : String} {v : Value}

theorem kind (h : c.Matches c') (x : String) :
    (c.get? x).map Symbol.kind = (c'.get? x).map Symbol.kind := by
  have hfind := congrArg (Table.find? x) h.entries
  rwa [Table.find?_map, Table.find?_map] at hfind

/-- A name is bound on both sides or on none. -/
theorem bound (h : c.Matches c') (x : String) :
    (c.get? x = none ∧ c'.get? x = none) ∨
      ∃ var sym, c.get? x = some var ∧ c'.get? x = some sym ∧ sym.kind = var.storage.kind := by
  have hkind := h.kind x
  cases hvar : c.get? x with
  | none => exact .inl ⟨rfl, by simpa [hvar] using hkind.symm⟩
  | some var =>
    obtain ⟨sym, hsym, hk⟩ : ∃ sym, c'.get? x = some sym ∧ sym.kind = var.kind := by
      rw [hvar] at hkind
      simpa using hkind.symm
    exact .inr ⟨var, sym, rfl, hsym, hk.trans (h.values x var hvar).symm⟩

theorem values_add (h : c.Matches c') :
    ∀ y var, (c.add x v v.kind).get? y = some var → var.storage.kind = var.kind := by
  intro y var hy
  have hget : (c.add x v v.kind).get? y = if x = y then some ⟨v, v.kind⟩ else c.get? y :=
    Table.get?_insert ..
  rw [hget] at hy
  split at hy
  · cases hy
    rfl
  · exact h.values y var hy

theorem entries_add (c : Context σ) (x : String) (storage : σ) (k : Kind) :
    ((c.add x storage k).symbols.entries.map fun entry => (entry.1, entry.2.kind)) =
      Table.put x k (c.symbols.entries.map fun entry => (entry.1, entry.2.kind)) :=
  (Table.put_map Symbol.kind x ⟨storage, k⟩ c.symbols.entries).symm

theorem add (h : c.Matches c') (x : String) (v : Value) (storage : σ) :
    (c.add x v v.kind).Matches (c'.add x storage v.kind) :=
  ⟨by rw [entries_add, entries_add, h.entries], h.values_add⟩

/-- A value of the kind that the name has. -/
theorem rebind (h : c.Matches c') {sym : Symbol σ} (hx : c'.get? x = some sym)
    (hk : v.kind = sym.kind) : (c.add x v v.kind).Matches c' := by
  refine ⟨?_, h.values_add⟩
  rw [entries_add, h.entries]
  refine Table.put_self ?_
  have hfind : Table.find? x c'.symbols.entries = some sym := hx
  rw [Table.find?_map, hfind, hk]
  rfl

end Context.Matches

namespace Lowering
open IR Machine

variable {earlier : Earlier} {s s' : State} {st st' : Evaluator.State} {fuel : Nat} {node : Node}
  {v : Value} {x : String} {r : Lowered} {nodes : List Node} {u w : Value}

/-- A value and the result that stands for it, where both sides know the same names. -/
def Same (v : Value) (st : Evaluator.State) (r : Lowered) (s : State) : Prop :=
  kindOf r.value = v.kind ∧ st.context.Matches s.context

theorem same_some {t : Typed} (hk : t.kind = v.kind) (hm : st.context.Matches s.context) :
    Same v st { value := some t } s := ⟨hk, hm⟩

/-- The forms that straight-line code is without. -/
def branchingForms : List String := ["If", "ForLoop", "Random", "FunctionDef", "FunctionCall"]

/-! ## Variables -/

/-- Outside functions a name is looked up in the context. -/
theorem lookup_context (x : String) (st : Evaluator.State) :
    Evaluator.lookup {} x st =
      match st.context.get? x with
      | some var => .ok var.storage st
      | none => .error (.fault (.undefinedVariable x)) st := by
  unfold Evaluator.lookup
  simp only [Table.get?, Table.find?]
  rw [bind_ok (get_run st)]
  cases st.context.get? x <;> rfl

theorem store_run (hk : v.kind ≠ .none) (x : String) (st : Evaluator.State) :
    Evaluator.store {} x v st = .ok v (st.commit (st.context.add x v v.kind)) := by
  have hparam : ({} : Evaluator.Frame).contains x = false := rfl
  unfold Evaluator.store
  simp only [hparam, Bool.false_eq_true, if_false, if_neg hk]
  rfl

theorem alongside_identifier (hp : Poised {} s) (hm : st.context.Matches s.context) (x : String) :
    Alongside Same (Evaluator.eval (fuel + 1) {} (.identifier x) st)
      (lower earlier {} (.identifier x) s) := by
  have heval : Evaluator.eval (fuel + 1) {} (.identifier x) st = Evaluator.lookup {} x st := rfl
  rw [heval, lookup_context]
  rcases hm.bound x with ⟨hvar, hsym⟩ | ⟨var, sym, hvar, hsym, hk⟩
  · rw [hvar]
    have hload : loadName {} x s = .error (.undefinedVariable x) s := by
      unfold loadName
      simp only [Table.get?, Table.find?]
      rw [bind_ok (get_run s), hsym]
      rfl
    exact .inr ⟨_, _, bind_error hload⟩
  · rw [hvar]
    obtain ⟨y, s1, code, h1, A, -⟩ := loadName_spec (show ({} : Scope).params.get? x = none from rfl)
      hsym (hp.slotted.proper.kind x sym hsym)
    exact ⟨_, s1, (bind_ok h1).trans rfl, same_some hk (A.context ▸ hm)⟩

/-- A step of a variable, on both sides. -/
theorem alongside_step (hp : Poised {} s) (hm : st.context.Matches s.context) (x : String)
    (delta : Int) (op : BinaryOp) :
    Alongside Same (Evaluator.stepVariable {} x delta st)
      ((do return { value := some (← stepVariable {} x op) } : Lower Lowered) s) := by
  have hparam : ({} : Scope).params.contains x = false := rfl
  unfold Evaluator.stepVariable
  rcases hm.bound x with ⟨hvar, hsym⟩ | ⟨var, sym, hvar, hsym, hk⟩
  · have hstep : stepVariable {} x op s = .error (.undefinedVariable x) s := by
      unfold stepVariable
      simp only [hparam, Bool.false_eq_true, if_false]
      rw [bind_ok (get_run s), hsym]
      rfl
    rw [bind_error (by rw [lookup_context, hvar])]
    exact .inr ⟨_, _, bind_error hstep⟩
  · rw [bind_ok (by rw [lookup_context, hvar])]
    by_cases hint : sym.kind = .int
    · obtain ⟨n, hn⟩ : ∃ n, var.storage = .int n := by
        rw [hint] at hk
        cases hs : var.storage <;> simp_all [Value.kind]
      obtain ⟨y, s1, code, h1, A, -⟩ :=
        stepVariable_spec op hparam hsym (hp.slotted.proper.kind x sym hsym) hint
      rw [hn]
      dsimp only
      rw [store_run (by simp [Value.kind])]
      refine ⟨_, s1, (bind_ok h1).trans rfl, same_some rfl ?_⟩
      rw [A.context]
      exact hm.rebind hsym hint.symm
    · have hstep : stepVariable {} x op s = .error (.mismatch (.stepped x sym.kind)) s := by
        unfold stepVariable
        simp only [hparam, Bool.false_eq_true, if_false]
        rw [bind_ok (get_run s), hsym]
        simp only [if_neg hint]
        rfl
      refine alongside_error (bind_error hstep) fun u st' h => ?_
      cases hs : var.storage with
      | int n =>
        rw [hs] at hk
        exact hint hk
      | _ =>
        rw [hs] at h
        cases h

/-- Outside branches a slot is found or made without code. -/
theorem slotFor_straight (x : String) (k : Kind) (s : State) :
    (∃ sym, s.context.get? x = some sym ∧ sym.kind = k ∧ slotFor {} x k s = .ok sym.storage s) ∨
      slotFor {} x k s = .ok ⟨x, s.nextSlot, k⟩
        ((s.withSlot ⟨x, s.nextSlot, k⟩).binding x ⟨x, s.nextSlot, k⟩ k) := by
  unfold slotFor
  rw [bind_ok (get_run s)]
  cases hx : s.context.get? x with
  | none =>
    refine .inr ?_
    simp only [Option.filter_none]
    rfl
  | some sym =>
    by_cases hk : sym.kind = k
    · refine .inl ⟨sym, rfl, hk, ?_⟩
      simp only [Option.filter_some, hk, decide_true, if_true]
      rfl
    · refine .inr ?_
      simp only [Option.filter_some, hk, decide_false, Bool.false_eq_true, if_false]
      rfl

/-- An assignment of a value, on both sides. -/
theorem alongside_store (hp : Poised {} s) (hs : Same v st r s) (hr : r.Fits s.used) (x : String) :
    Alongside Same (Evaluator.store {} x v st)
      ((do return { value := some (← assign {} x r.value) } : Lower Lowered) s) := by
  obtain ⟨hk, hm⟩ := hs
  by_cases hnone : v.kind = .none
  · have hassign : assign {} x r.value s = .error (.mismatch (.assignedNone x)) s := by
      cases hv : r.value with
      | none => rfl
      | some t =>
        rw [hv, hnone] at hk
        have hk : t.kind = .none := hk
        simp only [assign, hk, if_true]
        rfl
    refine alongside_error (bind_error hassign) fun u st' h => ?_
    have hparam : ({} : Evaluator.Frame).contains x = false := rfl
    simp only [Evaluator.store, hparam, Bool.false_eq_true, if_false, hnone, if_true] at h
    cases h
  · rw [store_run hnone]
    obtain ⟨t, ht⟩ := kindOf_eq_some (r := r.value) (by rwa [hk])
    have hfits := hr.value
    rw [ht] at hk hfits
    have hk : t.kind = v.kind := hk
    have hassign {slot : Slot} {s1 s2 : State} (h1 : slotFor {} x t.kind s = .ok slot s1)
        (h2 : storeSlot slot t s1 = .ok ⟨⟩ s2) : assign {} x (some t) s = .ok t s2 := by
      have hne : ¬ t.kind = .none := by rwa [hk]
      unfold assign
      simp only [if_neg hne]
      exact (bind_ok h1).trans ((bind_ok h2).trans rfl)
    rw [ht]
    rcases slotFor_straight x t.kind s with ⟨sym, hsym, hkind, h1⟩ | h1
    · obtain ⟨s2, code, h2, A, -⟩ := storeSlot_spec hfits
        ((hp.slotted.proper.kind x sym hsym).trans hkind)
      refine ⟨_, s2, (bind_ok (hassign h1 h2)).trans rfl, same_some hk ?_⟩
      rw [A.context]
      exact hm.rebind hsym (hk.symm.trans hkind.symm)
    · obtain ⟨s2, code, h2, A, -⟩ := storeSlot_spec
        (s := (s.withSlot ⟨x, s.nextSlot, t.kind⟩).binding x ⟨x, s.nextSlot, t.kind⟩ t.kind) hfits
        (show (⟨x, s.nextSlot, t.kind⟩ : Slot).kind = t.kind from rfl)
      refine ⟨_, s2, (bind_ok (hassign h1 h2)).trans rfl, same_some hk ?_⟩
      rw [A.context, hk]
      exact hm.add x v _

/-! ## Operators -/

/-- Evaluation and lowering of the tree go side by side. -/
def Concerts (earlier : Earlier) (fuel : Nat) (node : Node) : Prop :=
  ∀ st s, Regular earlier s.context.functions node → node.Avoids branchingForms → Poised {} s →
    st.context.Matches s.context → Evaluator.Portably fuel {} node st →
    Alongside Same (Evaluator.eval fuel {} node st) (lower earlier {} node s)

theorem arithmetic_fails {l r : Option Typed} (s : State)
    (h : (kindOf l).arithmetic? op (kindOf r) = none) :
    ∃ e, arithmetic l op r s = .error e s := by
  unfold arithmetic
  rw [h]
  exact ⟨_, rfl⟩

theorem alongside_arithmetic {l r : Lowered} (hl : ResultFits s.used l.value)
    (hr : ResultFits s.used r.value) (hkl : kindOf l.value = u.kind)
    (hkr : kindOf r.value = w.kind) (hop : ∀ symbol, op ≠ .other symbol)
    (hm : st.context.Matches s.context) :
    Alongside Same (Evaluator.ofExcept (u.arithmetic op w) st)
      ((do return { value := some (← arithmetic l.value op r.value) } : Lower Lowered) s) := by
  cases hv : u.arithmetic op w with
  | ok v =>
    have hk := Value.kind_arithmetic hv
    rw [← hkl, ← hkr] at hk
    obtain ⟨t, s1, code, h1, A, -, hkind, -⟩ := arithmetic_spec hl hr hk
    exact ⟨_, s1, (bind_ok h1).trans rfl, same_some hkind (A.context ▸ hm)⟩
  | error cause =>
    rcases Value.arithmetic_error hop hv with hzero | hnone
    · exact .inl hzero
    · rw [← hkl, ← hkr] at hnone
      obtain ⟨e, he⟩ := arithmetic_fails s hnone
      exact .inr ⟨_, _, bind_error he⟩

theorem concerts_binary (ih : ∀ node, Concerts earlier fuel node) (left right : Node) (op : ArithOp) :
    Concerts earlier (fuel + 1) (.binary left op right) := by
  intro st s hr ha hp hm hport
  have hml : left ∈ (Node.binary left op right).children := by simp [Node.children]
  have hmr : right ∈ (Node.binary left op right).children := by simp [Node.children]
  obtain ⟨hle, hlr⟩ := hr.operand rfl hml
  obtain ⟨hre, hrr⟩ := hr.operand rfl hmr
  have key (hop : ∀ symbol, op ≠ .other symbol) : Alongside Same
      ((do
        let l ← Evaluator.eval fuel {} left
        let r ← Evaluator.eval fuel {} right
        Evaluator.ofExcept (l.arithmetic op r) : Evaluator.Eval Value) st)
      ((do
        let l ← lower earlier {} left
        let r ← lower earlier {} right
        return { value := some (← arithmetic l.value op r.value) } : Lower Lowered) s) := by
    refine (ih left st s hlr (ha.child hml) hp hm hport.binary_left).bind fun u st1 l s1 e1 h1 hS1 => ?_
    obtain ⟨m1, f1, -⟩ := (lowers earlier left).expression hle hlr hp h1
    have p1 := m1.poised hp
    have hrr1 : Regular earlier s1.context.functions right := m1.declares.functions ▸ hrr
    refine (ih right st1 s1 hrr1 (ha.child hmr) p1 hS1.2 (hport.binary_right e1)).bind
      fun w st2 r s2 e2 h2 hS2 => ?_
    obtain ⟨m2, f2, -⟩ := (lowers earlier right).expression hre hrr1 p1 h2
    exact alongside_arithmetic (f1.value.mono (m2.grown p1).evolves.used) f2.value hS1.1 hS2.1 hop hS2.2
  cases op with
  | other symbol => exact .inr ⟨_, _, rfl⟩
  | _ => exact key (by simp)

theorem alongside_comparison {l r : Lowered} {op : CompareOp} (hl : ResultFits s.used l.value)
    (hr : ResultFits s.used r.value) (hkl : kindOf l.value = u.kind)
    (hkr : kindOf r.value = w.kind) (hop : ∀ symbol, op ≠ .other symbol)
    (hm : st.context.Matches s.context) :
    Alongside Same
      ((do return .bool (← Evaluator.ofExcept (u.compare op w)) : Evaluator.Eval Value) st)
      ((do return { value := some (← comparison l.value op r.value) } : Lower Lowered) s) := by
  cases hk : u.kind.comparable op w.kind with
  | true =>
    obtain ⟨b, hb⟩ := (Value.compare_kinds u w op hop).mpr hk
    obtain ⟨hne, hne'⟩ := ne_none_of_comparable hk
    obtain ⟨tl, htl⟩ := kindOf_eq_some (r := l.value) (by rwa [hkl])
    obtain ⟨tr, htr⟩ := kindOf_eq_some (r := r.value) (by rwa [hkr])
    rw [htl] at hl hkl
    rw [htr] at hr hkr
    rw [← hkl, ← hkr] at hk
    obtain ⟨o, s1, code, h1, A, -⟩ := comparison_spec hop hl hr hk
    rw [hb, htl, htr]
    exact ⟨_, s1, (bind_ok h1).trans rfl, same_some rfl (A.context ▸ hm)⟩
  | false =>
    have hfails : comparison l.value op r.value s =
        .error (.mismatch (.incomparable (kindOf l.value) (kindOf r.value) op.symbol)) s := by
      rw [← hkl, ← hkr] at hk
      simp only [comparison, hk]
      rfl
    refine alongside_error (bind_error hfails) fun v st' h => ?_
    obtain ⟨b, st1, hb, -⟩ := bind_eq_ok.mp h
    have hcompares := (Value.compare_kinds u w op hop).mp ⟨b, (Evaluator.ofExcept_ok hb).1⟩
    rw [hk] at hcompares
    cases hcompares

theorem concerts_comparison (ih : ∀ node, Concerts earlier fuel node) (left right : Node)
    (op : CompareOp) : Concerts earlier (fuel + 1) (.comparison left op right) := by
  intro st s hr ha hp hm hport
  have hml : left ∈ (Node.comparison left op right).children := by simp [Node.children]
  have hmr : right ∈ (Node.comparison left op right).children := by simp [Node.children]
  obtain ⟨hle, hlr⟩ := hr.operand rfl hml
  obtain ⟨hre, hrr⟩ := hr.operand rfl hmr
  have key (hop : ∀ symbol, op ≠ .other symbol) : Alongside Same
      ((do
        let l ← Evaluator.eval fuel {} left
        let r ← Evaluator.eval fuel {} right
        return .bool (← Evaluator.ofExcept (l.compare op r)) : Evaluator.Eval Value) st)
      ((do
        let l ← lower earlier {} left
        let r ← lower earlier {} right
        return { value := some (← comparison l.value op r.value) } : Lower Lowered) s) := by
    refine (ih left st s hlr (ha.child hml) hp hm hport.operands.head).bind
      fun u st1 l s1 e1 h1 hS1 => ?_
    obtain ⟨m1, f1, -⟩ := (lowers earlier left).expression hle hlr hp h1
    have p1 := m1.poised hp
    have hrr1 : Regular earlier s1.context.functions right := m1.declares.functions ▸ hrr
    refine (ih right st1 s1 hrr1 (ha.child hmr) p1 hS1.2 (hport.comparison e1).2).bind
      fun w st2 r s2 e2 h2 hS2 => ?_
    obtain ⟨m2, f2, -⟩ := (lowers earlier right).expression hre hrr1 p1 h2
    exact alongside_comparison (f1.value.mono (m2.grown p1).evolves.used) f2.value hS1.1 hS2.1 hop hS2.2
  cases op with
  | other symbol => exact .inr ⟨_, _, rfl⟩
  | _ => exact key (by simp)

/-! ## Statements and lists -/

theorem concerts_assign (ih : ∀ node, Concerts earlier fuel node) (x : String) (e : Node) :
    Concerts earlier (fuel + 1) (.assign x e) := by
  intro st s hr ha hp hm hport
  have hme : e ∈ (Node.assign x e).children := by simp [Node.children]
  obtain ⟨he, hre⟩ := hr.assigned
  refine (ih e st s hre (ha.child hme) hp hm hport.assign).bind fun u st1 l s1 _ h1 hS1 => ?_
  obtain ⟨m1, f1, -⟩ := (lowers earlier e).expression he hre hp h1
  exact alongside_store (m1.poised hp) hS1 f1 x

theorem concerts_print (ih : ∀ node, Concerts earlier fuel node) (e : Node) :
    Concerts earlier (fuel + 1) (.print e) := by
  intro st s hr ha hp hm hport
  have hme : e ∈ (Node.print e).children := by simp [Node.children]
  obtain ⟨he, hre⟩ := hr.operand rfl hme
  refine (ih e st s hre (ha.child hme) hp hm hport.printed).bind fun u st1 l s1 e1 h1 hS1 => ?_
  obtain ⟨m1, f1, -⟩ := (lowers earlier e).expression he hre hp h1
  obtain ⟨s2, code, h2, A, -⟩ := printValue_spec f1.value (by rw [hS1.1]; exact (hport.print e1).2)
  refine ⟨_, s2, (bind_ok h2).trans rfl, hS1.1, ?_⟩
  rw [A.context]
  exact hS1.2

/-- The integers of an array, one element after the other. -/
theorem each_elements_cons (f : Node → Evaluator.Eval Value) (node : Node) (rest : List Node) :
    (Evaluator.each f (node :: rest) >>= fun vs => Evaluator.ofExcept (Evaluator.elements vs)) =
      f node >>= fun v => Evaluator.each f rest >>= fun vs =>
        Evaluator.ofExcept (Evaluator.elements (v :: vs)) := by
  simp only [Evaluator.each, bind_assoc, pure_bind]

theorem ofExcept_elements_int (n : Int) (vs : List Value) :
    Evaluator.ofExcept (Evaluator.elements (.int n :: vs)) =
      Evaluator.ofExcept (Evaluator.elements vs) >>= fun ns => pure (n :: ns) := by
  simp only [Evaluator.elements]
  cases Evaluator.elements vs <;> rfl

/-- Only integers are elements. -/
theorem elements_ne_ok (hu : u.kind ≠ .int) (rest : Evaluator.Eval (List Value)) :
    ∀ ns st', (rest >>= fun vs => Evaluator.ofExcept (Evaluator.elements (u :: vs))) st ≠
      .ok ns st' := by
  intro ns st' h
  obtain ⟨vs, st1, -, h⟩ := bind_eq_ok.mp h
  have helements := (Evaluator.ofExcept_ok h).1
  cases u with
  | int n => exact hu rfl
  | _ => cases helements

theorem alongside_elements (ih : ∀ node, Concerts earlier fuel node)
    (hr : ∀ node ∈ nodes, node.isExpression = true ∧ Regular earlier s.context.functions node)
    (ha : ∀ node ∈ nodes, node.Avoids branchingForms) (hp : Poised {} s)
    (hm : st.context.Matches s.context) (hport : Evaluator.PortablyAll fuel {} nodes st) :
    Alongside (fun _ st' _ s' => st'.context.Matches s'.context)
      ((Evaluator.each (Evaluator.eval fuel {}) nodes >>= fun vs =>
        Evaluator.ofExcept (Evaluator.elements vs)) st)
      (lowerElements earlier {} nodes s) := by
  induction nodes generalizing s st with
  | nil => exact ⟨[], s, rfl, hm⟩
  | cons node rest ihr =>
    obtain ⟨he, hre⟩ := hr node List.mem_cons_self
    rw [each_elements_cons]
    refine (ih node st s hre (ha node List.mem_cons_self) hp hm hport.head).bind
      fun u st1 l s1 e1 h1 hS1 => ?_
    obtain ⟨m1, -, -⟩ := (lowers earlier node).expression he hre hp h1
    by_cases hint : u.kind = .int
    · obtain ⟨n, rfl⟩ : ∃ n, u = .int n := by cases u <;> simp_all [Value.kind]
      obtain ⟨o, ho⟩ : ∃ o, l.value = some ⟨o, .int⟩ := by
        obtain ⟨⟨o, k⟩, ht⟩ := kindOf_eq_some (r := l.value) (by rw [hS1.1]; simp [Value.kind])
        have hk := hS1.1
        rw [ht] at hk
        exact ⟨o, by rw [ht, show k = .int from hk]⟩
      rw [ho]
      simp only [ofExcept_elements_int, ← bind_assoc]
      refine (ihr (fun n hn => m1.declares.functions ▸ hr n (List.mem_cons_of_mem _ hn))
        (fun n hn => ha n (List.mem_cons_of_mem _ hn)) (m1.poised hp) hS1.2 (hport.cons e1).2).bind
        fun ns st2 os s2 _ _ hm2 => ⟨_, s2, rfl, hm2⟩
    · have hne := hS1.1 ▸ hint
      cases hvalue : l.value with
      | none => exact alongside_error rfl (elements_ne_ok hint _)
      | some t =>
        obtain ⟨operand, k⟩ := t
        rw [hvalue] at hne
        cases k with
        | int => exact absurd rfl hne
        | _ => exact alongside_error rfl (elements_ne_ok hint _)

theorem concerts_array (ih : ∀ node, Concerts earlier fuel node) (elements : List Node) :
    Concerts earlier (fuel + 1) (.array elements) := by
  intro st s hr ha hp hm hport
  have hre : ∀ child ∈ elements, child.isExpression = true ∧
      Regular earlier s.context.functions child := fun child hc => hr.operand rfl hc
  have heval : Evaluator.eval (fuel + 1) {} (.array elements) =
      ((Evaluator.each (Evaluator.eval fuel {}) elements >>= fun vs =>
        Evaluator.ofExcept (Evaluator.elements vs)) >>= fun ns => pure (.intArray ns)) := by
    rw [bind_assoc]
    rfl
  rw [heval]
  refine (alongside_elements ih hre (fun child hc => ha.child hc) hp hm hport.array).bind
    fun ns st1 os s1 _ h1 hm1 => ?_
  obtain ⟨m1, f1⟩ := lowerElements_moves (fun n _ => lowers earlier n) hre hp h1
  obtain ⟨o, s2, code, h2, A, -⟩ := buildArray_spec f1
  exact ⟨_, s2, (bind_ok h2).trans rfl, same_some rfl (A.context ▸ hm1)⟩

theorem alongside_statements (ih : ∀ node, Concerts earlier fuel node) {last : Lowered}
    (hr : ∀ node ∈ nodes, Regular earlier s.context.functions node)
    (ha : ∀ node ∈ nodes, node.Avoids branchingForms) (hp : Poised {} s) (hS : Same w st last s)
    (hport : Evaluator.PortablyAll fuel {} nodes st) :
    Alongside Same (Evaluator.inOrder (Evaluator.eval fuel {}) nodes w st)
      (lowerAll earlier {} nodes last s) := by
  induction nodes generalizing s st last w with
  | nil => exact ⟨last, s, rfl, hS⟩
  | cons node rest ihr =>
    have hre := hr node List.mem_cons_self
    refine (ih node st s hre (ha node List.mem_cons_self) hp hS.2 hport.head).bind
      fun u st1 l s1 e1 h1 hS1 => ?_
    obtain ⟨new, m1, -, -⟩ := lowers earlier node _ _ _ _ hre hp h1
    exact ihr (fun n hn => m1.declares.functions ▸ hr n (List.mem_cons_of_mem _ hn))
      (fun n hn => ha n (List.mem_cons_of_mem _ hn)) (m1.poised hp) hS1 (hport.cons e1).2

theorem concerts (earlier : Earlier) (fuel : Nat) (node : Node) : Concerts earlier fuel node := by
  induction fuel generalizing node with
  | zero => exact fun _ _ _ _ _ _ _ => trivial
  | succ fuel ih =>
    intro st s hr ha hp hm hport
    cases node with
    | sequence nodes =>
      exact alongside_statements ih hr.statements (fun n hn => ha.child hn) hp
        ⟨rfl, hm⟩ hport.sequence
    | number | float | boolean => exact ⟨_, s, rfl, same_some rfl hm⟩
    | string text =>
      obtain ⟨o, s1, code, h1, A, -⟩ := textConstant_spec s text "str" (by decide)
      exact ⟨_, s1, (bind_ok h1).trans rfl, same_some rfl (A.context ▸ hm)⟩
    | identifier x => exact alongside_identifier hp hm x
    | binary left op right => exact concerts_binary ih left right op st s hr ha hp hm hport
    | comparison left op right => exact concerts_comparison ih left right op st s hr ha hp hm hport
    | assign x e => exact concerts_assign ih x e st s hr ha hp hm hport
    | increment x => exact alongside_step hp hm x 1 .add
    | decrement x => exact alongside_step hp hm x (-1) .sub
    | print e => exact concerts_print ih e st s hr ha hp hm hport
    | array elements => exact concerts_array ih elements st s hr ha hp hm hport
    | missing | bare => exact .inr ⟨_, _, rfl⟩
    | branch | loop | random | define | call =>
      exact absurd ha.self (by simp [Node.shape, branchingForms])

end Lowering
end DualEngine
