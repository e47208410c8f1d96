import DualEngine.Proofs.EngineAgreement
import DualEngine.Proofs.Targets
import DualEngine.Value.Checked

/-! # Integer arithmetic modulo `2 ^ 32`

Both engines bring every number and every result back to 32 bits. Wrapping respects sums,
differences and products, so a tree of these has the value that its exact value wraps to, however
large its numbers are and wherever it overflows on the way. A quotient is truncated toward zero.
-/
namespace DualEngine

/-! ## Wrapping -/

theorem wrapInt_modEq (n : Int) : wrapInt n ≡ n [ZMOD 2 ^ 32] :=
  Int.bmod_emod (m := 0x100000000)

theorem wrapInt_of_fits {n : Int} (h : Fits32 n) : wrapInt n = n := by
  obtain ⟨hlow, hhigh⟩ := h
  unfold intMin at hlow
  unfold intMax at hhigh
  exact Int.bmod_eq_of_le (by omega) (by omega)

/-- Every class modulo `2 ^ 32` has one integer of 32 bits. -/
theorem eq_wrapInt_of_modEq {m n : Int} (hm : Fits32 m) (h : m ≡ n [ZMOD 2 ^ 32]) :
    m = wrapInt n := by
  have hmod : m % (0x100000000 : Nat) = n % (0x100000000 : Nat) := h
  calc m = wrapInt m := (wrapInt_of_fits hm).symm
    _ = (m % (0x100000000 : Nat)).bmod 0x100000000 := (Int.emod_bmod m _).symm
    _ = (n % (0x100000000 : Nat)).bmod 0x100000000 := by rw [hmod]
    _ = wrapInt n := Int.emod_bmod n _

/-! ## Exact values -/

/-- The operation on unbounded integers that `+`, `-` or `*` stands for. -/
def ArithOp.exact? : ArithOp → Option (Int → Int → Int)
  | .add => some fun l r => l + r
  | .sub => some fun l r => l - r
  | .mul => some fun l r => l * r
  | _ => none

variable {op : ArithOp} {f : Int → Int → Int} {node : Node} {n : Int}

theorem intArithmetic_wrapInt (h : op.exact? = some f) (l r : Int) :
    intArithmetic op (wrapInt l) (wrapInt r) = .ok (.int (wrapInt (f l r))) := by
  have hadd : wrapInt (wrapInt l + wrapInt r) = wrapInt (l + r) :=
    Int.bmod_add_bmod.trans Int.add_bmod_bmod
  have hsub : wrapInt (wrapInt l - wrapInt r) = wrapInt (l - r) :=
    Int.bmod_sub_bmod.trans Int.sub_bmod_bmod
  have hmul : wrapInt (wrapInt l * wrapInt r) = wrapInt (l * r) :=
    Int.bmod_mul_bmod.trans Int.mul_bmod_bmod
  cases op <;> cases h <;> simp only [intArithmetic, hadd, hsub, hmul]

/-- The exact value of a tree of numbers under `+`, `-` and `*`. -/
def Node.integer? : Node → Option Int
  | .number n => some n
  | .binary left op right => do (← op.exact?) (← left.integer?) (← right.integer?)
  | _ => none

theorem Node.integer?_binary {left right : Node}
    (h : (Node.binary left op right).integer? = some n) :
    ∃ f l r, op.exact? = some f ∧ left.integer? = some l ∧ right.integer? = some r ∧ f l r = n := by
  simpa [Node.integer?, Option.bind_eq_some_iff] using h

/-- What holds of numbers, and of an operation if it holds of both operands, holds of every tree
that has an exact value. -/
theorem Node.integer_induction {P : Node → Int → Prop} (hnumber : ∀ n, P (.number n) n)
    (hbinary : ∀ {left op right f l r}, op.exact? = some f → P left l → P right r →
      P (.binary left op right) (f l r)) : ∀ {node n}, node.integer? = some n → P node n := by
  intro node
  induction node using Node.induction with
  | h node ih =>
    intro n h
    cases node with
    | number m =>
      cases h
      exact hnumber _
    | binary left op right =>
      obtain ⟨f, l, r, hop, hl, hr, rfl⟩ := Node.integer?_binary h
      exact hbinary hop (ih left (by simp [Node.children]) hl) (ih right (by simp [Node.children]) hr)
    | _ => cases h

/-! ## Evaluation -/

namespace Evaluator

theorem eval_integer (h : node.integer? = some n) :
    ∃ k, ∀ fuel frame s, k ≤ fuel →
      eval fuel frame node s = .ok (.int (wrapInt n)) s ∧ Portably fuel frame node s := by
  refine Node.integer_induction (P := fun node n => ∃ k, ∀ fuel frame s, k ≤ fuel →
    eval fuel frame node s = .ok (.int (wrapInt n)) s ∧ Portably fuel frame node s) ?_ ?_ h
  · intro n
    refine ⟨1, fun fuel frame s hfuel => ?_⟩
    obtain ⟨fuel, rfl⟩ := Nat.exists_eq_add_of_le' hfuel
    refine ⟨rfl, ?_⟩
    intro o ho
    obtain rfl := List.mem_singleton.mp ho
    trivial
  · rintro left op right f l r hop ⟨k, hl⟩ ⟨k', hr⟩
    refine ⟨max k k' + 1, fun fuel frame s hfuel => ?_⟩
    obtain ⟨fuel, rfl⟩ := Nat.exists_eq_add_of_le' (Nat.le_of_add_left_le hfuel)
    obtain ⟨el, pl⟩ := hl fuel frame s (by omega)
    obtain ⟨er, pr⟩ := hr fuel frame s (by omega)
    have heval : eval (fuel + 1) frame (.binary left op right) s =
        .ok (.int (wrapInt (f l r))) s := by
      have hvalue : (Value.int (wrapInt l)).arithmetic op (.int (wrapInt r)) =
          .ok (.int (wrapInt (f l r))) := intArithmetic_wrapInt hop l r
      have hsteps : (do
          let u ← eval fuel frame left
          let w ← eval fuel frame right
          ofExcept (u.arithmetic op w) : Eval Value) s = .ok (.int (wrapInt (f l r))) s := by
        rw [bind_ok el, bind_ok er, hvalue]
        rfl
      cases op with
      | other symbol => cases hop
      | _ => exact hsteps
    refine ⟨heval, List.forall_mem_append.mpr ⟨List.forall_mem_append.mpr ⟨pl, ?_⟩, ?_⟩⟩
    · rw [after_ok el]
      refine List.forall_mem_append.mpr ⟨pr, ?_⟩
      rw [after_ok er, if_neg (by rintro rfl; cases hop)]
      simp
    · rw [after_ok heval]
      intro o ho
      obtain rfl := List.mem_singleton.mp ho
      trivial

end Evaluator

/-! ## Generated code -/

namespace Lowering
open IR Machine

/-- Wherever the tree stands, its code is added to the block and gives an integer. -/
theorem lower_integer (h : node.integer? = some n) (earlier : Earlier) (scope : Scope) (s : State) :
    ∃ t s' code, lower earlier scope node s = .ok { value := some t } s' ∧ Appends code s s' ∧
      TypedFits s'.used t ∧ t.kind = .int := by
  refine Node.integer_induction (P := fun node _ => ∀ s, ∃ t s' code,
    lower earlier scope node s = .ok { value := some t } s' ∧ Appends code s s' ∧
      TypedFits s'.used t ∧ t.kind = .int) ?_ ?_ h s
  · intro n s
    exact ⟨_, s, [], rfl, .refl s, ⟨rfl, trivial⟩, rfl⟩
  · intro left op right f l r hop hl hr s
    obtain ⟨t, s1, code, h1, A1, F1, k1⟩ := hl s
    obtain ⟨t', s2, code', h2, A2, F2, k2⟩ := hr s1
    have hkind : (kindOf (some t)).arithmetic? op (kindOf (some t')) = some .int := by
      show t.kind.arithmetic? op t'.kind = some .int
      rw [k1, k2]
      rfl
    obtain ⟨u, s3, code'', h3, A3, F3, k3, -⟩ := int_arithmetic_spec (l := some t) (r := some t')
      (F1.mono A2.used) F2 hkind
    refine ⟨u, s3, _, ?_, (A1.trans A2).trans A3, F3, k3⟩
    have hsteps : (do
        let l ← lower earlier scope left
        let r ← lower earlier scope right
        return { value := some (← arithmetic l.value op r.value) } : Lower Lowered) s =
          .ok { value := some u } s3 := by
      rw [bind_ok h1, bind_ok h2, bind_ok h3]
      rfl
    cases op with
    | other symbol => cases hop
    | _ => exact hsteps

end Lowering

namespace Machine
open IR Lowering

variable {s : Session}

/-- Nothing but numbers and operators stands in the tree. -/
theorem shape_of_integer (h : node.integer? = some n) :
    ∀ t ∈ node.subtrees, t.shape = "Number" ∨ t.shape = "BinaryOp" := by
  refine Node.integer_induction (P := fun node _ => ∀ t ∈ node.subtrees,
    t.shape = "Number" ∨ t.shape = "BinaryOp") ?_ ?_ h
  · intro n t ht
    obtain rfl := List.mem_singleton.mp ht
    exact .inl rfl
  · intro left op right f l r _ hl hr t ht
    rcases List.mem_cons.mp ht with rfl | ht
    · exact .inr rfl
    · exact (List.mem_append.mp ht).elim (hl t) (hr t)

theorem isExpression_integer (h : node.integer? = some n) : node.isExpression = true := by
  refine List.all_eq_true.mpr fun t ht => ?_
  have hshape := shape_of_integer h t ht
  cases t <;> first | rfl | simp [Node.shape] at hshape

theorem avoids_integer (h : node.integer? = some n) :
    (Node.sequence [node]).Avoids ["Random", "FunctionDef", "FunctionCall"] := by
  intro t ht hm
  rw [Node.subtrees_eq, Node.children, List.flatMap_singleton] at ht
  rcases List.mem_cons.mp ht with rfl | ht
  · simp [Node.shape] at hm
  · rcases shape_of_integer h t ht with hs | hs <;> simp [hs] at hm

/-- No submission gives up the buffers that every session starts with. -/
theorem Session.Reachable.sound (h : s.Reachable) : s.Sound := by
  refine ⟨h.orderly, ?_⟩
  induction h with
  | start => exact ⟨rfl, rfl⟩
  | lower _ node ih =>
    rw [lower_eq]
    exact ih
  | @run s h fuel generator node ih =>
    have hkept := kept_memory_run h.orderly h.closed fuel generator node
    exact ⟨hkept.heap _ _ ih.text, hkept.heap _ _ ih.array⟩

/-- The code of a submission computes the value and prints nothing. -/
theorem run_integer (hs : s.Sound) (h : node.integer? = some n) (generator : Random.Generator) :
    ∃ k o, (∀ fuel, k ≤ fuel → s.run fuel generator (.sequence [node]) = o) ∧
      o.value = .ok (.int (wrapInt n)) ∧ o.out = "" := by
  let start := entryStart s.context s.entries s.slots (.sequence [node])
  have hexpression := isExpression_integer h
  have hcalls {name : String} {args : List Node}
      (hm : Node.call name args ∈ (Node.sequence [node]).subtrees) : False :=
    avoids_integer h _ hm (by simp [Node.shape])
  have hr : Regular (emitEarlier s.context.functions.entries.length) s.context.functions
      (.sequence [node]) := by
    refine ⟨?_, (avoids_integer h).mono (by decide), fun _ _ hm => (hcalls hm).elim⟩
    simpa [Node.isStatement, Node.areStatements] using Node.isStatement_of_isExpression hexpression
  obtain ⟨t, s1, code, hl, A, -⟩ := lower_integer h (emitEarlier s.context.functions.entries.length)
    {} start
  have hnovel (new : List Slot) (hd : Declares start s1 new) : Novel start new := by
    obtain rfl : new = [] := by simpa [A.declares.created] using hd.created
    exact ⟨List.nodup_nil, by simp⟩
  -- the variables do not matter: the evaluator may start without any
  let st : Evaluator.State := { generator }
  obtain ⟨k, heval⟩ := Evaluator.eval_integer h
  obtain ⟨hev, hport⟩ := heval k {} st le_rfl
  have hevs : Evaluator.eval (k + 1) {} (.sequence [node]) st = .ok (.int (wrapInt n)) st :=
    bind_ok hev
  have hports : Evaluator.Portably (k + 1) {} (.sequence [node]) st := by
    refine List.forall_mem_append.mpr ⟨List.forall_mem_append.mpr ⟨hport, ?_⟩, ?_⟩
    · rw [Evaluator.after_ok hev]
      simp [Evaluator.observeAll]
    · rw [Evaluator.after_ok hevs]
      simp [Evaluator.Observation.Portable, Value.Portable]
  obtain ⟨k', u, ran, o, hrun, hvalue, hout, -, -, -, -, htells, -⟩ :=
    regular_agreement hs hr (bind_ok hl) hnovel (fun x sym v _ hv => by cases hv)
      (fun x v hv => by cases hv) hevs hports (fun _ _ _ _ _ _ _ hm => (hcalls hm).elim) generator
  have hends : (Node.sequence [node]).endsInValue = true := by
    cases node with
    | number | binary => exact hexpression
    | _ => cases h
  obtain ⟨htelling, hexact⟩ := Node.telling_of_endsInValue hends
  refine ⟨k', o, hrun, ?_, ?_⟩
  · rw [hvalue, ← htells.value htelling (.inr hexact)]
  · simpa [st] using hout.symm

end Machine

/-! ## Division -/

theorem fits32_tdiv {a b : Int} (ha : Fits32 a) (hb : b ≠ 0) (h : ¬ (a = intMin ∧ b = -1)) :
    Fits32 (a.tdiv b) := by
  have hbound : (a.tdiv b).natAbs ≤ a.natAbs := Int.natAbs_tdiv_le_natAbs a b
  -- only the least integer has no opposite, and only the divisors 1 and -1 keep its magnitude
  have hhalf : b = 1 ∨ b = -1 ∨ 2 * (a.tdiv b).natAbs ≤ a.natAbs := by
    by_cases hone : b.natAbs = 1
    · omega
    · have htwo : 2 ≤ b.natAbs := by omega
      refine .inr (.inr ?_)
      calc 2 * (a.tdiv b).natAbs ≤ b.natAbs * (a.tdiv b).natAbs := Nat.mul_le_mul_right _ htwo
        _ = b.natAbs * (a.natAbs / b.natAbs) := by rw [Int.natAbs_tdiv]; rfl
        _ ≤ a.natAbs := Nat.mul_div_le _ _
  unfold Fits32 intMin intMax at *
  rcases hhalf with rfl | rfl | hhalf
  · rwa [Int.tdiv_one]
  · rw [Int.tdiv_neg, Int.tdiv_one]
    omega
  · omega

theorem divideInt_eq {a b : Int} (ha : Fits32 a) (hb : b ≠ 0) :
    divideInt a b = if a = intMin ∧ b = -1 then intMin else a.tdiv b := by
  split
  · rename_i h
    obtain ⟨rfl, rfl⟩ := h
    decide
  · rename_i h
    exact wrapInt_of_fits (fits32_tdiv ha hb h)

/-- The remainder of a truncated quotient has the sign of the dividend. -/
theorem divideInt_remainder {a b : Int} (hb : b ≠ 0) :
    divideInt a b * b + a.tmod b ≡ a [ZMOD 2 ^ 32] ∧ |a.tmod b| < |b| ∧
      (a.tmod b = 0 ∨ (a.tmod b).sign = a.sign) := by
  refine ⟨?_, ?_, ?_⟩
  · calc divideInt a b * b + a.tmod b
        ≡ a.tdiv b * b + a.tmod b [ZMOD 2 ^ 32] := ((wrapInt_modEq _).mul_right b).add_right _
      _ = a := Int.tdiv_mul_add_tmod a b
  · rw [Int.abs_eq_natAbs, Int.abs_eq_natAbs, Int.natAbs_tmod]
    exact_mod_cast Nat.mod_lt _ (Int.natAbs_pos.mpr hb)
  · rw [Int.sign_tmod]
    split
    · rename_i hdvd
      exact .inl (Int.tmod_eq_zero_of_dvd hdvd)
    · exact .inr rfl

/-- Both engines compute a tree of numbers under `+`, `-` and `*` exactly modulo `2 ^ 32`: the value
is the one integer of 32 bits that agrees with the exact value. A quotient of integers of 32 bits is
truncated toward zero, or the least integer where that has no 32 bits; the remainder left by it has
the sign of the dividend and is smaller than the divisor. -/
theorem arithmetic_exact_modulo :
    (∀ node n, node.integer? = some n → ∃ m,
      (Fits32 m ∧ m ≡ n [ZMOD 2 ^ 32] ∧ ∀ m', Fits32 m' → m' ≡ n [ZMOD 2 ^ 32] → m' = m) ∧
      (∃ k, ∀ fuel frame st, k ≤ fuel → Evaluator.eval fuel frame node st = .ok (.int m) st) ∧
      ∀ (s : Machine.Session) generator, s.Reachable → ∃ k o,
        (∀ fuel, k ≤ fuel → s.run fuel generator (.sequence [node]) = o) ∧
        o.value = .ok (.int m) ∧ o.out = "") ∧
    ∀ a b, Fits32 a → Fits32 b → b ≠ 0 →
      (Value.int a).divideChecked (.int b) = .ok (divideInt a b) ∧
      divideInt a b = (if a = intMin ∧ b = -1 then intMin else a.tdiv b) ∧
      ∃ r, divideInt a b * b + r ≡ a [ZMOD 2 ^ 32] ∧ |r| < |b| ∧ (r = 0 ∨ r.sign = a.sign) := by
  refine ⟨fun node n h => ⟨wrapInt n, ⟨fits32_wrapInt n, wrapInt_modEq n, fun m' =>
    eq_wrapInt_of_modEq⟩, ?_, fun s generator hs => Machine.run_integer hs.sound h generator⟩,
    fun a b ha _ hb => ⟨?_, divideInt_eq ha hb, _, divideInt_remainder hb⟩⟩
  · obtain ⟨k, heval⟩ := Evaluator.eval_integer h
    exact ⟨k, fun fuel frame st hk => (heval fuel frame st hk).1⟩
  · exact if_neg hb

/-- A product far beyond 32 bits, and the quotient that has no 32 bits. -/
theorem overflowing_product_wraps :
    let product : Node :=
      .binary (.binary (.number 2147483647) .add (.number 2)) .mul (.number 3000000000)
    (∃ k, ∀ fuel frame st, k ≤ fuel →
      Evaluator.eval fuel frame product st = .ok (.int (-1294967296)) st) ∧
    (∀ generator, ∃ k o,
      (∀ fuel, k ≤ fuel → ({} : Machine.Session).run fuel generator (.sequence [product]) = o) ∧
      o.value = .ok (.int (-1294967296)) ∧ o.out = "") ∧
    divideInt intMin (-1) = intMin := by
  intro product
  obtain ⟨htrees, hquotients⟩ := arithmetic_exact_modulo
  obtain ⟨m, ⟨-, -, hunique⟩, heval, hrun⟩ := htrees product 6442450947000000000 rfl
  obtain rfl : -1294967296 = m := hunique _ (by decide) (by decide)
  have hquotient := hquotients intMin (-1) (by decide) (by decide) (by decide)
  exact ⟨heval, fun generator => hrun {} generator .start,
    hquotient.2.1.trans (if_pos ⟨rfl, rfl⟩)⟩

end DualEngine
