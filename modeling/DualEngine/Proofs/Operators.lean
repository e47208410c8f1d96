import DualEngine.Proofs.Coercions
import DualEngine.Value.Operation

/-! # Operators in generated code

The code of an operator gives what the operator on values gives, whenever the operands are of kinds
that it takes. Machine integers wrap as the values do; only the quotient of the least integer by
minus one has no meaning for the machine.
-/
namespace DualEngine

namespace Lowering
open IR Machine

variable {image : Image} {s : State} {l r : Option Typed} {k k' : Kind} {u v v' : Value}

theorem toInt_wrapInt (n : Int) : (Int32.ofInt n).toInt = wrapInt n := Int32.toInt_ofInt

/-- Machine arithmetic on integers. -/
theorem binary_intOp {op : ArithOp} {i j : Int32} (h : intArithmetic op i.toInt j.toInt = .ok u)
    (hover : op = .div → (Value.int i.toInt).overflows (.int j.toInt) = false)
    (st : Machine.State) :
    ∃ k : Int32, binary (intOp op).1 (.int i) (.int j) st = .ok (.int k) st ∧ u = .int k.toInt := by
  cases op with
  | add =>
    simp only [intArithmetic, Except.ok.injEq] at h
    exact ⟨i + j, rfl, by rw [← h, Int32.toInt_add]; rfl⟩
  | sub =>
    simp only [intArithmetic, Except.ok.injEq] at h
    exact ⟨i - j, rfl, by rw [← h, Int32.toInt_sub]; rfl⟩
  | mul =>
    simp only [intArithmetic, Except.ok.injEq] at h
    exact ⟨i * j, rfl, by rw [← h, Int32.toInt_mul]; rfl⟩
  | div =>
    simp only [intArithmetic] at h
    split at h
    · cases h
    · rename_i hzero
      have hdefined : undefinedQuotient i j = false := by
        have hj : (j == 0) = false := by
          rw [beq_toInt]
          simpa using hzero
        have hmin : (i == Int32.minValue && j == -1) = false := by
          rw [beq_toInt, beq_toInt]
          exact hover rfl
        simp only [undefinedQuotient, hj, hmin, Bool.or_false]
      simp only [Except.ok.injEq] at h
      refine ⟨i / j, ?_, by rw [← h, Int32.toInt_div]; rfl⟩
      show (if undefinedQuotient i j then trap .division else pure (Word.int (i / j)) : Run Word) st = _
      rw [hdefined]
      rfl
  | other symbol => simp [intArithmetic] at h

theorem binary_floatOp {op : ArithOp} {x y : Float} (h : floatArithmetic op x y = .ok u)
    (st : Machine.State) :
    ∃ z, binary (floatOp op).1 (.double x) (.double y) st = .ok (.double z) st ∧ u = .float z := by
  cases op with
  | add => exact ⟨x + y, rfl, by simpa [floatArithmetic] using h.symm⟩
  | sub => exact ⟨x - y, rfl, by simpa [floatArithmetic] using h.symm⟩
  | mul => exact ⟨x * y, rfl, by simpa [floatArithmetic] using h.symm⟩
  | div =>
    simp only [floatArithmetic] at h
    split at h
    · cases h
    · exact ⟨x / y, rfl, by simpa using h.symm⟩
  | other symbol => simp [floatArithmetic] at h

/-! ## Kinds of operands and results -/

theorem arithmetic_string {op : ArithOp} (hk : v.kind.arithmetic? op v'.kind = some .string)
    (h : v.arithmetic op v' = .ok u) : u = .string (v.text ++ v'.text) := by
  cases v <;> cases v' <;>
    simp_all [Value.kind, Kind.arithmetic?, Kind.isNumeric, Kind.promote, Kind.isScalar,
      Value.arithmetic, joinTexts]

theorem arithmetic_float {op : ArithOp} (hk : v.kind.arithmetic? op v'.kind = some .float) :
    ∃ x y, v.coerce .float = .float x ∧ v'.coerce .float = .float y ∧
      v.arithmetic op v' = floatArithmetic op x y := by
  cases v <;> cases v' <;>
    simp_all [Value.kind, Kind.arithmetic?, Kind.isNumeric, Kind.promote, Kind.isScalar,
      Value.arithmetic, Value.coerce]

theorem arithmetic_int {op : ArithOp} (hk : v.kind.arithmetic? op v'.kind = some .int) :
    ∃ m n, v = .int m ∧ v' = .int n := by
  cases v <;> cases v' <;>
    simp_all [Value.kind, Kind.arithmetic?, Kind.isNumeric, Kind.promote, Kind.isScalar]

theorem numeric_of_arithmetic? {result : Kind} {op : ArithOp}
    (h : k.arithmetic? op k' = some result) (hr : result ≠ .string) :
    k.isNumeric = true ∧ k'.isNumeric = true ∧ result = k.promote k' := by
  unfold Kind.arithmetic? at h
  split at h
  · simp_all
  · split at h
    · split at h
      · simp_all
      · cases h
    · cases h

theorem arithmetic?_ne_none {op : ArithOp} : k.arithmetic? op k' ≠ some .none := by
  intro h
  have hp := (numeric_of_arithmetic? h (by simp)).2.2
  unfold Kind.promote at hp
  split at hp <;> simp at hp

theorem scalar_of_arithmetic? {result : Kind} {op : ArithOp}
    (h : k.arithmetic? op k' = some result) : k.isScalar = true ∧ k'.isScalar = true := by
  unfold Kind.arithmetic? at h
  split at h
  · cases k <;> cases k' <;> simp_all [Kind.isNumeric, Kind.isScalar]
  · split at h
    · split at h
      · simp_all
      · cases h
    · cases h

theorem int_of_promote (h : k.isNumeric = true) (h' : k'.isNumeric = true)
    (hp : k.promote k' = .int) : k = .int ∧ k' = .int := by
  cases k <;> cases k' <;> simp_all [Kind.isNumeric, Kind.promote]

theorem kindOf_eq_some {r : Option Typed} (h : kindOf r ≠ .none) : ∃ t, r = some t := by
  cases r with
  | none => exact absurd rfl h
  | some t => exact ⟨t, rfl⟩

/-! ## Arithmetic -/

theorem joined_arithmetic_spec {op : ArithOp} (hl : ResultFits s.used l) (hr : ResultFits s.used r)
    (hk : (kindOf l).arithmetic? op (kindOf r) = some .string) :
    ∃ t s' code, arithmetic l op r s = .ok t s' ∧ Appends code s s' ∧ TypedFits s'.used t ∧
      t.kind = .string ∧
      ∀ image a v v' u, Serves image a.memory s'.globals → CarriesResult image a l v →
        CarriesResult image a r v' → v.Portable → v'.Portable → v.arithmetic op v' = .ok u →
        u.Portable → ∃ b, Computes image s.used code a b ∧ Carries image b t u := by
  obtain ⟨hsl, hsr⟩ := scalar_of_arithmetic? hk
  obtain ⟨o, s1, code, h1, A1, F1, run1⟩ := concat_spec hl hr
    (by intro h; simp [h, Kind.isScalar] at hsl) (by intro h; simp [h, Kind.isScalar] at hsr)
  refine ⟨⟨o, .string⟩, s1, code, ?_, A1, F1, rfl, ?_⟩
  · unfold arithmetic
    rw [hk]
    exact (bind_ok h1).trans rfl
  · intro image a v v' u hs hc hc' hp hp' hu hpu
    rw [hc.kindOf, hc'.kindOf] at hk
    obtain rfl := arithmetic_string hk hu
    obtain ⟨b, address, C, g, ht⟩ := run1 image a v v' hs hc hc' hp hp' hpu
    exact ⟨b, C, rfl, _, g, holds_string.mpr ⟨address, rfl, ht⟩, by simp [Value.kind]⟩

theorem float_arithmetic_spec {op : ArithOp} (hl : ResultFits s.used l) (hr : ResultFits s.used r)
    (hk : (kindOf l).arithmetic? op (kindOf r) = some .float) :
    ∃ t s' code, arithmetic l op r s = .ok t s' ∧ Appends code s s' ∧ TypedFits s'.used t ∧
      t.kind = .float ∧
      ∀ image a v v' u, CarriesResult image a l v → CarriesResult image a r v' →
        v.arithmetic op v' = .ok u → ∃ b, Computes image s.used code a b ∧ Carries image b t u := by
  obtain ⟨hnl, hnr, -⟩ := numeric_of_arithmetic? hk (by simp)
  obtain ⟨tl, rfl⟩ := kindOf_eq_some (r := l) (by intro h; simp [h, Kind.isNumeric] at hnl)
  obtain ⟨tr, rfl⟩ := kindOf_eq_some (r := r) (by intro h; simp [h, Kind.isNumeric] at hnr)
  have hkind {t : Typed} (h : (kindOf (some t)).isNumeric = true) :
      t.kind = .int ∨ t.kind = .float ∨ t.kind = .bool := by
    obtain ⟨o, k⟩ := t
    cases k <;> simp_all [kindOf, Kind.isNumeric]
  obtain ⟨x, s1, c₁, h1, A1, F1, run1⟩ := toFloat_spec hl (hkind hnl)
  obtain ⟨y, s2, c₂, h2, A2, F2, run2⟩ := toFloat_spec (Fits.mono hr A1.used) (hkind hnr)
  obtain ⟨z, s3, h3, A3, hz⟩ := emit_spec s2 (.binary (floatOp op).1 x y) (floatOp op).2
    (by simp [Operation.misfit?, F1.type, F2.type])
  refine ⟨⟨.register z x.type, .float⟩, s3, _, ?_, (A1.trans A2).trans A3, ⟨F1.type, hz⟩, rfl, ?_⟩
  · unfold arithmetic
    rw [hk]
    exact (bind_ok h1).trans ((bind_ok h2).trans ((bind_ok h3).trans rfl))
  · intro image a v v' u hc hc' hu
    rw [hc.kindOf, hc'.kindOf] at hk
    obtain ⟨p, q, hp, hq, hfloat⟩ := arithmetic_float hk
    obtain ⟨b1, p', C₁, g1, hp'⟩ := run1 image a v hc
    obtain ⟨b2, q', C₂, g2, hq'⟩ := run2 image b1 v' (Carries.keep hc' hr C₁.quiet)
    obtain rfl : p' = p := by simpa [hp] using hp'.symm
    obtain rfl : q' = q := by simpa [hq] using hq'.symm
    rw [hfloat] at hu
    obtain ⟨w, hw, rfl⟩ := binary_floatOp hu b2.state
    have hx := g1.keep F1.known C₂.quiet.registers
    refine ⟨_, (C₁.append C₂ A1.used).append (computes_set A3 (runs_binary hx g2 hw))
      (fun z hz => A2.used (A1.used hz)), rfl, _, gives_set _ _ _ _, ?_, by simp [Value.kind]⟩
    exact holds_float.mpr rfl

theorem int_arithmetic_spec {op : ArithOp} (hl : ResultFits s.used l) (hr : ResultFits s.used r)
    (hk : (kindOf l).arithmetic? op (kindOf r) = some .int) :
    ∃ t s' code, arithmetic l op r s = .ok t s' ∧ Appends code s s' ∧ TypedFits s'.used t ∧
      t.kind = .int ∧
      ∀ image a v v' u, CarriesResult image a l v → CarriesResult image a r v' →
        v.arithmetic op v' = .ok u → (op = .div → v.overflows v' = false) →
        ∃ b, Computes image s.used code a b ∧ Carries image b t u := by
  obtain ⟨hnl, hnr, hpromote⟩ := numeric_of_arithmetic? hk (by simp)
  obtain ⟨tl, rfl⟩ := kindOf_eq_some (r := l) (by intro h; simp [h, Kind.isNumeric] at hnl)
  obtain ⟨tr, rfl⟩ := kindOf_eq_some (r := r) (by intro h; simp [h, Kind.isNumeric] at hnr)
  have hkl : tl.kind = .int ∧ tr.kind = .int := int_of_promote hnl hnr hpromote.symm
  have htl : tl.operand.type = .i32 := by rw [Fits.type hl, hkl.1]; rfl
  have htr : tr.operand.type = .i32 := by rw [Fits.type hr, hkl.2]; rfl
  obtain ⟨z, s1, h1, A1, hz⟩ := emit_spec s (.binary (intOp op).1 tl.operand tr.operand)
    (intOp op).2 (by simp [Operation.misfit?, htl, htr])
  refine ⟨⟨.register z tl.operand.type, .int⟩, s1, _, ?_, A1, ⟨htl, hz⟩, rfl, ?_⟩
  · unfold arithmetic
    rw [hk]
    exact (bind_ok h1).trans rfl
  · intro image a v v' u hc hc' hu hover
    rw [hc.kindOf, hc'.kindOf] at hk
    obtain ⟨m, n, rfl, rfl⟩ := arithmetic_int hk
    obtain ⟨-, w, hg, hw⟩ := hc
    obtain ⟨-, w', hg', hw'⟩ := hc'
    obtain ⟨i, rfl, rfl⟩ := holds_int.mp hw.1
    obtain ⟨j, rfl, rfl⟩ := holds_int.mp hw'.1
    obtain ⟨k, hbinary, rfl⟩ := binary_intOp hu hover a.state
    exact ⟨_, computes_set A1 (runs_binary hg hg' hbinary), rfl, _, gives_set _ _ _ _,
      holds_int.mpr ⟨k, rfl, rfl⟩, by simp [Value.kind]⟩

/-- The code of an arithmetic operator. -/
theorem arithmetic_spec {op : ArithOp} (hl : ResultFits s.used l) (hr : ResultFits s.used r)
    (hk : (kindOf l).arithmetic? op (kindOf r) = some k) :
    ∃ t s' code, arithmetic l op r s = .ok t s' ∧ Appends code s s' ∧ TypedFits s'.used t ∧
      t.kind = k ∧
      ∀ image a v v' u, Serves image a.memory s'.globals → CarriesResult image a l v →
        CarriesResult image a r v' → v.Portable → v'.Portable → v.arithmetic op v' = .ok u →
        u.Portable → (op = .div → v.overflows v' = false) →
        ∃ b, Computes image s.used code a b ∧ Carries image b t u := by
  by_cases hstring : k = .string
  · subst hstring
    obtain ⟨t, s1, code, h1, A1, F1, hkind, run1⟩ := joined_arithmetic_spec hl hr hk
    exact ⟨t, s1, code, h1, A1, F1, hkind, fun image a v v' u hs hc hc' hp hp' hu hpu _ =>
      run1 image a v v' u hs hc hc' hp hp' hu hpu⟩
  obtain ⟨-, -, hpromote⟩ := numeric_of_arithmetic? hk hstring
  unfold Kind.promote at hpromote
  split at hpromote
  · subst hpromote
    obtain ⟨t, s1, code, h1, A1, F1, hkind, run1⟩ := float_arithmetic_spec hl hr hk
    exact ⟨t, s1, code, h1, A1, F1, hkind, fun image a v v' u _ hc hc' _ _ hu _ _ =>
      run1 image a v v' u hc hc' hu⟩
  · subst hpromote
    obtain ⟨t, s1, code, h1, A1, F1, hkind, run1⟩ := int_arithmetic_spec hl hr hk
    exact ⟨t, s1, code, h1, A1, F1, hkind, fun image a v v' u _ hc hc' _ _ hu _ hover =>
      run1 image a v v' u hc hc' hu hover⟩

theorem arithmetic_inv {op : ArithOp} {t : Typed} {s' : State} (h : arithmetic l op r s = .ok t s') :
    ∃ k, (kindOf l).arithmetic? op (kindOf r) = some k := by
  cases hk : (kindOf l).arithmetic? op (kindOf r) with
  | some k => exact ⟨k, rfl⟩
  | none =>
    simp only [arithmetic, hk] at h
    cases h

/-! ## Comparison -/

theorem testInts_intTest {op : CompareOp} (hop : ∀ symbol, op ≠ .other symbol) (i j : Int32) :
    testInts (intTest op) i j = compareInts op i.toInt j.toInt := by
  cases op with
  | lt | gt => exact decide_eq_decide.mpr Int32.lt_iff_toInt_lt
  | le | ge => exact decide_eq_decide.mpr Int32.le_iff_toInt_le
  | eq => exact beq_toInt i j
  | ne => exact bne_toInt i j
  | other symbol => exact absurd rfl (hop symbol)

theorem testFloats_floatTest {op : CompareOp} (hop : ∀ symbol, op ≠ .other symbol) (x y : Float) :
    testFloats (floatTest op) x y = compareFloats op x y := by
  cases op with
  | other symbol => exact absurd rfl (hop symbol)
  | _ => rfl

/-- Two texts are in neither order exactly if they are equal. -/
theorem orderWord_eq (t t' : String) :
    ∃ i : Int32, orderWord t t' = .int i ∧ (i == 0) = (t == t') := by
  unfold orderWord
  by_cases hlt : t < t'
  · refine ⟨-1, by simp [hlt], ?_⟩
    have hne : t ≠ t' := fun h => absurd hlt (h ▸ String.lt_irrefl t)
    simp only [beq_eq_false_iff_ne.mpr hne]
    decide
  · by_cases hgt : t' < t
    · refine ⟨1, by simp [hlt, hgt], ?_⟩
      have hne : t ≠ t' := fun h => absurd hgt (h ▸ String.lt_irrefl t)
      simp only [beq_eq_false_iff_ne.mpr hne]
      decide
    · refine ⟨0, by simp [hlt, hgt], ?_⟩
      have heq : t = t' := String.le_antisymm hgt hlt
      simp [heq]

theorem compare_float (op : CompareOp) (hn : v.kind.isNumeric = true)
    (hn' : v'.kind.isNumeric = true) (hf : v.kind = .float ∨ v'.kind = .float) :
    ∃ x y, v.coerce .float = .float x ∧ v'.coerce .float = .float y ∧
      v.compare op v' = .ok (compareFloats op x y) := by
  cases v <;> cases v' <;>
    simp_all [Value.kind, Kind.isNumeric, Value.compare, Value.coerce]

theorem compare_text {op : CompareOp} {bit : Bool}
    (hn : (v.kind.isNumeric && v'.kind.isNumeric) = false)
    (hk : v.kind.comparable op v'.kind = true) (h : v.compare op v' = .ok bit) :
    op = .eq ∧ bit = (v.text == v'.text) ∨ op = .ne ∧ bit = (v.text != v'.text) := by
  have htexts : compareTexts v op v' = .ok bit := by
    cases v <;> cases v' <;> simp_all [Value.kind, Kind.isNumeric, Value.compare]
  simp only [Kind.comparable, hn] at hk
  cases op <;> simp_all [compareTexts, CompareOp.isEquality]

/-- Code for a comparison of two operands. -/
def Compares (s : State) (l : Typed) (op : CompareOp) (r : Typed) : Prop :=
  ∃ o s' code, comparison (some l) op (some r) s = .ok ⟨o, .bool⟩ s' ∧ Appends code s s' ∧
    Fits o .i1 s'.used ∧
    ∀ image a v v' bit, Serves image a.memory s'.globals → Carries image a l v →
      Carries image a r v' → v.Portable → v'.Portable → v.compare op v' = .ok bit →
      ∃ b, Computes image s.used code a b ∧ Gives image b.frame o (.bit bit)

section Comparison
variable {tl tr : Typed} {op : CompareOp}

theorem compares_floats (hop : ∀ symbol, op ≠ .other symbol) (hl : TypedFits s.used tl)
    (hr : TypedFits s.used tr) (hn : tl.kind.isNumeric = true) (hn' : tr.kind.isNumeric = true)
    (hf : tl.kind = .float ∨ tr.kind = .float) : Compares s tl op tr := by
  have hkind {t : Typed} (h : t.kind.isNumeric = true) :
      t.kind = .int ∨ t.kind = .float ∨ t.kind = .bool := by
    obtain ⟨o, k⟩ := t
    cases k <;> simp_all [Kind.isNumeric]
  obtain ⟨x, s1, c₁, h1, A1, F1, run1⟩ := toFloat_spec hl (hkind hn)
  obtain ⟨y, s2, c₂, h2, A2, F2, run2⟩ := toFloat_spec (Fits.mono hr A1.used) (hkind hn')
  obtain ⟨z, s3, h3, A3, hz⟩ := emit_spec s2 (.fcmp (floatTest op) x y) "fcmptmp" rfl
  refine ⟨.register z .i1, s3, _, ?_, (A1.trans A2).trans A3, ⟨rfl, hz⟩, ?_⟩
  · have hcomparable : (kindOf (some tl)).comparable op (kindOf (some tr)) = true := by
      simp [kindOf, Kind.comparable, hn, hn']
    unfold comparison
    rw [hcomparable]
    simp only [hn, hn', Bool.and_self, if_true, hf]
    exact (bind_ok h1).trans ((bind_ok h2).trans ((bind_ok h3).trans rfl))
  · intro image a v v' bit hs hc hc' _ _ hbit
    obtain ⟨p, q, hp, hq, hcompare⟩ := compare_float op (hc.1 ▸ hn) (hc'.1 ▸ hn')
      (hc.1 ▸ hc'.1 ▸ hf)
    obtain ⟨b1, p', C₁, g1, hp'⟩ := run1 image a v hc
    obtain ⟨b2, q', C₂, g2, hq'⟩ := run2 image b1 v' (hc'.keep hr C₁.quiet)
    obtain rfl : p' = p := by simpa [hp] using hp'.symm
    obtain rfl : q' = q := by simpa [hq] using hq'.symm
    rw [hcompare, Except.ok.injEq, ← testFloats_floatTest hop] at hbit
    subst hbit
    exact ⟨_, (C₁.append C₂ A1.used).append
      (computes_set A3 (runs_fcmp (g1.keep F1.known C₂.quiet.registers) g2 rfl))
      (fun z hz => A2.used (A1.used hz)), gives_set _ _ _ _⟩

theorem compares_ints (hop : ∀ symbol, op ≠ .other symbol) (hn : tl.kind = .int)
    (hn' : tr.kind = .int) : Compares s tl op tr := by
  obtain ⟨z, s1, h1, A1, hz⟩ := emit_spec s
    (.icmp (intTest op) tl.operand tr.operand) "cmptmp" rfl
  refine ⟨.register z .i1, s1, _, ?_, A1, ⟨rfl, hz⟩, ?_⟩
  · have hcomparable : (kindOf (some tl)).comparable op (kindOf (some tr)) = true := by
      simp [kindOf, Kind.comparable, hn, hn', Kind.isNumeric]
    unfold comparison
    rw [hcomparable]
    simp only [hn, hn', Kind.isNumeric, Bool.and_self, if_true]
    exact (bind_ok h1).trans rfl
  · intro image a v v' bit hs hc hc' _ _ hbit
    obtain ⟨hk, w, hg, hw⟩ := hc
    obtain ⟨hk', w', hg', hw'⟩ := hc'
    rw [hn] at hk
    rw [hn'] at hk'
    cases v with
    | int m =>
      cases v' with
      | int n =>
        obtain ⟨i, rfl, rfl⟩ := holds_int.mp hw.1
        obtain ⟨j, rfl, rfl⟩ := holds_int.mp hw'.1
        simp only [Value.compare, Except.ok.injEq] at hbit
        rw [← testInts_intTest hop] at hbit
        subst hbit
        exact ⟨_, computes_set A1 (runs_icmp hg hg' rfl), gives_set _ _ _ _⟩
      | _ => simp [Value.kind] at hk'
    | _ => simp [Value.kind] at hk

theorem compares_bools (hn : tl.kind = .bool) (hn' : tr.kind = .bool)
    (hk : tl.kind.comparable op tr.kind = true) : Compares s tl op tr := by
  obtain ⟨z, s1, h1, A1, hz⟩ := emit_spec s
    (.icmp (intTest op) tl.operand tr.operand) "boolcmp" rfl
  refine ⟨.register z .i1, s1, _, ?_, A1, ⟨rfl, hz⟩, ?_⟩
  · have hcomparable : (kindOf (some tl)).comparable op (kindOf (some tr)) = true := hk
    unfold comparison
    rw [hcomparable]
    simp only [hn, hn', Kind.isNumeric]
    exact (bind_ok h1).trans rfl
  · intro image a v v' bit hs hc hc' _ _ hbit
    have hnumeric : (v.kind.isNumeric && v'.kind.isNumeric) = false := by
      rw [← hc.1, hn]
      rfl
    rw [hc.1, hc'.1] at hk
    have hop := compare_text hnumeric hk hbit
    obtain ⟨hk, w, hg, hw⟩ := hc
    obtain ⟨hk', w', hg', hw'⟩ := hc'
    rw [hn] at hk
    rw [hn'] at hk'
    cases v with
    | bool p =>
      cases v' with
      | bool q =>
        obtain rfl := holds_bool.mp hw.1
        obtain rfl := holds_bool.mp hw'.1
        have hicmp : icmp (intTest op) (.bit p) (.bit q) a.state = .ok (.bit bit) a.state := by
          rcases hop with ⟨rfl, rfl⟩ | ⟨rfl, rfl⟩ <;> cases p <;> cases q <;> rfl
        exact ⟨_, computes_set A1 (runs_icmp hg hg' hicmp), gives_set _ _ _ _⟩
      | _ => simp [Value.kind] at hk'
    | _ => simp [Value.kind] at hk

theorem compares_texts (hl : TypedFits s.used tl) (hr : TypedFits s.used tr)
    (hn : (tl.kind.isNumeric && tr.kind.isNumeric) = false)
    (hb : ¬ (tl.kind = .bool ∧ tr.kind = .bool)) (hk : tl.kind.comparable op tr.kind = true) :
    Compares s tl op tr := by
  have hscalar : tl.kind.isScalar = true ∧ tr.kind.isScalar = true := by
    have hk' := hk
    simp only [Kind.comparable, hn] at hk'
    simpa using (by simpa using hk' : _ ∧ _).2
  obtain ⟨x, s1, c₁, h1, A1, F1, run1⟩ := textOf_spec hl hscalar.1
  obtain ⟨y, s2, c₂, h2, A2, F2, run2⟩ := textOf_spec (Fits.mono hr A1.used) hscalar.2
  obtain ⟨order, s3, h3, A3, horder⟩ := emit_spec s2 (.call strcmp [x, y]) "strcmp"
    (argumentMisfit?_append 1 [x, y] []
      (by rw [List.map_cons, List.map_cons, F1.type, F2.type]; rfl))
  obtain ⟨z, s4, h4, A4, hz⟩ := emit_spec s3
    (.icmp (intTest op) (.register order .i32) (int32 0)) "strcmptmp" rfl
  refine ⟨.register z .i1, s4, _, ?_, ((A1.trans A2).trans A3).trans A4, ⟨rfl, hz⟩, ?_⟩
  · have hcomparable : (kindOf (some tl)).comparable op (kindOf (some tr)) = true := hk
    unfold comparison
    rw [hcomparable]
    simp only [hn, if_neg hb]
    exact (bind_ok h1).trans ((bind_ok h2).trans ((bind_ok h3).trans ((bind_ok h4).trans rfl)))
  · intro image a v v' bit hs hc hc' hp hp' hbit
    have S2 := A3.serves (A4.serves hs)
    obtain ⟨b1, p, C₁, g1, t1, -⟩ := run1 image a v (A2.serves S2) hc
    obtain ⟨b2, q, C₂, g2, t2, -⟩ := run2 image b1 v' (S2.extend C₁.quiet.heap)
      (hc'.keep hr C₁.quiet)
    rw [written_of_portable hp] at t1
    rw [written_of_portable hp'] at t2
    obtain ⟨i, hi, hzero⟩ := orderWord_eq v.text v'.text
    have hstrcmp : Runs image _ _ _ := runs_strcmp (x := order) (hs.library _ (by simp [library]))
      (.cons (g1.keep F1.known C₂.quiet.registers) (.cons g2 .nil)) (C₂.quiet.heap.text? t1) t2
    rw [hi] at hstrcmp
    have hicmp : icmp (intTest op) (.int i) (.int (Int32.ofInt 0)) b2.state =
        .ok (.bit bit) b2.state := by
      rw [hc.1, hc'.1] at hn hk
      rcases compare_text hn hk hbit with ⟨rfl, rfl⟩ | ⟨rfl, rfl⟩
      · rw [← hzero]
        rfl
      · rw [bne, ← hzero]
        rfl
    exact ⟨_, ((C₁.append C₂ A1.used).append (computes_set A3 hstrcmp)
      (fun z hz => A2.used (A1.used hz))).append
        (computes_set A4 (runs_icmp (gives_set b2 order .i32 (.int i)) (gives_int32 0) hicmp))
        (fun z hz => A3.used (A2.used (A1.used hz))), gives_set _ _ _ _⟩

/-- The code of a comparison. -/
theorem comparison_spec (hop : ∀ symbol, op ≠ .other symbol) (hl : TypedFits s.used tl)
    (hr : TypedFits s.used tr) (hk : tl.kind.comparable op tr.kind = true) :
    Compares s tl op tr := by
  by_cases hn : tl.kind.isNumeric = true ∧ tr.kind.isNumeric = true
  · by_cases hf : tl.kind = .float ∨ tr.kind = .float
    · exact compares_floats hop hl hr hn.1 hn.2 hf
    · have hints := int_of_promote hn.1 hn.2 (if_neg hf)
      exact compares_ints hop hints.1 hints.2
  · have hn : (tl.kind.isNumeric && tr.kind.isNumeric) = false := by simpa using hn
    by_cases hb : tl.kind = .bool ∧ tr.kind = .bool
    · exact compares_bools hb.1 hb.2 hk
    · exact compares_texts hl hr hn hb hk

theorem ne_none_of_comparable {left right : Kind}
    (h : left.comparable op right = true) : left ≠ .none ∧ right ≠ .none := by
  constructor <;> rintro rfl
  · simp [Kind.comparable, Kind.isNumeric, Kind.isScalar] at h
  · simp [Kind.comparable, Kind.isNumeric, Kind.isScalar] at h

theorem comparison_inv {t : Typed} {s' : State} (h : comparison l op r s = .ok t s') :
    ∃ tl tr, l = some tl ∧ r = some tr ∧ tl.kind.comparable op tr.kind = true := by
  cases hk : (kindOf l).comparable op (kindOf r) with
  | false =>
    simp only [comparison, hk] at h
    cases h
  | true =>
    obtain ⟨hl, hr⟩ := ne_none_of_comparable hk
    cases l with
    | none => exact absurd rfl hl
    | some tl =>
      cases r with
      | none => exact absurd rfl hr
      | some tr => exact ⟨tl, tr, rfl, rfl, hk⟩

end Comparison

/-! ## Conditions -/

theorem truth_spec {t : Typed} (ht : TypedFits s.used t) (hk : t.kind = .bool ∨ t.kind = .int) :
    ∃ o s' code, truth (some t) s = .ok o s' ∧ Appends code s s' ∧ Fits o .i1 s'.used ∧
      ∀ image a bit, Carries image a t (.bool bit) →
        ∃ b, Computes image s.used code a b ∧ Gives image b.frame o (.bit bit) := by
  obtain ⟨operand, kind⟩ := t
  dsimp only at hk
  rcases hk with rfl | rfl
  · refine ⟨operand, s, [], rfl, Appends.refl s, ht, ?_⟩
    rintro image a bit ⟨-, w, hg, hw⟩
    obtain rfl := holds_bool.mp hw.1
    exact ⟨a, Computes.nil _ a, hg⟩
  · obtain ⟨z, s1, h1, A1, hz⟩ := emit_spec s (.icmp .ne operand (int32 0)) "cond" rfl
    refine ⟨.register z .i1, s1, _, h1, A1, ⟨rfl, hz⟩, ?_⟩
    rintro image a bit ⟨hkind, -⟩
    simp [Value.kind] at hkind

theorem truth_inv {o : Operand} {s' : State} (h : truth r s = .ok o s') :
    ∃ t, r = some t ∧ (t.kind = .bool ∨ t.kind = .int) := by
  cases r with
  | none => cases h
  | some t =>
    obtain ⟨operand, kind⟩ := t
    cases kind with
    | bool => exact ⟨_, rfl, .inl rfl⟩
    | int => exact ⟨_, rfl, .inr rfl⟩
    | _ => cases h

end Lowering
end DualEngine
