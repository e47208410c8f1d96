import DualEngine.Proofs.Operators

/-! # Bounded random numbers

Generated code brings a drawn number between two bounds by a signed remainder. The number of values
between the bounds is computed in 32 bits, so it is negative for bounds that are far apart; the
remainder of a number that is not negative then still stays below it.
-/
namespace DualEngine.Lowering
open IR Machine

/-! ## The arithmetic -/

def lesser (i j : Int32) : Int32 := if j < i then j else i

def greater (i j : Int32) : Int32 := if j < i then i else j

/-- How many numbers lie between two bounds, both included. -/
def gapSize (i j : Int32) : Int := max i.toInt j.toInt - min i.toInt j.toInt + 1

/-- The same as the machine counts it. -/
def gapWord (i j : Int32) : Int32 := greater i j - lesser i j + 1

/-- What the machine makes of a drawn number. -/
def confine (drawn i j : Int32) : Int32 := drawn % gapWord i j + lesser i j

variable {drawn i j : Int32}

theorem toInt_lesser (i j : Int32) : (lesser i j).toInt = min i.toInt j.toInt := by
  unfold lesser
  split <;> rename_i h <;> rw [Int32.lt_iff_toInt_lt] at h <;> omega

theorem toInt_greater (i j : Int32) : (greater i j).toInt = max i.toInt j.toInt := by
  unfold greater
  split <;> rename_i h <;> rw [Int32.lt_iff_toInt_lt] at h <;> omega

theorem gapSize_pos (i j : Int32) : 0 < gapSize i j := by
  unfold gapSize
  omega

theorem toInt_gapWord (i j : Int32) : (gapWord i j).toInt = (gapSize i j).bmod (2 ^ 32) := by
  have hone : (1 : Int32).toInt = 1 := rfl
  rw [gapWord, Int32.toInt_add, Int32.toInt_sub, toInt_lesser, toInt_greater, hone,
    Int.bmod_add_bmod, gapSize]

/-- The two bounds between which all numbers of 32 bits lie. -/
def SpanAll (i j : Int32) : Prop :=
  i = Int32.minValue ∧ j = Int32.maxValue ∨ i = Int32.maxValue ∧ j = Int32.minValue

instance (i j : Int32) : Decidable (SpanAll i j) :=
  inferInstanceAs (Decidable (_ ∨ _))

/-- Only between such bounds the number of values wraps to zero. -/
theorem gapSize_lt (h : ¬ SpanAll i j) : gapSize i j < 2 ^ 32 := by
  have hmin : (Int32.minValue).toInt = -2 ^ 31 := rfl
  have hmax : (Int32.maxValue).toInt = 2 ^ 31 - 1 := rfl
  simp only [SpanAll, ← Int32.toInt_inj, hmin, hmax] at h
  have hi := int32_range i
  have hj := int32_range j
  unfold gapSize
  omega

theorem toInt_gapWord_of_lt (h : gapSize i j < 2 ^ 31) : (gapWord i j).toInt = gapSize i j := by
  have hpos := gapSize_pos i j
  rw [toInt_gapWord]
  exact Int.bmod_eq_of_le (by omega) (by omega)

theorem toInt_gapWord_of_le (h : 2 ^ 31 ≤ gapSize i j) (h' : gapSize i j < 2 ^ 32) :
    (gapWord i j).toInt = -(2 ^ 32 - gapSize i j) := by
  rw [toInt_gapWord, Int.bmod_def, Int.emod_eq_of_lt (by omega) (by omega), if_neg (by omega)]
  omega

/-- The remainder is defined. -/
theorem undefinedQuotient_gapWord (hd : 0 ≤ drawn.toInt) (h : gapSize i j < 2 ^ 32) :
    undefinedQuotient drawn (gapWord i j) = false := by
  have hpos := gapSize_pos i j
  have hzero : (gapWord i j).toInt ≠ (0 : Int32).toInt := by
    have hz : (0 : Int32).toInt = 0 := rfl
    rw [hz]
    rcases lt_or_ge (gapSize i j) (2 ^ 31) with hlt | hge
    · rw [toInt_gapWord_of_lt hlt]
      omega
    · rw [toInt_gapWord_of_le hge h]
      omega
  have hmin : drawn.toInt ≠ (Int32.minValue).toInt := by
    have hm : (Int32.minValue).toInt = -2 ^ 31 := rfl
    omega
  simp only [undefinedQuotient, beq_toInt, beq_eq_false_iff_ne.mpr hzero,
    beq_eq_false_iff_ne.mpr hmin, Bool.false_and, Bool.or_false]

/-- The remainder of a number that is not negative is below the number of values, also where the
machine counts them as a negative number. -/
theorem remainder_range (hd : 0 ≤ drawn.toInt) (h : gapSize i j < 2 ^ 32) :
    0 ≤ (drawn % gapWord i j).toInt ∧ (drawn % gapWord i j).toInt < gapSize i j := by
  have hpos := gapSize_pos i j
  rw [Int32.toInt_mod]
  refine ⟨Int.tmod_nonneg _ hd, ?_⟩
  rcases lt_or_ge (gapSize i j) (2 ^ 31) with hlt | hge
  · rw [toInt_gapWord_of_lt hlt]
    exact Int.tmod_lt_of_pos _ hpos
  · have hrest : drawn.toInt.tmod (2 ^ 32 - gapSize i j) < 2 ^ 32 - gapSize i j :=
      Int.tmod_lt_of_pos _ (by omega)
    rw [toInt_gapWord_of_le hge h, Int.tmod_neg]
    omega

theorem toInt_confine (hd : 0 ≤ drawn.toInt) (h : gapSize i j < 2 ^ 32) :
    (confine drawn i j).toInt = (drawn % gapWord i j).toInt + min i.toInt j.toInt := by
  have hrest := remainder_range hd h
  have hi := int32_range i
  have hj := int32_range j
  rw [confine, Int32.toInt_add, toInt_lesser]
  refine Int.bmod_eq_of_le ?_ ?_ <;> unfold gapSize at hrest <;> omega

theorem confine_range (hd : 0 ≤ drawn.toInt) (h : gapSize i j < 2 ^ 32) :
    min i.toInt j.toInt ≤ (confine drawn i j).toInt ∧
      (confine drawn i j).toInt ≤ max i.toInt j.toInt := by
  have hrest := remainder_range hd h
  rw [toInt_confine hd h]
  unfold gapSize at hrest
  omega

/-- Every number between the bounds is made of some draw, if the machine can count them. -/
theorem exists_confine {n : Int} (h : gapSize i j ≤ 2 ^ 31 - 1) (hl : min i.toInt j.toInt ≤ n)
    (hu : n ≤ max i.toInt j.toInt) : ∃ drawn : Int32, 0 ≤ drawn.toInt ∧
      (confine drawn i j).toInt = n := by
  have hsize : gapSize i j = max i.toInt j.toInt - min i.toInt j.toInt + 1 := rfl
  have hdrawn : (Int32.ofInt (n - min i.toInt j.toInt)).toInt = n - min i.toInt j.toInt :=
    Int32.toInt_ofInt_of_le (by omega) (by omega)
  refine ⟨Int32.ofInt (n - min i.toInt j.toInt), by omega, ?_⟩
  rw [toInt_confine (by omega) (by omega), Int32.toInt_mod, toInt_gapWord_of_lt (by omega), hdrawn,
    Int.tmod_eq_of_lt (by omega) (by omega)]
  omega

/-! ## The code -/

/-- Wherever the operands are a drawn number and two bounds, the code ends with `n` in `result`. -/
def Lands (used : List String) (code : List Instruction) (number low high result : Operand)
    (drawn i j n : Int32) : Prop :=
  ∀ image a, Gives image a.frame number (.int drawn) → Gives image a.frame low (.int i) →
    Gives image a.frame high (.int j) →
    ∃ b, Computes image used code a b ∧ Gives image b.frame result (.int n)

/-- An operand that was known keeps its word while code only computes. -/
theorem Computes.gives {image : Image} {used : List String} {code : List Instruction} {a b : Snap}
    (h : Computes image used code a b) {o : Operand} {w : Word} (ho : o.Known used)
    (hg : Gives image a.frame o w) : Gives image b.frame o w := hg.keep ho h.quiet.registers

/-- One instruction that sets its register, with the word that it gives. -/
theorem Appends.computes {image : Image} {a : Snap} {s s' : State} {x : String} {op : Operation}
    {w : Word} (h : Appends [⟨x, op⟩] s s') (hr : Runs image [⟨x, op⟩] a (a.set x w)) (type : Ty) :
    ∃ b, Computes image s.used [⟨x, op⟩] a b ∧ Gives image b.frame (.register x type) w :=
  ⟨_, computes_set h hr, gives_set a x type w⟩

/-- The code that brings a number between two bounds. -/
theorem randomBetween_spec {s : State} {number low high : Operand} (hn : Fits number .i32 s.used)
    (hl : Fits low .i32 s.used) (hh : Fits high .i32 s.used) :
    ∃ result s' code, randomBetween number (some ⟨low, .int⟩) (some ⟨high, .int⟩) s =
        .ok ⟨result, .int⟩ s' ∧ Appends code s s' ∧ Fits result .i32 s'.used ∧
      ∀ drawn i j, undefinedQuotient drawn (gapWord i j) = false →
        Lands s.used code number low high result drawn i j (confine drawn i j) := by
  obtain ⟨x1, s₁, h1, A1, k1⟩ := emit_spec s (.icmp .sgt low high) "swapped" rfl
  obtain ⟨x2, s₂, h2, A2, k2⟩ :=
    emit_spec s₁ (.select (.register x1 .i1) high low) "low"
      (if_pos (hh.type.trans hl.type.symm))
  obtain ⟨x3, s₃, h3, A3, k3⟩ :=
    emit_spec s₂ (.select (.register x1 .i1) low high) "high"
      (if_pos (hl.type.trans hh.type.symm))
  obtain ⟨x4, s4, h4, A4, k4⟩ :=
    emit_spec s₃ (.binary .sub (.register x3 .i32) (.register x2 .i32)) "diff" rfl
  obtain ⟨x5, s5, h5, A5, k5⟩ :=
    emit_spec s4 (.binary .add (.register x4 .i32) (int32 1)) "rangesize" rfl
  obtain ⟨x6, s6, h6, A6, k6⟩ :=
    emit_spec s5 (.binary .srem number (.register x5 .i32)) "modtmp"
      (if_pos hn.type)
  obtain ⟨x7, s7, h7, A7, k7⟩ :=
    emit_spec s6 (.binary .add (.register x6 .i32) (.register x2 .i32)) "randomInRange" rfl
  simp only [Operation.type, hl.type, hh.type, hn.type] at h2 h3 h6
  refine ⟨.register x7 .i32, s7, _, ?_,
    (((((A1.trans A2).trans A3).trans A4).trans A5).trans A6).trans A7, ⟨rfl, k7⟩, ?_⟩
  · exact (bind_ok h1).trans <| (bind_ok h2).trans <| (bind_ok h3).trans <| (bind_ok h4).trans <|
      (bind_ok h5).trans <| (bind_ok h6).trans <| (bind_ok h7).trans rfl
  intro drawn i j hdefined image a gn gl gh
  -- the bounds in order
  obtain ⟨a1, C₁, g1⟩ := A1.computes (runs_icmp (a := a) gl gh rfl) .i1
  obtain ⟨a2, C₂, g2⟩ :=
    A2.computes (runs_select g1 (C₁.gives hh.known gh) (C₁.gives hl.known gl)) .i32
  have D2 := C₁.append C₂ A1.used
  obtain ⟨a3, C₃, g3⟩ := A3.computes (runs_select (C₂.gives k1 g1) (D2.gives hl.known gl)
    (D2.gives hh.known gh)) .i32
  have hlow : (if testInts .sgt i j then Word.int j else .int i) = .int (lesser i j) := by
    simp only [testInts, lesser, decide_eq_true_eq]
    split <;> rfl
  have hhigh : (if testInts .sgt i j then Word.int i else .int j) = .int (greater i j) := by
    simp only [testInts, greater, decide_eq_true_eq]
    split <;> rfl
  rw [hlow] at g2
  rw [hhigh] at g3
  -- how many numbers they include, and the remainder
  obtain ⟨a4, C₄, g4⟩ := A4.computes (runs_binary g3 (C₃.gives k2 g2) rfl) .i32
  obtain ⟨a5, C₅, g5⟩ := A5.computes (runs_binary g4 (gives_int32 1) rfl) .i32
  have E5 := (C₃.append C₄ A3.used).append C₅ (A3.trans A4).used
  have D5 := D2.append E5 (A1.trans A2).used
  have hrest : binary .srem (.int drawn) (.int (gapWord i j)) a5.state =
      .ok (.int (drawn % gapWord i j)) a5.state := by
    show (if undefinedQuotient drawn (gapWord i j) then trap .division
      else pure (Word.int (drawn % gapWord i j)) : Run Word) a5.state = _
    rw [hdefined]
    rfl
  obtain ⟨a6, C₆, g6⟩ := A6.computes (runs_binary (D5.gives hn.known gn) g5 hrest) .i32
  have E6 := E5.append C₆ ((A3.trans A4).trans A5).used
  obtain ⟨a7, C₇, g7⟩ := A7.computes (runs_binary g6 (E6.gives k2 g2) rfl) .i32
  refine ⟨a7, ?_, g7⟩
  have hall := (D2.append E6 (A1.trans A2).used).append C₇
    ((A1.trans A2).trans (((A3.trans A4).trans A5).trans A6)).used
  simpa only [List.append_assoc, List.singleton_append] using hall

/-! ## Bounded draws -/

/-- A bounded draw can be lowered wherever its bounds are integers. Between all bounds but those of
the full range its code has a result for every number that can be drawn, and the result lies
between the bounds; if there are at most `2 ^ 31 - 1` numbers there, each of them is a result. -/
theorem random_lies_between {earlier : Earlier} {scope : Scope} {low high : Node}
    {s s₁ s₂ s₃ : State} {number a b : Operand} {l h : Lowered}
    (hlow : low.isMissing = false) (hhigh : high.isMissing = false)
    (hdraw : emit (.call randomInt []) "randcall" s = .ok number s₁)
    (hl : lower earlier scope low s₁ = .ok l s₂) (hlv : l.value = some ⟨a, .int⟩)
    (hh : lower earlier scope high s₂ = .ok h s₃) (hhv : h.value = some ⟨b, .int⟩)
    (hnumber : Fits number .i32 s₃.used) (ha : Fits a .i32 s₃.used) (hb : Fits b .i32 s₃.used) :
    ∃ result s' code, lower earlier scope (.random low high) s =
        .ok { value := some ⟨result, .int⟩ } s' ∧ Appends code s₃ s' ∧
      (∀ drawn i j : Int32, 0 ≤ drawn.toInt → ¬ SpanAll i j → ∃ n : Int32,
        Lands s₃.used code number a b result drawn i j n ∧
          min i.toInt j.toInt ≤ n.toInt ∧ n.toInt ≤ max i.toInt j.toInt) ∧
      ∀ i j : Int32, max i.toInt j.toInt - min i.toInt j.toInt + 1 ≤ 2 ^ 31 - 1 →
        ∀ n : Int32, min i.toInt j.toInt ≤ n.toInt → n.toInt ≤ max i.toInt j.toInt →
          ∃ drawn : Int32, 0 ≤ drawn.toInt ∧
            Lands s₃.used code number a b result drawn i j n := by
  obtain ⟨result, s', code, hbetween, A, -, run⟩ := randomBetween_spec hnumber ha hb
  refine ⟨result, s', code, ?_, A, ?_, ?_⟩
  · simp only [lower, hlow, hhigh, Bool.or_self, Bool.false_eq_true, if_false]
    rw [bind_ok hdraw, bind_ok hl, bind_ok hh, hlv, hhv, bind_ok hbetween]
    rfl
  · intro drawn i j hd hspan
    have hsize := gapSize_lt hspan
    exact ⟨confine drawn i j, run drawn i j (undefinedQuotient_gapWord hd hsize),
      confine_range hd hsize⟩
  · intro i j hcount n hmin hmax
    obtain ⟨drawn, hd, hn⟩ := exists_confine hcount hmin hmax
    have hsize : gapSize i j < 2 ^ 32 := by
      unfold gapSize
      omega
    refine ⟨drawn, hd, ?_⟩
    rw [← Int32.toInt_inj.mp hn]
    exact run drawn i j (undefinedQuotient_gapWord hd hsize)

/-- Between the least integer and five there are more numbers than the machine can count. -/
theorem far_bounds_lie_between :
    ∃ (number result : Operand) (s₃ s' : State) (code : List Instruction) (n : Int32),
      lower (emitEarlier 0) {} (.random (.number intMin) (.number 5)) { context := {}, nextSlot := 0 } =
        .ok { value := some ⟨result, .int⟩ } s' ∧ Appends code s₃ s' ∧
      Lands s₃.used code number (int32 intMin) (int32 5) result Int32.maxValue Int32.minValue 5 n ∧
      -2 ^ 31 ≤ n.toInt ∧ n.toInt ≤ 5 := by
  obtain ⟨x, s₁, hdraw, -, hx⟩ :=
    emit_spec { context := {}, nextSlot := 0 } (.call randomInt []) "randcall" rfl
  have hlow : lower (emitEarlier 0) {} (.number intMin) s₁ =
      .ok { value := some ⟨int32 intMin, .int⟩ } s₁ := rfl
  have hhigh : lower (emitEarlier 0) {} (.number 5) s₁ =
      .ok { value := some ⟨int32 5, .int⟩ } s₁ := rfl
  obtain ⟨result, s', code, hlower, A, hrange, -⟩ := random_lies_between rfl rfl hdraw hlow rfl hhigh
    rfl ⟨rfl, hx⟩ ⟨rfl, trivial⟩ ⟨rfl, trivial⟩
  obtain ⟨n, hn, hmin, hmax⟩ := hrange Int32.maxValue Int32.minValue 5 (by decide) (by decide)
  exact ⟨_, result, s₁, s', code, n, hlower, A, hn, hmin, hmax⟩

end DualEngine.Lowering
