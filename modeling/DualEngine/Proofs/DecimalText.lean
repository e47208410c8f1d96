import DualEngine.Value.Basic
import Mathlib

/-! # The texts of numbers are short

Generated code formats a number into a buffer of 32 bytes. The six digits of a float and its
exponent always fit, because rounding gives at most a million and the exponent of a double has at
most three digits.
-/
namespace DualEngine.Decimal

variable {f : Fraction} {e : Int} {cs : List Char} {m n : Nat}

/-- A text of so many characters of one byte each, none of them zero or a letter of `nan`. -/
structure Brief (cs : List Char) (size : Nat) : Prop where
  length : cs.length ≤ size
  plain : ∀ c ∈ cs, c.utf8Size = 1 ∧ c ≠ '\x00' ∧ c ≠ 'n'

theorem Brief.append {ds : List Char} (h : Brief cs m) (h' : Brief ds n) :
    Brief (cs ++ ds) (m + n) := by
  refine ⟨by simpa using Nat.add_le_add h.length h'.length, fun c hc => ?_⟩
  rcases List.mem_append.mp hc with hc | hc
  · exact h.plain c hc
  · exact h'.plain c hc

theorem Brief.cons {c : Char} (hc : c.utf8Size = 1 ∧ c ≠ '\x00' ∧ c ≠ 'n') (h : Brief cs n) :
    Brief (c :: cs) (n + 1) := by
  refine ⟨by simpa using h.length, fun d hd => ?_⟩
  rcases List.mem_cons.mp hd with rfl | hd
  · exact hc
  · exact h.plain d hd

theorem Brief.mono (h : Brief cs m) (hmn : m ≤ n) : Brief cs n :=
  ⟨h.length.trans hmn, h.plain⟩

theorem Brief.sublist {ds : List Char} (h : Brief cs n) (hs : List.Sublist ds cs) : Brief ds n :=
  ⟨hs.length_le.trans h.length, fun c hc => h.plain c (hs.subset hc)⟩

theorem brief_replicate (n : Nat) : Brief (List.replicate n '0') n := by
  refine ⟨by simp, fun c hc => ?_⟩
  rw [List.eq_of_mem_replicate hc]
  decide

theorem plain_of_isDigit {c : Char} (h : c.isDigit = true) :
    c.utf8Size = 1 ∧ c ≠ '\x00' ∧ c ≠ 'n' := by
  have hbounds : 48 ≤ c.val ∧ c.val ≤ 57 := by simpa [Char.isDigit] using h
  refine ⟨?_, ?_, ?_⟩
  · have hle : c.val ≤ 127 := UInt32.le_trans hbounds.2 (by decide)
    simp [Char.utf8Size, hle]
  · rintro rfl
    exact absurd hbounds.1 (by decide)
  · rintro rfl
    exact absurd hbounds.2 (by decide)

theorem brief_toDigits {size : Nat} (h : n < 10 ^ size) (hs : 0 < size) :
    Brief (Nat.toDigits 10 n) size := by
  refine ⟨(Nat.length_toDigits_le_iff (by decide) hs).mpr h, fun c hc => ?_⟩
  exact plain_of_isDigit (Nat.isDigit_of_mem_toDigits (by decide) (by decide) hc)

theorem utf8Len_of_plain (h : ∀ c ∈ cs, c.utf8Size = 1 ∧ c ≠ '\x00' ∧ c ≠ 'n') :
    String.utf8Len cs = cs.length := by
  induction cs with
  | nil => rfl
  | cons c cs ih =>
    have hc := (h c (by simp)).1
    simp only [String.utf8Len, hc, List.length_cons, ih fun d hd => h d (by simp [hd])]

theorem Brief.size_le (h : Brief cs n) : (String.ofList cs).utf8ByteSize ≤ n := by
  rw [String.utf8ByteSize_ofList, utf8Len_of_plain h.plain]
  exact h.length

theorem Brief.no_zero (h : Brief cs n) : '\x00' ∉ (String.ofList cs).toList := by
  rw [String.toList_ofList]
  exact fun hc => (h.plain _ hc).2.1 rfl

/-! ## The bounds of a double -/

theorem ofFloat_finite {x : Float} {negative : Bool} (h : Binary.ofFloat x = .finite negative m e) :
    m < 2 ^ 53 ∧ -1074 ≤ e ∧ e ≤ 971 := by
  simp only [Binary.ofFloat, Nat.pow_eq] at h
  have hfraction : x.toBits.toNat % 2 ^ 52 < 2 ^ 52 := Nat.mod_lt _ (by decide)
  have hfield : x.toBits.toNat / 2 ^ 52 % 2 ^ 11 < 2 ^ 11 := Nat.mod_lt _ (by decide)
  split at h
  · split at h <;> simp at h
  · split at h
    · simp only [Binary.finite.injEq] at h
      omega
    · simp only [Binary.finite.injEq] at h
      omega

theorem stepsBelow_spec {den num : Nat} (limit : Nat) (h : num < den) :
    1 ≤ stepsBelow den (limit + 1) num ∧ stepsBelow den (limit + 1) num ≤ limit + 1 ∧
      num * 10 ^ (stepsBelow den (limit + 1) num - 1) < den := by
  induction limit generalizing num with
  | zero => simp [stepsBelow, Nat.not_le.mpr h, h]
  | succ limit ih =>
    have hstep : stepsBelow den (limit + 1 + 1) num = stepsBelow den (limit + 1) (10 * num) + 1 := by
      rw [stepsBelow, if_neg (by omega)]
    rw [hstep]
    by_cases hden : den ≤ 10 * num
    · have hzero : stepsBelow den (limit + 1) (10 * num) = 0 := by rw [stepsBelow, if_pos hden]
      simp [hzero, h]
    · obtain ⟨hpos, hle, hlt⟩ := ih (show 10 * num < den by omega)
      refine ⟨by omega, by omega, ?_⟩
      obtain ⟨k, hk⟩ : ∃ k, stepsBelow den (limit + 1) (10 * num) = k + 1 :=
        ⟨_, (Nat.sub_add_cancel hpos).symm⟩
      rw [hk] at hlt ⊢
      simp only [Nat.add_sub_cancel] at hlt ⊢
      calc num * 10 ^ (k + 1) = 10 * num * 10 ^ k := by ring
        _ < den := hlt

theorem round_le (hden : 0 < f.den) (h : f.num ≤ f.den * n) : f.round ≤ n := by
  have hdiv := Nat.div_add_mod f.num f.den
  have hmod := Nat.mod_lt f.num hden
  have hfloor : f.num / f.den ≤ n := by
    calc f.num / f.den ≤ f.den * n / f.den := Nat.div_le_div_right h
      _ = n := Nat.mul_div_cancel_left n hden
  unfold Fraction.round
  rcases Nat.lt_or_eq_of_le hfloor with hlt | heq
  · dsimp only
    split
    · omega
    · split <;> omega
  · have hzero : f.num % f.den = 0 := by
      rw [heq] at hdiv
      omega
    simp [hzero, hden, heq]

/-- Six digits: the fraction scaled by its own magnitude rounds to at most a million. -/
theorem scaled_round_le (hden : 0 < f.den) : (f.shift (f.magnitude + 1 - 6)).round ≤ 10 ^ 6 := by
  unfold Fraction.magnitude
  split
  · rename_i hle
    generalize hlen : (Nat.toDigits 10 (f.num / f.den)).length = len
    have hpos : 0 < len := by
      rw [← hlen]
      exact List.length_pos_iff.mpr (Nat.toDigits_ne_nil)
    have hquot : f.num / f.den < 10 ^ len :=
      (Nat.length_toDigits_le_iff (by decide) hpos).mp hlen.le
    have hnum : f.num < f.den * 10 ^ len := by
      rw [Nat.div_lt_iff_lt_mul hden] at hquot
      rwa [Nat.mul_comm]
    simp only [Fraction.shift, Nat.pow_eq]
    split
    · rename_i hunit
      refine round_le (Nat.mul_pos hden (by positivity)) ?_
      obtain ⟨k, hk⟩ : ∃ k : Nat, ((len : Int) - 1 + 1 - 6).toNat = k ∧ len = k + 6 :=
        ⟨_, rfl, by omega⟩
      simp only [hk.1]
      rw [hk.2] at hnum
      calc f.num ≤ f.den * 10 ^ (k + 6) := hnum.le
        _ = f.den * 10 ^ k * 10 ^ 6 := by ring
    · rename_i hunit
      refine round_le hden ?_
      obtain ⟨k, hk⟩ : ∃ k : Nat, (-((len : Int) - 1 + 1 - 6)).toNat = k ∧ len + k = 6 :=
        ⟨_, rfl, by omega⟩
      simp only [hk.1]
      calc f.num * 10 ^ k ≤ f.den * 10 ^ len * 10 ^ k := Nat.mul_le_mul_right _ hnum.le
        _ = f.den * 10 ^ (len + k) := by ring
        _ = f.den * 10 ^ 6 := by rw [hk.2]
  · rename_i hlt
    obtain ⟨hpos, -, hsmall⟩ := stepsBelow_spec 399 (show f.num < f.den by omega)
    generalize stepsBelow f.den 400 f.num = k at *
    unfold Fraction.shift
    rw [if_neg (by omega)]
    refine round_le hden ?_
    have hunit : (-(-(k : Int) + 1 - 6)).toNat = k - 1 + 6 := by omega
    simp only [hunit]
    calc f.num * 10 ^ (k - 1 + 6) = f.num * 10 ^ (k - 1) * 10 ^ 6 := by ring
      _ ≤ f.den * 10 ^ 6 := Nat.mul_le_mul_right _ hsmall.le

/-- Digits that fit: at most seven, and an exponent of at most three. -/
structure Digits.Small (d : Digits) : Prop where
  digits : Brief d.digits 7
  exponent : -500 ≤ d.exponent ∧ d.exponent ≤ 500

theorem small_ofNat (hn : n ≤ 10 ^ 6) (he : -490 ≤ e ∧ e ≤ 490) : (Digits.ofNat n e).Small := by
  have hall : Brief (Nat.toDigits 10 n) 7 := brief_toDigits (by omega) (by decide)
  have hsub : ((Nat.toDigits 10 n).reverse.dropWhile (· == '0')).reverse.Sublist
      (Nat.toDigits 10 n) := by
    rw [List.reverse_sublist.symm, List.reverse_reverse]
    exact List.dropWhile_sublist _
  unfold Digits.ofNat
  dsimp only
  split
  · exact ⟨⟨by simp, by simp; decide⟩, by decide⟩
  · refine ⟨hall.sublist hsub, ?_⟩
    have hlen := hall.length
    dsimp only
    omega

theorem num_ofBinary_lt {k : Nat} (hm : m < 2 ^ 53) (he : e ≤ 971) (hk : 103 ≤ k) :
    (Fraction.ofBinary m e).num < 10 ^ (4 * k) := by
  have hpow : 2 ^ (10 * k) ≤ 10 ^ (4 * k) := by
    rw [pow_mul, pow_mul]
    exact Nat.pow_le_pow_left (by norm_num) k
  have hle : m ≤ m * 2 ^ e.toNat := Nat.le_mul_of_pos_right m (by positivity)
  have hlt : m * 2 ^ e.toNat < 10 ^ (4 * k) :=
    calc m * 2 ^ e.toNat < 2 ^ 53 * 2 ^ e.toNat := Nat.mul_lt_mul_of_pos_right hm (by positivity)
      _ = 2 ^ (53 + e.toNat) := (pow_add 2 53 e.toNat).symm
      _ ≤ 2 ^ (10 * k) := Nat.pow_le_pow_right (by decide) (by omega)
      _ ≤ 10 ^ (4 * k) := hpow
  unfold Fraction.ofBinary
  split
  · exact hlt
  · exact hle.trans_lt hlt

theorem magnitude_bounds {k : Nat} (hk : 0 < k) (h : f.num < 10 ^ (4 * k)) :
    -400 ≤ f.magnitude ∧ f.magnitude ≤ 4 * k := by
  unfold Fraction.magnitude
  split
  · have hlen : (Nat.toDigits 10 (f.num / f.den)).length ≤ 4 * k :=
      (Nat.length_toDigits_le_iff (by decide) (by omega)).mpr ((Nat.div_le_self _ _).trans_lt h)
    omega
  · rename_i hlt
    have hle : stepsBelow f.den 400 f.num ≤ 400 := (stepsBelow_spec 399 (by omega)).2.1
    omega

theorem den_ofBinary_pos (m : Nat) (e : Int) : 0 < (Fraction.ofBinary m e).den := by
  unfold Fraction.ofBinary
  split
  · exact Nat.one_pos
  · exact Nat.pow_pos (by decide)

theorem small_significantDigits (hm : m < 2 ^ 53) (he : -1074 ≤ e ∧ e ≤ 971) :
    (significantDigits 6 m e).Small := by
  unfold significantDigits
  split
  · exact ⟨⟨by simp, by simp; decide⟩, by decide⟩
  · have hmag := magnitude_bounds (by decide) (num_ofBinary_lt hm he.2 le_rfl)
    exact small_ofNat (scaled_round_le (den_ofBinary_pos m e)) (by omega)

theorem brief_exponentText (he : -500 ≤ e ∧ e ≤ 500) : Brief (exponentText e) 6 := by
  have hdigits : Brief (Nat.toDigits 10 e.natAbs) 3 := brief_toDigits (by omega) (by decide)
  have hpad : Brief (List.replicate (2 - (Nat.toDigits 10 e.natAbs).length) '0') 2 :=
    (brief_replicate _).mono (by omega)
  refine Brief.cons ?_ (hpad.append hdigits)
  split <;> decide

theorem brief_scientific {d : Digits} (h : d.Small) : Brief (scientific d) 15 := by
  have hexp := (brief_exponentText h.exponent).cons (c := 'e') (by decide)
  have hdigits := h.digits
  unfold scientific
  cases hd : d.digits with
  | nil => exact ⟨by simp, by simp⟩
  | cons first more =>
    rw [hd] at hdigits
    have hfirst := hdigits.plain first (by simp)
    cases more with
    | nil => exact (hexp.cons hfirst).mono (by decide)
    | cons second more =>
      have hmore : Brief (second :: more) 6 :=
        ⟨Nat.le_of_succ_le_succ hdigits.length, fun c hc => hdigits.plain c (by simp_all)⟩
      exact ((hmore.append hexp).cons (by decide)).cons hfirst

theorem brief_positional {d : Digits} (h : d.Small) (hlow : -4 ≤ d.exponent)
    (hhigh : d.exponent < 6) : Brief (briefLayout.positional d) 21 := by
  unfold Layout.positional
  split
  · have hzeros : Brief (List.replicate (-d.exponent - 1).toNat '0') 3 :=
      (brief_replicate _).mono (by omega)
    exact (((hzeros.append h.digits).cons (by decide)).cons (by decide)).mono (by decide)
  · have hzeros : Brief (List.replicate (d.exponent.toNat + 1 - d.digits.length) '0') 6 :=
      (brief_replicate _).mono (by omega)
    have hfront : Brief (d.digits.take (d.exponent.toNat + 1) ++
        List.replicate (d.exponent.toNat + 1 - d.digits.length) '0') 13 :=
      (h.digits.sublist (List.take_sublist _ _)).append hzeros
    have hback : Brief (d.digits.drop (d.exponent.toNat + 1)) 7 :=
      h.digits.sublist (List.drop_sublist _ _)
    dsimp only
    split
    · exact hfront.mono (by decide)
    · exact hfront.append (hback.cons (by decide))

/-- A float is no number, infinite, or its text fits into the buffer made for it, with the zero
after it. -/
theorem significant_cases (x : Float) :
    significant x = "nan" ∨ significant x = "inf" ∨ significant x = "-inf" ∨
      ∃ cs, significant x = String.ofList cs ∧ Brief cs 22 := by
  unfold significant
  split
  · exact .inl rfl
  · split
    · exact .inr (.inr (.inl rfl))
    · exact .inr (.inl rfl)
  · rename_i negative m e hx
    obtain ⟨hm, he⟩ := ofFloat_finite hx
    have hsmall := small_significantDigits hm he
    have hbody : Brief (briefLayout.write (significantDigits 6 m e)) 21 := by
      unfold Layout.write
      split
      · rename_i hpos
        exact brief_positional hsmall hpos.1 hpos.2
      · exact (brief_scientific hsmall).mono (by decide)
    refine .inr (.inr (.inr ⟨_, rfl, ?_⟩))
    split
    · exact hbody.cons (by decide)
    · exact hbody.mono (by decide)

theorem significant_size (x : Float) : (significant x).utf8ByteSize < 32 := by
  rcases significant_cases x with h | h | h | ⟨cs, h, hbrief⟩ <;> rw [h]
  · decide
  · decide
  · decide
  · exact hbrief.size_le.trans_lt (by decide)

theorem significant_no_zero (x : Float) : '\x00' ∉ (significant x).toList := by
  rcases significant_cases x with h | h | h | ⟨cs, h, hbrief⟩ <;> rw [h]
  · decide
  · decide
  · decide
  · exact hbrief.no_zero

/-- No float is written as a negative number that is none. -/
theorem significant_ne_negative_nan (x : Float) : significant x ≠ "-nan" := by
  rcases significant_cases x with h | h | h | ⟨cs, h, hbrief⟩ <;> rw [h]
  · decide
  · decide
  · decide
  · intro heq
    have hcs : cs = ['-', 'n', 'a', 'n'] := by
      rw [← String.toList_ofList (l := cs), heq]
      rfl
    exact (hbrief.plain 'n' (by simp [hcs])).2.2 rfl

/-! ## Integers -/

theorem brief_int {n : Int} (h : -2 ^ 31 ≤ n ∧ n < 2 ^ 31) :
    ∃ cs, toString n = String.ofList cs ∧ Brief cs 12 := by
  have hdigits (k : Nat) (hk : k ≤ 2 ^ 31) : Brief (Nat.toDigits 10 k) 11 :=
    brief_toDigits (by omega) (by decide)
  cases n with
  | ofNat k =>
    refine ⟨Nat.toDigits 10 k, rfl, (hdigits k ?_).mono (by decide)⟩
    have := h.2
    simp only [Int.ofNat_eq_natCast] at this
    omega
  | negSucc k =>
    refine ⟨'-' :: Nat.toDigits 10 (k + 1), ?_, (hdigits (k + 1) ?_).cons (by decide)⟩
    · have htext : toString (Int.negSucc k) = "-" ++ (k + 1).repr := rfl
      rw [htext, ← String.toList_inj, String.toList_append, Nat.toList_repr]
      simp
    · omega

theorem int_text_size {n : Int} (h : -2 ^ 31 ≤ n ∧ n < 2 ^ 31) :
    (toString n).utf8ByteSize < 32 := by
  obtain ⟨cs, hcs, hbrief⟩ := brief_int h
  rw [hcs]
  exact hbrief.size_le.trans_lt (by decide)

theorem int_text_no_zero {n : Int} (h : -2 ^ 31 ≤ n ∧ n < 2 ^ 31) :
    '\x00' ∉ (toString n).toList := by
  obtain ⟨cs, hcs, hbrief⟩ := brief_int h
  rw [hcs]
  exact hbrief.no_zero

end DualEngine.Decimal
