import DualEngine.Proofs.Conversions

/-! # Values as declared kinds

Coercion converts between some kinds and gives the zero of the declared kind for all others. A text
made of a number outlives the module; that of a bool is a constant of the module.
-/
namespace DualEngine.Lowering
open IR Machine

variable {image : Image} {target : Kind} {t : Typed} {k : Kind} {gs : List Global} {m : Memory}
  {s : State} {v : Value}

/-- The buffers for the empty text and the empty array are in place and outlive the module. -/
structure Grounded (image : Image) (m : Memory) : Prop where
  text : m.heap[0]? = some ⟨1, .text ""⟩
  array : m.heap[1]? = some ⟨4, .ints [some 0]⟩
  lastingText : Lasting image (.address Memory.emptyText)
  lastingArray : Lasting image (.address Memory.emptyArray)

theorem Grounded.extend {m' : Memory} (h : Grounded image m) (hm : m.Extends m') :
    Grounded image m' :=
  ⟨hm _ _ h.text, hm _ _ h.array, h.lastingText, h.lastingArray⟩

theorem Grounded.stands_zero (h : Grounded image m) (hk : k ≠ .none) :
    Stands image m (Value.zero k) (zeroWord k) := by
  cases k with
  | int => exact ⟨holds_int.mpr ⟨0, rfl, rfl⟩, by simp [Value.zero, Value.kind]⟩
  | float => exact ⟨holds_float.mpr rfl, by simp [Value.zero, Value.kind]⟩
  | bool => exact ⟨holds_bool.mpr rfl, by simp [Value.zero, Value.kind]⟩
  | string =>
    refine ⟨holds_string.mpr ⟨_, rfl, ?_⟩, by simp [Value.zero, Value.kind]⟩
    rw [Memory.emptyText, Memory.text?_heap h.text]
    rfl
  | intArray =>
    refine ⟨holds_intArray.mpr ⟨_, rfl, ?_⟩, fun _ => h.lastingArray⟩
    simp [Memory.array?, Memory.emptyArray, Memory.int?, h.array, Memory.intsFrom?]
  | none => exact absurd rfl hk

theorem address_emptyText (h : Serves image m gs) : image.address emptyText = Memory.emptyText := by
  rw [Image.address, h.no_constant (by decide)]
  rfl

theorem address_emptyArray (h : Serves image m gs) :
    image.address emptyArray = Memory.emptyArray := by
  rw [Image.address, h.no_constant (by decide)]
  rfl

/-- A pointer to what outlives the module. -/
theorem pointer_spec (s : State) {symbol : String} {pointee type : Ty} {address : Address}
    (hne : Ty.pointer pointee ≠ .pointer type)
    (haddress : ∀ (image : Image) (m : Memory) (gs : List Global), Serves image m gs →
      image.address symbol = address) :
    ∃ o s' code, (do
        let address ← external symbol pointee
        some <$> cast .bitcast address (.pointer type) "" : Lower (Option Operand)) s =
          .ok (some o) s' ∧ Appends code s s' ∧ Fits o (.pointer type) s'.used ∧
      ∀ image a, Serves image a.memory s'.globals →
        ∃ b, Computes image s.used code a b ∧ Gives image b.frame o (.address address) := by
  obtain ⟨s1, h1, A1⟩ := external_spec s symbol pointee
  obtain ⟨x, s2, h2, A2, hx⟩ := emit_spec s1
    (.convert .bitcast (.global symbol (.pointer pointee)) (.pointer type)) "" rfl
  refine ⟨.register x (.pointer type), s2, _, ?_, A1.trans A2, ⟨rfl, hx⟩, ?_⟩
  · rw [bind_ok h1, cast_of_ne .bitcast (o := .global symbol (.pointer pointee)) hne]
    exact map_eq_ok.mpr ⟨_, h2, rfl⟩
  · intro image a hs
    have hrun : Runs image
        [⟨x, .convert .bitcast (.global symbol (.pointer pointee)) (.pointer type)⟩] a _ :=
      runs_convert (gives_global symbol (.pointer pointee)) rfl
    rw [haddress image a.memory _ hs] at hrun
    exact ⟨_, (Computes.nil s.used a).append (computes_set A2 hrun) A1.used, gives_set _ _ _ _⟩

theorem zero_spec (s : State) (hk : k ≠ .none) :
    ∃ o s' code, zero k s = .ok (some o) s' ∧ Appends code s s' ∧ Fits o (irType k) s'.used ∧
      ∀ image a, Serves image a.memory s'.globals →
        ∃ b, Computes image s.used code a b ∧ Gives image b.frame o (zeroWord k) := by
  have hconstant (o : Operand) (h : zero k = pure (some o)) (hf : Fits o (irType k) s.used)
      (hg : ∀ (image : Image) (a : Snap), Gives image a.frame o (zeroWord k)) :
      ∃ o s' code, zero k s = .ok (some o) s' ∧ Appends code s s' ∧ Fits o (irType k) s'.used ∧
        ∀ image a, Serves image a.memory s'.globals →
          ∃ b, Computes image s.used code a b ∧ Gives image b.frame o (zeroWord k) :=
    ⟨o, s, [], by rw [h]; rfl, Appends.refl s, hf, fun image a _ =>
      ⟨a, Computes.nil _ a, hg image a⟩⟩
  cases k with
  | int => exact hconstant (int32 0) rfl ⟨rfl, trivial⟩ fun _ _ => gives_int32 0
  | float => exact hconstant (.double 0.0) rfl ⟨rfl, trivial⟩ fun _ _ => gives_double _
  | bool => exact hconstant (.int 0 .i1) rfl ⟨rfl, trivial⟩ fun _ _ => gives_bit 0
  | string => exact pointer_spec s (by simp) fun _ _ _ => address_emptyText
  | intArray => exact pointer_spec s (by simp) fun _ _ _ => address_emptyArray
  | none => exact absurd rfl hk

theorem kind_coerce (v : Value) (k : Kind) : (v.coerce k).kind = k := by
  cases k <;> cases v <;> simp [Value.coerce, Value.kind, Value.zero]

/-- The value as a declared kind, in the text that the machine writes. -/
def recast (v : Value) (target : Kind) : Value :=
  if v.kind = .float ∧ target = .string then .string (written v) else v.coerce target

theorem recast_of_portable (h : v.Portable) (target : Kind) :
    recast v target = v.coerce target := by
  unfold recast
  split
  · rename_i hk
    obtain ⟨hkind, rfl⟩ := hk
    rw [written_of_portable h]
    cases v <;> simp_all [Value.coerce, Value.kind]
  · rfl

theorem recast_of_ne (h : target ≠ .string) : recast v target = v.coerce target :=
  if_neg fun hk => h hk.2

theorem coerce_of_kind_eq (h : v.kind = k) : v.coerce k = v := by
  unfold Value.coerce
  exact if_pos h

theorem recast_of_kind_eq (h : v.kind = k) : recast v k = v := by
  have hne : ¬ (v.kind = .float ∧ k = .string) := by
    rintro ⟨hf, rfl⟩
    simp [hf] at h
  rw [recast, if_neg hne, coerce_of_kind_eq h]

/-- Code for the value as a declared kind; a text made for it outlives the module unless it is that
of a string or a bool. -/
def Converts (m : Lower (Option Operand)) (s : State) (t : Typed) (target : Kind) : Prop :=
  ∃ o s' code, m s = .ok (some o) s' ∧ Appends code s s' ∧ Fits o (irType target) s'.used ∧
    ∀ image a v, Serves image a.memory s'.globals → Grounded image a.memory →
      Carries image a t v →
      ∃ b w, Computes image s.used code a b ∧ Gives image b.frame o w ∧
        Stands image b.memory (recast v target) w ∧
        (t.kind ≠ .string → t.kind ≠ .bool → Lasting image w ∨ target ≠ .string)

theorem converts_zero (hk : target ≠ .none)
    (h : ∀ v : Value, v.kind = t.kind → recast v target = Value.zero target) :
    Converts (zero target) s t target := by
  obtain ⟨o, s1, code, h1, A1, F1, run1⟩ := zero_spec s hk
  refine ⟨o, s1, code, h1, A1, F1, ?_⟩
  intro image a v hs hg hc
  obtain ⟨b, C, g⟩ := run1 image a hs
  refine ⟨b, zeroWord target, C, g, ?_, fun _ _ => ?_⟩
  · rw [h v hc.1.symm]
    exact (hg.extend C.quiet.heap).stands_zero hk
  · by_cases hstring : target = .string
    · subst hstring
      exact .inl hg.lastingText
    · exact .inr hstring

theorem converts_text (ht : TypedFits s.used t) (hk : t.kind.isScalar = true)
    (hne : t.kind ≠ .string) : Converts (some <$> textOf t) s t .string := by
  obtain ⟨o, s1, code, h1, A1, F1, run1⟩ := textOf_spec ht hk
  refine ⟨o, s1, code, map_eq_ok.mpr ⟨_, h1, rfl⟩, A1, F1, ?_⟩
  intro image a v hs hg hc
  obtain ⟨b, address, C, g, htext, hlast⟩ := run1 image a v hs hc
  have hcoerce : recast v .string = .string (written v) := by
    rw [hc.1] at hk hne
    cases v <;> simp_all [recast, Value.coerce, Value.kind, Kind.isScalar, written]
  refine ⟨b, _, C, g, ⟨?_, ?_⟩, fun _ hbool => .inl (hlast ?_)⟩
  · rw [hcoerce]
    exact holds_string.mpr ⟨address, rfl, htext⟩
  · simp [hcoerce, Value.kind]
  · rw [hc.1] at hk hne hbool
    cases v <;> simp_all [Value.kind, Kind.isScalar]

theorem converts_float (ht : TypedFits s.used t)
    (hk : t.kind = .int ∨ t.kind = .float ∨ t.kind = .bool) :
    Converts (some <$> toFloat t) s t .float := by
  obtain ⟨o, s1, code, h1, A1, F1, run1⟩ := toFloat_spec ht hk
  refine ⟨o, s1, code, map_eq_ok.mpr ⟨_, h1, rfl⟩, A1, F1, ?_⟩
  intro image a v hs hg hc
  obtain ⟨b, x, C, g, hx⟩ := run1 image a v hc
  refine ⟨b, _, C, g, ?_, fun _ _ => .inr (by simp)⟩
  rw [recast_of_ne (by simp), hx]
  exact ⟨holds_float.mpr rfl, by simp [Value.kind]⟩

/-- A conversion by one instruction on the word. -/
theorem converts_word (op : Operation) (hop : op.misfit? = none) (htype : op.type = irType target)
    (hstring : target ≠ .string)
    (h : ∀ (image : Image) (a : Snap) v w x, t.kind = v.kind → Gives image a.frame t.operand w →
      Holds a.memory v w → ∃ w', Runs image [⟨x, op⟩] a (a.set x w') ∧
        Stands image a.memory (v.coerce target) w') :
    Converts (some <$> emit op "") s t target := by
  obtain ⟨x, s1, h1, A1, hx⟩ := emit_spec s _ "" hop
  refine ⟨_, s1, _, map_eq_ok.mpr ⟨_, h1, rfl⟩, A1, ⟨htype, hx⟩, ?_⟩
  rintro image a v - - ⟨hkind, w, hg, hw⟩
  obtain ⟨w', hrun, hstands⟩ := h image a v w x hkind hg hw.1
  rw [← recast_of_ne hstring] at hstands
  exact ⟨_, w', computes_set A1 hrun, gives_set _ _ _ _, hstands, fun _ _ => .inr hstring⟩

theorem truncateFloat_range (x : Float) : intMin ≤ truncateFloat x ∧ truncateFloat x ≤ intMax := by
  unfold truncateFloat
  split
  · decide
  · dsimp only
    split
    · assumption
    · decide

theorem toInt_truncateFloat (x : Float) :
    (Int32.ofInt (truncateFloat x)).toInt = truncateFloat x := by
  have h := truncateFloat_range x
  simp only [intMin, intMax] at h
  exact Int32.toInt_ofInt_of_le (by omega) (by omega)

theorem beq_toInt (i j : Int32) : (i == j) = (i.toInt == j.toInt) := by
  rw [Bool.eq_iff_iff, beq_iff_eq, beq_iff_eq, Int32.toInt_inj]

theorem bne_toInt (i j : Int32) : (i != j) = (i.toInt != j.toInt) := by
  rw [bne, bne, beq_toInt]

/-- Different kinds between which values are converted; otherwise coercion gives a zero. -/
def convertible : Kind → Kind → Bool
  | .int, .string | .float, .string | .bool, .string => true
  | .int, .float | .bool, .float => true
  | .float, .int | .bool, .int => true
  | .int, .bool | .float, .bool => true
  | _, _ => false

theorem coerce_eq_zero (hne : t.kind ≠ target) (h : convertible t.kind target = false)
    (hk : target ≠ .none) :
    coerce (some t) target = zero target := by
  obtain ⟨operand, kind⟩ := t
  cases kind <;> cases target <;> simp_all [coerce, convertible]

theorem recast_eq_zero (hne : v.kind ≠ target) (h : convertible v.kind target = false) :
    recast v target = Value.zero target := by
  cases v <;> cases target <;>
    simp_all [recast, Value.coerce, Value.kind, Value.zero, convertible]

/-- A value as a declared kind. -/
theorem coerce_spec (ht : TypedFits s.used t) (hk : target ≠ .none) :
    Converts (coerce (some t) target) s t target := by
  obtain ⟨operand, kind⟩ := t
  by_cases heq : kind = target
  · refine ⟨operand, s, [], by simp [coerce, heq, pure_run], Appends.refl s, heq ▸ ht, ?_⟩
    rintro image a v - - ⟨hkind, w, hg, hw⟩
    refine ⟨a, w, Computes.nil _ a, hg, ?_, fun hs _ => .inr (heq ▸ hs)⟩
    rwa [recast_of_kind_eq (hkind.symm.trans heq)]
  by_cases hconv : convertible kind target = true
  · have htype : operand.type = irType kind := ht.type
    cases kind with
    | int =>
      cases target with
      | string => exact converts_text ht rfl (by simp)
      | float => exact converts_float ht (.inl rfl)
      | bool =>
        refine converts_word (.icmp .ne operand (int32 0)) rfl rfl (by simp) ?_
        intro image a v w x hkind hg hw
        cases v with
        | int n =>
          obtain ⟨i, rfl, rfl⟩ := holds_int.mp hw
          refine ⟨_, runs_icmp hg (gives_int32 0) rfl, holds_bool.mpr ?_,
            by simp [Value.coerce, Value.kind]⟩
          exact congrArg Word.bit (bne_toInt i 0)
        | _ => simp [Value.kind] at hkind
      | _ => simp [convertible] at hconv
    | float =>
      cases target with
      | string => exact converts_text ht rfl (by simp)
      | int =>
        have hcast := cast_of_ne .fptosi (show operand.type ≠ .i32 by simp [htype, irType]) ""
        show Converts (some <$> cast .fptosi operand .i32 "") s _ .int
        rw [hcast]
        refine converts_word _ rfl rfl (by simp) ?_
        intro image a v w x hkind hg hw
        cases v with
        | float y =>
          obtain rfl := holds_float.mp hw
          exact ⟨_, runs_convert hg rfl, holds_int.mpr ⟨_, rfl, toInt_truncateFloat y⟩,
            by simp [Value.coerce, Value.kind]⟩
        | _ => simp [Value.kind] at hkind
      | bool =>
        refine converts_word (.fcmp .une operand (.double 0.0)) rfl rfl (by simp) ?_
        intro image a v w x hkind hg hw
        cases v with
        | float y =>
          obtain rfl := holds_float.mp hw
          exact ⟨_, runs_fcmp hg (gives_double 0.0) rfl, holds_bool.mpr rfl,
            by simp [Value.coerce, Value.kind]⟩
        | _ => simp [Value.kind] at hkind
      | _ => simp [convertible] at hconv
    | bool =>
      cases target with
      | string => exact converts_text ht rfl (by simp)
      | float => exact converts_float ht (.inr (.inr rfl))
      | int =>
        have hcast := cast_of_ne .zext (show operand.type ≠ .i32 by simp [htype, irType]) ""
        show Converts (some <$> cast .zext operand .i32 "") s _ .int
        rw [hcast]
        refine converts_word _ rfl rfl (by simp) ?_
        intro image a v w x hkind hg hw
        cases v with
        | bool bit =>
          obtain rfl := holds_bool.mp hw
          refine ⟨_, runs_convert hg rfl, holds_int.mpr ⟨_, rfl, ?_⟩,
            by simp [Value.coerce, Value.kind]⟩
          cases bit <;> rfl
        | _ => simp [Value.kind] at hkind
      | _ => simp [convertible] at hconv
    | _ => simp [convertible] at hconv
  · have hconv : convertible kind target = false := by simpa using hconv
    rw [coerce_eq_zero heq hconv hk]
    exact converts_zero hk fun v hv => recast_eq_zero (hv ▸ heq) (hv ▸ hconv)

end DualEngine.Lowering
