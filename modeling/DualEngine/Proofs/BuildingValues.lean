import DualEngine.Proofs.Building

/-! # Sound code for values

Operators, conversions, arrays, output and variables: the operands that they are given may be used
where they append their code, and so may what they give, which is of the type of its kind.
-/
namespace DualEngine.Lowering
open IR Scaffold

variable {F : Form} {w w' : Scaffold} {moves : Prop} {l r v : Option Typed} {kind : Kind}
  {args elements : List Operand} {buffer o : Operand}

/-- The value, if there is one, may be used, and is of the type of its kind. -/
def Bears (F : Form) (w : Scaffold) (v : Option Typed) : Prop :=
  ∀ t, v = some t → w.Has F t.operand (irType t.kind) ∧ t.kind ≠ .none

/-- There is an operand of the type of the kind, unless the kind is `none`. -/
def Gives (F : Form) (kind : Kind) (r : Option Operand) (w : Scaffold) : Prop :=
  (r = none ∧ kind = .none) ∨ ∃ o, r = some o ∧ w.Has F o (irType kind) ∧ kind ≠ .none

theorem Bears.on (h : Bears F w v) (hw : Onward moves w w') : Bears F w' v :=
  fun t ht => ⟨(h t ht).1.on hw, (h t ht).2⟩

theorem bears_none : Bears F w none := by
  rintro t ⟨⟩

theorem bears_some (h : w.Has F o (irType kind)) (hk : kind ≠ .none) :
    Bears F w (some ⟨o, kind⟩) := by
  rintro t ⟨⟩
  exact ⟨h, hk⟩

theorem Gives.of_has (h : w.Has F o (irType kind)) (hk : kind ≠ .none) : Gives F kind (some o) w :=
  .inr ⟨o, rfl, h, hk⟩

theorem irType_ne_void (h : kind ≠ .none) : irType kind ≠ .void := by
  cases kind <;> simp [irType, Ty.text, Ty.ints] at h ⊢

theorem has_int (n : Int) {type : Ty} (h : 0 < type.width) : w.Has F (.int n type) type := ⟨h, rfl⟩

theorem has_int32 (n : Int) : w.Has F (int32 n) .i32 := has_int n (by decide)

theorem has_double (x : Float) : w.Has F (.double x) .double := ⟨trivial, rfl⟩

/-! ## Conversions -/

theorem builds_zero (kind : Kind) :
    Builds F moves w (zero kind) fun r w' => Gives F kind r w' := by
  have htext : F.Foresees w.state emptyText (.array 1 .i8) := .inl (by decide)
  have harray : F.Foresees w.state emptyArray (.array 1 .i32) := .inl (by decide)
  have htakes {t t' : Ty} : Conversion.Takes (.pointer t) (.pointer t') .bitcast := ⟨rfl, rfl⟩
  cases kind with
  | int => exact builds_pure (.of_has (has_int32 0) (by decide))
  | float => exact builds_pure (.of_has (has_double 0.0) (by decide))
  | bool => exact builds_pure (.of_has (has_int 0 (by decide)) (by decide))
  | none => exact builds_pure (.inl ⟨rfl, rfl⟩)
  | string =>
    exact (builds_external htext (by decide)).bind fun address w' _ ha =>
      (builds_cast ha htakes _).map fun o w'' ho => .of_has ho (by decide)
  | intArray =>
    exact (builds_external harray (by decide)).bind fun address w' _ ha =>
      (builds_cast ha htakes _).map fun o w'' ho => .of_has ho (by decide)

theorem builds_toFloat {v : Typed} (hv : w.Has F v.operand (irType v.kind))
    (hk : v.kind = .int ∨ v.kind = .float ∨ v.kind = .bool) :
    Builds F moves w (toFloat v) fun o w' => w'.Has F o .double := by
  obtain ⟨operand, kind⟩ := v
  have hsigned : Conversion.Takes .i32 .double .sitofp := by decide
  have hunsigned : Conversion.Takes .i1 .double .uitofp := by decide
  rcases hk with rfl | rfl | rfl
  · exact builds_cast hv hsigned _
  · exact builds_pure hv
  · exact builds_cast hv hunsigned _

theorem builds_boolText (ho : w.Has F o .i1) :
    Builds F moves w (boolText o) fun o w' => w'.Has F o .text :=
  (builds_textConstant _ (by decide)).bind fun yes w1 h1 hyes =>
    (builds_textConstant _ (by decide)).bind fun no w2 h2 hno =>
      builds_select ((ho.on h1).on h2) (hyes.on h2) hno _

/-- The argument for a directive; it is a text unless it is a number. -/
theorem builds_formatted (hv : Bears F w v) :
    Builds F moves w (formatted v) fun p w' => ∃ type, w'.Has F p.2 type ∧
      ((kindOf v).isNumeric = false → type = .text) := by
  have hnone : Builds F moves w (do return ("%s", ← textConstant "none" "str") : Lower _)
      fun p w' => ∃ type, w'.Has F p.2 type ∧ ((kindOf v).isNumeric = false → type = .text) :=
    (builds_textConstant _ (by decide)).bind fun o w' _ ho => builds_pure ⟨_, ho, fun _ => rfl⟩
  cases v with
  | none => exact hnone
  | some t =>
    obtain ⟨operand, kind⟩ := t
    obtain ⟨ho, -⟩ := hv _ rfl
    cases kind with
    | int | float => exact builds_pure ⟨_, ho, fun h => by cases h⟩
    | string => exact builds_pure ⟨_, ho, fun _ => rfl⟩
    | bool => exact (builds_boolText ho).bind fun o w' _ ho => builds_pure ⟨_, ho, fun _ => rfl⟩
    | none => exact hnone
    | intArray => exact builds_mismatch

theorem builds_malloc {size : Operand} (h : w.Has F size .i64) (wanted : String) :
    Builds F moves w (emit (.call malloc [size]) wanted) fun o w' => w'.Has F o .text :=
  builds_library (by decide) (by simpa using h.1) (by simp [Operation.WellTyped, malloc, h.2]) _

/-- A text is printed into a buffer. -/
theorem builds_sprintf {format : Operand} (hb : w.Has F buffer .text) (hf : w.Has F format .text)
    (ha : ∀ o ∈ args, w.Reaches F w.current o) (wanted : String) :
    Builds F moves w (emit (.call sprintf (buffer :: format :: args)) wanted) fun _ _ => True := by
  have hargs : ∀ o ∈ buffer :: format :: args, w.Reaches F w.current o := by
    simpa [hb.1, hf.1] using ha
  refine (builds_library (by decide) hargs ?_ wanted).imp fun _ _ _ _ => trivial
  simp [Operation.WellTyped, sprintf, hb.2, hf.2]

theorem builds_printf {format : Operand} (hf : w.Has F format .text)
    (ha : ∀ o ∈ args, w.Reaches F w.current o) (wanted : String) :
    Builds F moves w (emit (.call printf (format :: args)) wanted) fun _ _ => True := by
  have hargs : ∀ o ∈ format :: args, w.Reaches F w.current o := by
    simpa [hf.1] using ha
  refine (builds_library (by decide) hargs ?_ wanted).imp fun _ _ _ _ => trivial
  simp [Operation.WellTyped, printf, hf.2]

theorem builds_textOf {v : Typed} (hv : Bears F w (some v)) :
    Builds F moves w (textOf v) fun o w' => w'.Has F o .text := by
  have hother (hk : v.kind.isNumeric = false) :
      Builds F moves w (do return (← formatted v).2) fun o w' => w'.Has F o .text := by
    refine (builds_formatted hv).bind fun p w1 _ hp => builds_pure ?_
    obtain ⟨type, harg, htype⟩ := hp
    exact htype hk ▸ harg
  obtain ⟨operand, kind⟩ := v
  cases kind with
  | string => exact builds_pure (hv _ rfl).1
  | int | float =>
    refine (builds_formatted hv).bind fun p w1 _ hp => ?_
    obtain ⟨type, harg, -⟩ := hp
    refine (builds_malloc (has_int _ (by decide)) _).bind fun buffer w2 h2 hbuffer => ?_
    refine (builds_textConstant _ (by decide)).bind fun format w3 h3 hformat => ?_
    refine (builds_sprintf (hbuffer.on h3) hformat ?_ _).bind fun _ w4 h4 _ =>
      builds_pure ((hbuffer.on h3).on h4)
    simpa using ((harg.on h2).on h3).1
  | bool | none | intArray => exact hother rfl

theorem builds_concat (hl : Bears F w l) (hr : Bears F w r) :
    Builds F moves w (concat l r) fun o w' => w'.Has F o .text := by
  have htakes : Conversion.Takes .i32 .i64 .sext := by decide
  refine (builds_formatted hl).bind fun p w1 h1 ⟨_, hp, _⟩ => ?_
  refine (builds_formatted (hr.on h1)).bind fun q w2 h2 ⟨_, hq, _⟩ => ?_
  refine (builds_textConstant _ (by decide)).bind fun format w3 h3 hformat => ?_
  have hp3 := (hp.on h2).on h3
  have hq3 := hq.on h3
  refine (builds_library (by decide) ?_ ?_ _).bind fun length w4 h4 hlength => ?_
  · simp only [List.mem_cons, List.not_mem_nil, or_false]
    rintro o (rfl | rfl | rfl | rfl | rfl)
    · exact rfl
    · show 0 < Ty.width .i64
      decide
    · exact hformat.1
    · exact hp3.1
    · exact hq3.1
  · have hnull : (Operand.null .text).type = .text := rfl
    have hnothing : (Operand.int 0 .i64).type = .i64 := rfl
    simp [Operation.WellTyped, snprintf, hnull, hnothing, hformat.2]
  refine (builds_cast hlength htakes _).bind fun wide w5 h5 hwide => ?_
  refine (builds_binary hwide (has_int 1 (by decide)) (by decide) _).bind fun size w6 h6 hsize => ?_
  refine (builds_malloc hsize _).bind fun buffer w7 h7 hbuffer => ?_
  have lift {o : Operand} {t : Ty} (h : w3.Has F o t) : w7.Has F o t :=
    (((h.on h4).on h5).on h6).on h7
  refine (builds_sprintf hbuffer (lift hformat) ?_ _).bind fun _ w8 h8 _ =>
    builds_pure (hbuffer.on h8)
  simpa using ⟨(lift hp3).1, (lift hq3).1⟩

theorem builds_coerce (hv : Bears F w v) (target : Kind) :
    Builds F moves w (coerce v target) fun r w' => Gives F target r w' := by
  cases v with
  | none => exact builds_zero target
  | some t =>
    obtain ⟨ho, hk⟩ := hv _ rfl
    obtain ⟨o, kind⟩ := t
    have hnarrow : Conversion.Takes .double .i32 .fptosi := by decide
    have hwiden : Conversion.Takes .i1 .i32 .zext := by decide
    unfold coerce
    dsimp only
    split
    · rename_i heq
      subst heq
      exact builds_pure (.of_has ho hk)
    · split
      · exact builds_pure (.inl ⟨rfl, rfl⟩)
      · exact builds_zero _
      · exact builds_zero _
      · exact (builds_textOf hv).map fun o w' ho => .of_has ho (by decide)
      · exact (builds_toFloat ho (.inl rfl)).map fun o w' ho => .of_has ho (by decide)
      · exact (builds_toFloat ho (.inr (.inr rfl))).map fun o w' ho => .of_has ho (by decide)
      · exact (builds_cast ho hnarrow _).map fun o w' ho => .of_has ho (by decide)
      · exact (builds_cast ho hwiden _).map fun o w' ho => .of_has ho (by decide)
      · exact (builds_icmp ho (has_int32 0) (show 0 < Ty.width .i32 by decide) _).map
          fun o w' ho => .of_has ho (by decide)
      · exact (builds_fcmp ho (has_double 0.0) _).map fun o w' ho => .of_has ho (by decide)
      · exact builds_zero _

/-! ## Operators -/

theorem builds_arithmetic (hl : Bears F w l) (op : ArithOp) (hr : Bears F w r) :
    Builds F moves w (arithmetic l op r) fun t w' => Bears F w' (some t) := by
  unfold arithmetic
  split
  · exact (builds_concat hl hr).bind fun o w' _ ho => builds_pure (bears_some ho (by decide))
  · rename_i t t' hk
    obtain ⟨hnum, hnum', -⟩ := numeric_of_arithmetic? hk (by decide)
    refine (builds_toFloat (hl _ rfl).1 (numeric_cases hnum)).bind fun a w1 h1 ha => ?_
    refine (builds_toFloat ((hr _ rfl).1.on h1) (numeric_cases hnum')).bind fun b w2 h2 hb => ?_
    have htakes : (floatOp op).1.Takes .double := by
      cases op <;> rfl
    exact (builds_binary (ha.on h2) hb htakes _).bind fun o w' _ ho =>
      builds_pure (bears_some ho (by decide))
  · rename_i kind t t' hstring hfloat hk
    obtain ⟨hnum, hnum', hkind⟩ := numeric_of_arithmetic? hk hstring
    have hpromote : t.kind.promote t'.kind = .int := by
      rw [hkind] at hfloat
      unfold Kind.promote at hfloat ⊢
      split
      · rename_i heq
        exact absurd (if_pos heq) hfloat
      · rfl
    obtain ⟨hint, hint'⟩ : t.kind = .int ∧ t'.kind = .int := int_of_promote hnum hnum' hpromote
    obtain rfl : kind = .int := hkind.trans hpromote
    have ht := (hl _ rfl).1
    have ht' := (hr _ rfl).1
    rw [hint] at ht
    rw [hint'] at ht'
    have htakes : (intOp op).1.Takes .i32 := by
      cases op <;> exact Nat.succ_pos 31
    exact (builds_binary ht ht' htakes _).bind fun o w' _ ho =>
      builds_pure (bears_some ho (by decide))
  · exact builds_mismatch

theorem builds_comparison (hl : Bears F w l) (op : CompareOp) (hr : Bears F w r) :
    Builds F moves w (comparison l op r) fun t w' => Bears F w' (some t) := by
  have hbool {m : Lower Operand} {w : Scaffold}
      (h : Builds F moves w m fun o w' => w'.Has F o .i1) :
      Builds F moves w (do return (⟨← m, .bool⟩ : Typed)) fun t w' => Bears F w' (some t) :=
    h.bind fun o w' _ ho => builds_pure (bears_some ho (by decide))
  unfold comparison
  split
  · rename_i t t' _
    have ht := (hl t rfl).1
    have ht' := (hr t' rfl).1
    split
    · rename_i hnum
      obtain ⟨hnum, hnum'⟩ := Bool.and_eq_true_iff.mp hnum
      split
      · refine (builds_toFloat ht (numeric_cases hnum)).bind fun a w1 h1 ha => ?_
        refine (builds_toFloat (ht'.on h1) (numeric_cases hnum')).bind fun b w2 h2 hb => ?_
        exact hbool (builds_fcmp (ha.on h2) hb _)
      · rename_i hfloat
        have hint : t.kind = .int ∧ t'.kind = .int :=
          int_of_promote hnum hnum' (if_neg hfloat)
        rw [hint.1] at ht
        rw [hint.2] at ht'
        exact hbool (builds_icmp ht ht' (show 0 < Ty.width .i32 by decide) _)
    · split
      · rename_i hboth
        rw [hboth.1] at ht
        rw [hboth.2] at ht'
        exact hbool (builds_icmp ht ht' (show 0 < Ty.width .i1 by decide) _)
      · refine (builds_textOf hl).bind fun a w1 h1 ha => ?_
        refine (builds_textOf (hr.on h1)).bind fun b w2 h2 hb => ?_
        have ha2 := ha.on h2
        refine (builds_library (by decide) ?_ ?_ _).bind fun order w3 h3 horder => ?_
        · simpa using ⟨ha2.1, hb.1⟩
        · simp [Operation.WellTyped, strcmp, ha2.2, hb.2]
        exact hbool (builds_icmp horder (has_int32 0) (show 0 < Ty.width .i32 by decide) _)
  · exact builds_mismatch

theorem builds_truth (hv : Bears F w v) :
    Builds F moves w (truth v) fun o w' => w'.Has F o .i1 := by
  unfold truth
  split
  · exact builds_pure (hv _ rfl).1
  · exact builds_icmp (hv _ rfl).1 (has_int32 0) (show 0 < Ty.width .i32 by decide) _
  · exact builds_mismatch

theorem builds_randomBetween {drawn : Operand} (hd : w.Has F drawn .i32) (hl : Bears F w l)
    (hr : Bears F w r) :
    Builds F moves w (randomBetween drawn l r) fun t w' => Bears F w' (some t) := by
  unfold randomBetween
  split
  · rename_i a b
    have ha : w.Has F a .i32 := (hl _ rfl).1
    have hb : w.Has F b .i32 := (hr _ rfl).1
    have hwidth : 0 < Ty.width .i32 := by decide
    refine (builds_icmp ha hb hwidth _).bind fun swapped w1 h1 hswapped => ?_
    refine (builds_select hswapped (hb.on h1) (ha.on h1) _).bind fun low w2 h2 hlow => ?_
    refine (builds_select (hswapped.on h2) ((ha.on h1).on h2) ((hb.on h1).on h2) _).bind
      fun high w3 h3 hhigh => ?_
    refine (builds_binary hhigh (hlow.on h3) (by decide) _).bind fun diff w4 h4 hdiff => ?_
    refine (builds_binary hdiff (has_int32 1) (by decide) _).bind fun size w5 h5 hsize => ?_
    have hdrawn := ((((hd.on h1).on h2).on h3).on h4).on h5
    refine (builds_binary hdrawn hsize (by decide) _).bind fun rest w6 h6 hrest => ?_
    have hlow' := (((hlow.on h3).on h4).on h5).on h6
    exact (builds_binary hrest hlow' (by decide) _).bind fun o w' _ ho =>
      builds_pure (bears_some ho (by decide))
  · exact builds_mismatch

/-! ## Arrays and output -/

theorem builds_storeElements (hb : w.Has F buffer .ints) (i : Nat)
    (he : ∀ o ∈ elements, w.Has F o .i32) :
    Builds F moves w (buildArray.storeElements buffer i elements) fun _ _ => True := by
  induction elements generalizing i w with
  | nil => exact builds_pure trivial
  | cons element rest ih =>
    refine (builds_element hb rfl (has_int32 i) _).bind fun address w1 h1 ha => ?_
    have hstored := (he element List.mem_cons_self).on h1
    refine (builds_store hstored ha (by decide) _).bind fun _ w2 h2 _ => ?_
    exact ih ((hb.on h1).on h2) (i + 1) fun o ho =>
      ((he o (List.mem_cons_of_mem _ ho)).on h1).on h2

theorem builds_buildArray (he : ∀ o ∈ elements, w.Has F o .i32) :
    Builds F moves w (buildArray elements) fun t w' => Bears F w' (some t) := by
  have htakes : Conversion.Takes .text .ints .bitcast := by decide
  refine (builds_malloc (has_int _ (by decide)) _).bind fun raw w1 h1 hraw => ?_
  refine (builds_cast hraw htakes _).bind fun buffer w2 h2 hbuffer => ?_
  refine (builds_store (has_int32 _) hbuffer (by decide) _).bind fun _ w3 h3 _ => ?_
  refine (builds_storeElements (hbuffer.on h3) 1 fun o ho =>
    (((he o ho).on h1).on h2).on h3).bind fun _ w4 h4 _ => ?_
  exact builds_pure (bears_some ((hbuffer.on h3).on h4) (by decide))

theorem builds_printText (contents : String) :
    Builds F moves w (printText contents) fun _ _ => True :=
  (builds_textConstant _ (by decide)).bind fun plain w1 h1 hplain =>
    (builds_textConstant _ (by decide)).bind fun text w2 h2 htext =>
    (builds_printf (hplain.on h2) (by simpa using htext.1) _).bind fun _ _ _ _ =>
    builds_pure trivial

theorem builds_printElement {index i : Operand} (hb : w.Has F buffer .ints)
    (hx : w.Has F index (.pointer .i32)) (hi : w.Has F i .i32) :
    Builds F moves w (printElement buffer index i) fun _ _ => True := by
  have hwidth : 0 < Ty.width .i32 := by decide
  refine (builds_icmp hi (has_int32 0) hwidth _).bind fun first w1 h1 hfirst => ?_
  refine (builds_textConstant _ (by decide)).bind fun nothing w2 h2 hnothing => ?_
  refine (builds_textConstant _ (by decide)).bind fun comma w3 h3 hcomma => ?_
  refine (builds_select ((hfirst.on h2).on h3) (hnothing.on h3) hcomma _).bind
    fun separator w4 h4 hseparator => ?_
  have lift {o : Operand} {t : Ty} (h : w.Has F o t) : w4.Has F o t :=
    (((h.on h1).on h2).on h3).on h4
  refine (builds_binary (lift hi) (has_int32 1) (by decide) _).bind fun place w5 h5 hplace => ?_
  refine (builds_element ((lift hb).on h5) rfl hplace _).bind fun address w6 h6 haddress => ?_
  refine (builds_load haddress (by decide) _).bind fun element w7 h7 helement => ?_
  refine (builds_textConstant _ (by decide)).bind fun both w8 h8 hboth => ?_
  refine (builds_printf hboth ?_ _).bind fun _ w9 h9 _ => ?_
  · simpa using ⟨((((hseparator.on h5).on h6).on h7).on h8).1, (helement.on h8).1⟩
  have lift' {o : Operand} {t : Ty} (h : w.Has F o t) : w9.Has F o t :=
    (((((lift h).on h5).on h6).on h7).on h8).on h9
  refine (builds_binary (lift' hi) (has_int32 1) (by decide) _).bind fun next w10 h10 hnext => ?_
  exact (builds_store hnext ((lift' hx).on h10) (by decide) _).bind fun _ _ _ _ =>
    builds_pure trivial

/-! ## Variables -/

/-- The ground that a tree is lowered on: the current block has no end yet, parameters are doubles,
and blocks that may still get code can be found. -/
structure Ground (F : Form) (scope : Scope) (w : Scaffold) : Prop where
  live : w.Live
  entry : w.Settled F.entry
  params : ∀ x o, scope.params.get? x = some o → w.Has F o .double
  outermost : ∀ label, scope.outermost = some label → w.Ended label

variable {scope : Scope} {name : String} {slot : Slot} {s : State}

theorem Ground.on (h : Ground F scope w) (hw : Onward moves w w') : Ground F scope w' :=
  ⟨hw.live h.live, h.entry.on hw, fun x o hx => (h.params x o hx).on hw,
    fun label hl => hw.toExtends.ended (h.outermost label hl)⟩

theorem builds_loadName (hg : Ground F scope w) (name : String) :
    Builds F moves w (loadName scope name) fun t w' => Bears F w' (some t) := by
  unfold loadName
  cases hp : scope.params.get? name with
  | some o => exact builds_pure (bears_some (hg.params name o hp) (by decide))
  | none =>
    refine builds_get fun hw => ?_
    cases hx : w.state.context.get? name with
    | none => exact builds_fail rfl
    | some symbol =>
      obtain ⟨hknown, hkind, hne⟩ := hw.consistent.symbols name symbol hx
      have hvoid : irType symbol.storage.kind ≠ .void := irType_ne_void (hkind ▸ hne)
      refine (builds_slotAddress hknown).bind fun address w1 _ ha => ?_
      exact (builds_load ha hvoid _).bind fun o w2 _ ho =>
        builds_pure (bears_some (hkind ▸ ho) hne)

theorem Consistent.withSlot (h : Consistent F s) (name : String) (hk : kind ≠ .none) :
    Consistent F (s.withSlot ⟨name, s.nextSlot, kind⟩) := by
  have hmono {slot : Slot} (hs : F.Knows s slot) :
      F.Knows (s.withSlot ⟨name, s.nextSlot, kind⟩) slot :=
    hs.imp_right fun hs => List.mem_append_left _ hs
  have hcases {slot : Slot} (hs : F.Knows (s.withSlot ⟨name, s.nextSlot, kind⟩) slot) :
      F.Knows s slot ∨ slot = ⟨name, s.nextSlot, kind⟩ := by
    rcases hs with hs | hs
    · exact .inl (.inl hs)
    · exact (List.mem_append.mp hs).imp .inr List.mem_singleton.mp
  have hchange : Change .everything s (s.withSlot ⟨name, s.nextSlot, kind⟩) :=
    .slot s name hk trivial
  refine ⟨hchange.named h.named, h.functions, h.callees, h.linked, h.bodies, ?_, ?_, ?_, ?_⟩
  · intro x type hx
    refine (h.externals x type hx).imp_right ?_
    rintro ⟨slot, hs, hrest⟩
    exact ⟨slot, hmono hs, hrest⟩
  · intro x symbol hx
    exact ⟨hmono (h.symbols x symbol hx).1, (h.symbols x symbol hx).2⟩
  · intro slot hs
    rcases hcases hs with hs | rfl
    · exact (h.numbers slot hs).trans (Nat.lt_succ_self _)
    · exact Nat.lt_succ_self _
  · -- the new slot has a number that no slot had
    intro slot slot' hs hs' heq
    have hnumber := (Slot.symbol_injective heq).2
    rcases hcases hs with hs | rfl
    · rcases hcases hs' with hs' | rfl
      · exact h.alone slot slot' hs hs' heq
      · exact absurd hnumber (h.numbers slot hs).ne
    · rcases hcases hs' with hs' | rfl
      · exact absurd hnumber.symm (h.numbers slot' hs').ne
      · rfl

theorem Consistent.binding (h : Consistent F s) (hs : slot ∈ s.created) (hk : slot.kind ≠ .none) :
    Consistent F (s.binding slot.name slot slot.kind) := by
  have hchange : Change .everything s (s.binding slot.name slot slot.kind) := .bind s hs trivial
  refine ⟨hchange.named h.named, h.functions, h.callees, h.linked, h.bodies, h.externals, ?_,
    h.numbers, h.alone⟩
  intro x symbol hx
  rw [get?_binding] at hx
  split at hx
  · cases hx
    exact ⟨.inr hs, rfl, hk⟩
  · exact h.symbols x symbol hx

theorem builds_seedSlot (hg : Ground F scope w) (hs : F.Knows w.state slot)
    {former : Option (Symbol Slot)}
    (hf : ∀ symbol, former = some symbol → F.Knows w.state symbol.storage ∧
      symbol.storage.kind = symbol.kind ∧ symbol.kind ≠ .none) :
    Builds F moves w (seedSlot scope slot former) fun _ _ => True := by
  unfold seedSlot
  split
  · rename_i label symbol hlabel
    obtain ⟨hknown, hkind, hne⟩ := hf symbol rfl
    have hvoid : irType symbol.storage.kind ≠ .void := irType_ne_void (hkind ▸ hne)
    refine Builds.imp (Builds.inBlock (Q := fun _ _ => True) (hg.outermost label hlabel).settled ?_)
      fun _ _ _ _ => trivial
    have hknown' : F.Knows (w.entered label).state symbol.storage := hknown
    have hs' : F.Knows (w.entered label).state slot := hs
    refine (builds_slotAddress hknown').bind fun address w1 h1 ha => ?_
    refine (builds_load ha hvoid _).bind fun old w2 h2 ho => ?_
    refine (builds_coerce (bears_some (hkind ▸ ho) hne) _).bind fun r w3 h3 hr => ?_
    rcases hr with ⟨rfl, -⟩ | ⟨o, rfl, ho, hkind'⟩
    · exact builds_pure trivial
    · have hslot : F.Knows w3.state slot := ((hs'.on h1).on h2).on h3
      refine (builds_slotAddress hslot).bind fun target w4 h4 htarget => ?_
      exact (builds_store (ho.on h4) htarget (irType_ne_void hkind') _).bind fun _ _ _ _ =>
        builds_pure trivial
  · exact builds_pure trivial

theorem builds_slotFor (hg : Ground F scope w) (name : String) (hk : kind ≠ .none) :
    Builds F moves w (slotFor scope name kind) fun slot w' =>
      F.Knows w'.state slot ∧ slot.kind = kind := by
  unfold slotFor
  refine builds_get fun hw => ?_
  have hformer : ∀ symbol, w.state.context.get? name = some symbol →
      F.Knows w.state symbol.storage ∧ symbol.storage.kind = symbol.kind ∧ symbol.kind ≠ .none :=
    fun symbol hx => hw.consistent.symbols name symbol hx
  dsimp only
  cases hx : (w.state.context.get? name).filter (·.kind = kind) with
  | some symbol =>
    obtain ⟨hget, hkind⟩ := Option.filter_eq_some_iff.mp hx
    obtain ⟨hknown, hstorage, -⟩ := hformer symbol hget
    exact builds_pure ⟨hknown, hstorage.trans (by simpa using hkind)⟩
  | none =>
    have hnew : Builds F moves w (newSlot name kind) fun slot w' =>
        slot ∈ w'.state.created ∧ slot.name = name ∧ slot.kind = kind :=
      builds_module (newSlot_run name kind w.state) rfl (.single (.slot _ name hk trivial))
        (fun hw => hw.consistent.withSlot name hk)
        fun _ => ⟨List.mem_append_right _ List.mem_cons_self, rfl, rfl⟩
    refine hnew.bind fun slot w1 h1 ⟨hmem, hname, hkind⟩ => ?_
    refine (builds_seedSlot (hg.on h1) (.inr hmem) fun symbol hsymbol => ?_).bind
      fun _ w2 h2 _ => ?_
    · obtain ⟨hknown, hrest⟩ := hformer symbol hsymbol
      exact ⟨hknown.on h1, hrest⟩
    have hmem2 : slot ∈ w2.state.created := h2.changes.created_subset hmem
    subst hname hkind
    have hbind : Change .everything w2.state (w2.state.binding slot.name slot slot.kind) :=
      .bind _ hmem2 trivial
    exact (builds_module (modify_run _ w2.state) rfl (.single hbind)
      (fun hw => hw.consistent.binding hmem2 hk) fun _ => Or.inr hmem2).bind
        fun _ w3 h3 hknown => builds_pure ⟨hknown, rfl⟩

theorem builds_storeSlot (hs : F.Knows w.state slot) {t : Typed} (ht : Bears F w (some t))
    (hk : slot.kind = t.kind) : Builds F moves w (storeSlot slot t) fun _ _ => True := by
  obtain ⟨ho, hne⟩ := ht t rfl
  have hvoid := irType_ne_void hne
  have hstore {w : Scaffold} (hs : F.Knows w.state slot) {o : Operand}
      (ho : w.Has F o (irType t.kind)) :
      Builds F moves w (do
        let address ← slotAddress slot
        let _ ← emit (.store o address) "") fun _ _ => True := by
    refine (builds_slotAddress hs).bind fun address w1 h1 ha => ?_
    rw [hk] at ha
    exact (builds_store (ho.on h1) ha hvoid _).bind fun _ _ _ _ => builds_pure trivial
  unfold storeSlot
  split
  · rename_i hstring
    have htext : w.Has F t.operand .text := by
      rw [hstring] at ho
      exact ho
    refine (builds_library (by decide) ?_ ?_ _).bind fun copy w1 h1 hcopy => ?_
    · simpa using htext.1
    · simp [Operation.WellTyped, strdup, htext.2]
    · exact hstore (hs.on h1) (by rw [hstring]; exact hcopy)
  · exact hstore hs ho

theorem builds_assign (hg : Ground F scope w) (name : String) (hv : Bears F w v) :
    Builds F moves w (assign scope name v) fun t w' => Bears F w' (some t) := by
  cases v with
  | none => exact builds_mismatch
  | some t =>
    dsimp only [assign]
    split
    · exact builds_mismatch_bind
    · rename_i hne
      refine (builds_slotFor hg name hne).bind fun slot w1 h1 ⟨hknown, hkind⟩ => ?_
      exact (builds_storeSlot hknown (hv.on h1) hkind).bind fun _ w2 h2 _ =>
        builds_pure ((hv.on h1).on h2)

theorem builds_stepVariable (name : String) {op : BinaryOp} (hop : op.Takes .i32) :
    Builds F moves w (stepVariable scope name op) fun t w' => Bears F w' (some t) := by
  unfold stepVariable
  split
  · exact builds_mismatch_bind
  · refine builds_get fun hw => ?_
    cases hx : w.state.context.get? name with
    | none => exact builds_fail rfl
    | some symbol =>
      obtain ⟨hknown, hkind, -⟩ := hw.consistent.symbols name symbol hx
      dsimp only
      split
      · rename_i hint
        rw [hint] at hkind
        refine (builds_slotAddress hknown).bind fun address w1 _ ha => ?_
        rw [hkind] at ha
        refine (builds_load ha (by decide) _).bind fun current w2 h2 hcurrent => ?_
        refine (builds_binary hcurrent (has_int32 1) hop _).bind fun updated w3 h3 hupdated => ?_
        exact (builds_store hupdated ((ha.on h2).on h3) (by decide) _).bind fun _ w4 h4 _ =>
          builds_pure (bears_some (hupdated.on h4) (by decide))
      · exact builds_mismatch

end DualEngine.Lowering
