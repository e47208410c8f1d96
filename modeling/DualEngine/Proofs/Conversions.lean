import DualEngine.Proofs.LibraryCalls

/-! # Conversions in generated code

For every conversion: the code that it appends can be appended whenever the operand is of the right
kind, and where that code runs it gives the value that the conversion is named for.
-/
namespace DualEngine.Lowering
open IR Machine

variable {image : Image} {used used' : List String} {code more : List Instruction} {a b c : Snap}
  {s : State} {m : Memory} {o : Operand} {op : Operation} {s' : State} {x : String} {t : Typed}
  {v : Value} {w : Word}

/-- The code runs from `a` to `b` and only computes. -/
structure Computes (image : Image) (used : List String) (code : List Instruction) (a b : Snap) :
    Prop where
  runs : Runs image code a b
  quiet : Quiet used a b

theorem Computes.nil (used : List String) (a : Snap) : Computes image used [] a a :=
  ⟨Runs.nil a, Quiet.refl used a⟩

theorem Computes.append (h : Computes image used code a b) (h' : Computes image used' more b c)
    (hs : used ⊆ used') : Computes image used (code ++ more) a c :=
  ⟨h.runs.append h'.runs, h.quiet.trans h'.quiet hs⟩

theorem Appends.name_fresh (h : Appends [⟨x, op⟩] s s') : x ∉ s.used :=
  (h.fresh _ (List.mem_singleton.mpr rfl)).1

theorem Appends.serves (h : Appends code s s') (hs : Serves image m s'.globals) :
    Serves image m s.globals :=
  hs.mono h.globals

/-- One instruction that sets its register and nothing else. -/
theorem computes_set (h : Appends [⟨x, op⟩] s s') (hr : Runs image [⟨x, op⟩] a (a.set x w)) :
    Computes image s.used [⟨x, op⟩] a (a.set x w) :=
  ⟨hr, quiet_set h.name_fresh a w⟩

theorem Serves.text? {globals : List Global} (h : Serves image m globals) {name contents : String}
    (hg : Global.text name contents ∈ globals) :
    m.text? (image.address name) = some (cut contents) := by
  obtain ⟨k, size, hk, hb⟩ := h.texts name contents hg
  rw [Image.address, hk]
  exact Memory.text?_heap hb

/-! ## Texts of the module -/

theorem textConstant_spec (s : State) (contents wanted : String)
    (hw : wanted.toList.head? ≠ some 'd') :
    ∃ o s' code, textConstant contents wanted s = .ok o s' ∧ Appends code s s' ∧
      Fits o .text s'.used ∧
      ∀ image a, Serves image a.memory s'.globals →
        ∃ b address, Computes image s.used code a b ∧ Gives image b.frame o (.address address) ∧
          b.memory.text? address = some (cut contents) := by
  obtain ⟨name, s1, h1, A1, hmem⟩ := textName_spec s contents wanted hw
  obtain ⟨x, s2, h2, A2, hx⟩ := emit_spec s1
    (.convert .bitcast (.global name (.pointer (textType contents))) .text) "" rfl
  refine ⟨.register x .text, s2, _, ?_, A1.trans A2, ⟨rfl, hx⟩, ?_⟩
  · unfold textConstant
    rw [bind_ok h1, cast_of_ne _ (by simp [Operand.type, textType, Ty.text])]
    exact h2
  · intro image a hs
    refine ⟨a.set x (.address (image.address name)), image.address name, ?_,
      gives_set _ _ _ _, Serves.text? (A2.serves hs) hmem⟩
    have hrun : Runs image [⟨x, .convert .bitcast (.global name (.pointer (textType contents))) .text⟩]
        a (a.set x (.address (image.address name))) := runs_convert (gives_global _ _) rfl
    exact (Computes.nil s.used a).append (computes_set A2 hrun) A1.used

theorem no_zero_true : '\x00' ∉ "true".toList := by decide
theorem no_zero_false : '\x00' ∉ "false".toList := by decide

theorem boolText_spec (ho : Fits o .i1 s.used) :
    ∃ r s' code, boolText o s = .ok r s' ∧ Appends code s s' ∧ Fits r .text s'.used ∧
      ∀ image a bit, Serves image a.memory s'.globals → Gives image a.frame o (.bit bit) →
        ∃ b address, Computes image s.used code a b ∧ Gives image b.frame r (.address address) ∧
          b.memory.text? address = some (DualEngine.boolText bit) := by
  obtain ⟨yes, s1, c₁, h1, A1, F1, run1⟩ := textConstant_spec s "true" "str" (by decide)
  obtain ⟨no, s2, c₂, h2, A2, F2, run2⟩ := textConstant_spec s1 "false" "str" (by decide)
  obtain ⟨x, s3, h3, A3, hx⟩ := emit_spec s2 (.select o yes no) ""
    (by simp [Operation.misfit?, F1.type, F2.type])
  refine ⟨.register x yes.type, s3, _, ?_, (A1.trans A2).trans A3, ⟨F1.type, hx⟩, ?_⟩
  · unfold boolText
    rw [bind_ok h1, bind_ok h2]
    exact h3
  · intro image a bit hs ho'
    obtain ⟨b1, yesAt, C₁, g1, t1⟩ := run1 image a (A2.serves (A3.serves hs))
    obtain ⟨b2, noAt, C₂, g2, t2⟩ := run2 image b1 ((A3.serves hs).extend C₁.quiet.heap)
    have hyes : Gives image b2.frame yes (.address yesAt) := g1.keep F1.known C₂.quiet.registers
    have hbit : Gives image b2.frame o (.bit bit) :=
      (ho'.keep ho.known C₁.quiet.registers).keep (ho.known.mono A1.used) C₂.quiet.registers
    refine ⟨_, if bit then yesAt else noAt,
      (C₁.append C₂ A1.used).append (computes_set A3 (runs_select hbit hyes g2))
        fun _ hx => A2.used (A1.used hx), ?_, ?_⟩
    · cases bit <;> exact gives_set _ _ _ _
    · cases bit with
      | true =>
        rw [cut_of_not_mem no_zero_true] at t1
        exact C₂.quiet.heap.text? t1
      | false =>
        rw [cut_of_not_mem no_zero_false] at t2
        exact t2

/-- A number or a bool as a float. -/
theorem toFloat_spec (ht : TypedFits s.used t)
    (hk : t.kind = .int ∨ t.kind = .float ∨ t.kind = .bool) :
    ∃ o s' code, toFloat t s = .ok o s' ∧ Appends code s s' ∧ Fits o .double s'.used ∧
      ∀ image a v, Carries image a t v →
        ∃ b x, Computes image s.used code a b ∧ Gives image b.frame o (.double x) ∧
          v.coerce .float = .float x := by
  obtain ⟨operand, kind⟩ := t
  dsimp only at hk
  rcases hk with rfl | rfl | rfl
  · obtain ⟨x, s1, h1, A1, hx⟩ := emit_spec s (.convert .sitofp operand .double) "" rfl
    refine ⟨.register x .double, s1, _, ?_, A1, ⟨rfl, hx⟩, ?_⟩
    · have htype : operand.type = .i32 := ht.type
      show cast .sitofp operand .double "" s = _
      rw [cast_of_ne _ (by simp [htype])]
      exact h1
    · rintro image a v ⟨hkind, w, hg, hs⟩
      cases v with
      | int n =>
        obtain ⟨i, rfl, rfl⟩ := holds_int.mp hs.1
        exact ⟨_, _, computes_set A1 (runs_convert hg rfl), gives_set _ _ _ _, rfl⟩
      | _ => simp [Value.kind] at hkind
  · refine ⟨operand, s, [], rfl, Appends.refl s, ht, ?_⟩
    rintro image a v ⟨hkind, w, hg, hs⟩
    cases v with
    | float x =>
      obtain rfl := holds_float.mp hs.1
      exact ⟨a, x, Computes.nil _ a, hg, rfl⟩
    | _ => simp [Value.kind] at hkind
  · obtain ⟨x, s1, h1, A1, hx⟩ := emit_spec s (.convert .uitofp operand .double) "" rfl
    refine ⟨.register x .double, s1, _, ?_, A1, ⟨rfl, hx⟩, ?_⟩
    · have htype : operand.type = .i1 := ht.type
      show cast .uitofp operand .double "" s = _
      rw [cast_of_ne _ (by simp [htype])]
      exact h1
    · rintro image a v ⟨hkind, w, hg, hs⟩
      cases v with
      | bool bit =>
        obtain rfl := holds_bool.mp hs.1
        exact ⟨_, _, computes_set A1 (runs_convert hg rfl), gives_set _ _ _ _, rfl⟩
      | _ => simp [Value.kind] at hkind

/-! ## Texts of values -/

theorem int32_range (i : Int32) : -2 ^ 31 ≤ i.toInt ∧ i.toInt < 2 ^ 31 :=
  ⟨Int32.le_toInt i, Int32.toInt_lt i⟩

/-- The text that the machine writes for a value: that of the value, but for a float that is no
number. -/
def written : Value → String
  | .float x => Machine.doubleText x
  | v => v.text

theorem written_of_portable (h : v.Portable) : written v = v.text := by
  cases v with
  | float x =>
    have hnan : x.isNaN = false := h
    rw [written, Machine.doubleText, hnan]
    rfl
  | _ => rfl

/-- What the machine writes for a value ends where it ends. -/
theorem written_no_zero (h : Holds m v w) (hk : v.kind ≠ .intArray) :
    '\x00' ∉ (written v).toList := by
  cases v with
  | int n =>
    obtain ⟨i, rfl, rfl⟩ := holds_int.mp h
    exact Decimal.int_text_no_zero (int32_range i)
  | float x =>
    rw [written, Machine.doubleText]
    split
    · decide
    · exact Decimal.significant_no_zero x
  | string t =>
    obtain ⟨address, rfl, ht⟩ := holds_string.mp h
    exact Memory.text?_no_zero ht
  | bool bit => cases bit <;> decide
  | none => simp at h
  | intArray xs => exact absurd rfl hk

/-- Code for a directive and an argument that make the text of every value that `stands` tells. -/
def MakesText (m : Lower (String × Operand)) (s : State)
    (stands : Image → Snap → Value → Prop) : Prop :=
  ∃ d o s' code, m s = .ok (d, o) s' ∧ Appends code s s' ∧ o.Known s'.used ∧ '\x00' ∉ d.toList ∧
    ∀ image a v, Serves image a.memory s'.globals → stands image a v →
      ∃ b w, Computes image s.used code a b ∧ Gives image b.frame o w ∧
        Formats b.memory d w (written v)

theorem makesText_none (s : State) :
    MakesText (do return ("%s", ← textConstant "none" "str")) s fun _ _ v => v = .none := by
  obtain ⟨o, s1, code, h1, A1, F1, run1⟩ :=
    textConstant_spec s "none" "str" (by decide)
  refine ⟨"%s", o, s1, code, by rw [bind_ok h1]; rfl, A1, F1.known, by decide, ?_⟩
  rintro image a v hs rfl
  obtain ⟨b, address, C, g, ht⟩ := run1 image a hs
  rw [cut_of_not_mem (by decide)] at ht
  exact ⟨b, _, C, g, .text ht⟩

theorem makesText_bool (ho : Fits o .i1 s.used) :
    MakesText (do return ("%s", ← boolText o)) s fun image a v => Carries image a ⟨o, .bool⟩ v := by
  obtain ⟨r, s1, code, h1, A1, F1, run1⟩ := boolText_spec ho
  refine ⟨"%s", r, s1, code, by rw [bind_ok h1]; rfl, A1, F1.known, by decide, ?_⟩
  rintro image a v hs ⟨hkind, w, hg, hw⟩
  cases v with
  | bool bit =>
    obtain rfl := holds_bool.mp hw.1
    obtain ⟨b, address, C, g, ht⟩ := run1 image a bit hs hg
    exact ⟨b, _, C, g, .text ht⟩
  | _ => simp [Value.kind] at hkind

/-- Where the operand is formatted as it is. -/
theorem makesText_operand {d : String} (ht : TypedFits s.used t) (hd : '\x00' ∉ d.toList)
    (hf : ∀ (m : Memory) v w, t.kind = v.kind → Holds m v w → Formats m d w (written v)) :
    MakesText (pure (d, t.operand)) s fun image a v => Carries image a t v := by
  refine ⟨d, t.operand, s, [], rfl, Appends.refl s, ht.known, hd, ?_⟩
  rintro image a v - ⟨hkind, w, hg, hw⟩
  exact ⟨a, w, Computes.nil _ a, hg, hf a.memory v w hkind hw.1⟩

/-- The directive and the argument that make the text of a value. -/
theorem formatted_spec {r : Option Typed} (hr : ResultFits s.used r) (hk : kindOf r ≠ .intArray) :
    MakesText (formatted r) s fun image a v => CarriesResult image a r v := by
  cases r with
  | none => exact makesText_none s
  | some t =>
    obtain ⟨operand, kind⟩ := t
    cases kind with
    | int =>
      refine makesText_operand (d := "%d") hr (by decide) fun m v w hkind hw => ?_
      cases v with
      | int n =>
        obtain ⟨i, rfl, rfl⟩ := holds_int.mp hw
        exact .int i
      | _ => simp [Value.kind] at hkind
    | float =>
      refine makesText_operand (d := "%g") hr (by decide) fun m v w hkind hw => ?_
      cases v with
      | float x =>
        obtain rfl := holds_float.mp hw
        exact .double x
      | _ => simp [Value.kind] at hkind
    | string =>
      refine makesText_operand (d := "%s") hr (by decide) fun m v w hkind hw => ?_
      cases v with
      | string t =>
        obtain ⟨address, rfl, ha⟩ := holds_string.mp hw
        exact .text ha
      | _ => simp [Value.kind] at hkind
    | bool => exact makesText_bool hr
    | none =>
      obtain ⟨d, o, s1, code, h1, A1, K1, Z1, run1⟩ := makesText_none s
      refine ⟨d, o, s1, code, h1, A1, K1, Z1, ?_⟩
      rintro image a v hs ⟨hkind, w, hg, hw⟩
      cases v with
      | none => exact run1 image a .none hs rfl
      | _ => simp [Value.kind] at hkind
    | intArray => exact absurd rfl hk

/-- A text written into a buffer made for it: no buffer that was there changes. -/
theorem fill_buffer {a b : Snap} {size : Nat} {t : String}
    (hext : (a.addBuffer size .blank).memory.Extends b.memory) (ht : t.utf8ByteSize < size) :
    ∃ m, b.memory.writeText? (.heap a.memory.heap.size 0) t = some m ∧
      m.heap[a.memory.heap.size]? = some ⟨size, .text t⟩ ∧ a.memory.Extends m ∧
      m.cells = b.memory.cells := by
  obtain ⟨m, hw, hk, hother, hcells⟩ :=
    writeText?_spec (hext _ _ (buffer_addBuffer a size .blank)) ht
  refine ⟨m, hw, hk, ?_, hcells⟩
  intro j buffer hj
  have hlt : j < a.memory.heap.size := by
    by_contra hge
    simp [Array.getElem?_eq_none (Nat.le_of_not_lt hge)] at hj
  rw [hother j hlt.ne]
  exact hext _ _ (extends_addBuffer a size .blank j buffer hj)

theorem quiet_addBuffer (hx : x ∉ used) (a : Snap) (size : Nat) (contents : Contents) (w : Word) :
    Quiet used a ((a.addBuffer size contents).set x w) where
  registers := (quiet_set hx a w).registers
  stack := rfl
  cells := rfl
  heap := extends_addBuffer a size contents
  out := rfl
  generator := rfl

/-- Writing a text into a buffer made since `a` completes code that only computes. -/
theorem sprintf_new {y : String} {size : Nat} {args : List Operand} {ws : List Word}
    {address : Address} {t : String} (hf : image.function? sprintf.name = none)
    (hq : Quiet used a b) (hs : used ⊆ used') (hy : y ∉ used')
    (hext : (a.addBuffer size .blank).memory.Extends b.memory)
    (hargs : GivesAll image b.frame args
      (.address (.heap a.memory.heap.size 0) :: .address address :: ws))
    (hformat : formatAt address ws b.state = .ok t b.state) (ht : t.utf8ByteSize < size) :
    ∃ c, Runs image [⟨y, .call sprintf args⟩] b c ∧ Quiet used a c ∧
      (∀ z ∈ used', c.frame.registers.get? z = b.frame.registers.get? z) ∧
      c.memory.heap[a.memory.heap.size]? = some ⟨size, .text t⟩ := by
  obtain ⟨m, hw, hk, hm, hcells⟩ := fill_buffer hext ht
  refine ⟨_, runs_sprintf hf hargs hformat hw, ?_, ?_, hk⟩
  · refine ⟨?_, hq.stack, hcells.trans hq.cells, hm, hq.out, hq.generator⟩
    intro z hz
    rw [← hq.registers z hz]
    exact (quiet_set hy b (lengthWord t)).registers z (hs hz)
  · exact (quiet_set hy b (lengthWord t)).registers

theorem written_size (h : Holds m v w) (hk : v.kind = .int ∨ v.kind = .float) :
    (written v).utf8ByteSize < 32 := by
  cases v with
  | int n =>
    obtain ⟨i, rfl, rfl⟩ := holds_int.mp h
    exact Decimal.int_text_size (int32_range i)
  | float x =>
    rw [written, Machine.doubleText]
    split
    · decide
    · exact Decimal.significant_size x
  | _ => simp [Value.kind] at hk

/-- The text of a number goes to a buffer of its own. -/
theorem numberText_spec (ht : TypedFits s.used t) (hk : t.kind = .int ∨ t.kind = .float) :
    ∃ o s' code, textOf t s = .ok o s' ∧ Appends code s s' ∧ Fits o .text s'.used ∧
      ∀ image a v, Serves image a.memory s'.globals → Carries image a t v →
        ∃ b address, Computes image s.used code a b ∧ Gives image b.frame o (.address address) ∧
          b.memory.text? address = some (written v) ∧ Lasting image (.address address) := by
  have hne : kindOf (some t) ≠ .intArray := by
    rcases hk with hk | hk <;> simp [kindOf, hk]
  obtain ⟨d, arg, s1, c₁, h1, A1, K1, Z1, run1⟩ := formatted_spec (r := some t) ht hne
  obtain ⟨x, s2, h2, A2, hx⟩ := emit_spec s1 (.call malloc [.int numberSize .i64]) "textbuf" rfl
  obtain ⟨format, s3, c₃, h3, A3, F3, run3⟩ := textConstant_spec s2 d "fmt" (by decide)
  obtain ⟨y, s4, h4, A4, -⟩ := emit_spec s3 (.call sprintf [.register x .text, format, arg]) ""
    (argumentMisfit?_append 1 [.register x .text, format] [arg]
      (by rw [List.map_cons, List.map_cons, F3.type]; rfl))
  refine ⟨.register x .text, s4, _, ?_, ((A1.trans A2).trans A3).trans A4,
    ⟨rfl, A4.used (A3.used hx)⟩, ?_⟩
  · unfold textOf
    rcases hk with hk | hk <;> rw [hk] <;>
      exact (bind_ok h1).trans ((bind_ok h2).trans ((bind_ok h3).trans (bind_ok h4)))
  · intro image a v hs hc
    have S3 := A4.serves hs
    have S1 := A2.serves (A3.serves S3)
    obtain ⟨b1, w, C₁, g1, f1⟩ := run1 image a v S1 hc
    have R2 : Runs image [⟨x, .call malloc [.int numberSize .i64]⟩] b1
        ((b1.addBuffer 32 .blank).set x (.address (.heap b1.memory.heap.size 0))) :=
      runs_malloc (hs.library _ (by simp [library])) (.cons (gives_int64 _) .nil)
    have Q2 := quiet_addBuffer A2.name_fresh b1 32 .blank (.address (.heap b1.memory.heap.size 0))
    obtain ⟨b3, formatAddress, C₃, g3, t3⟩ := run3 image _ (S3.extend (C₁.quiet.heap.trans Q2.heap))
    rw [cut_of_not_mem Z1, ← String.append_empty (s := d)] at t3
    have Q3 := Q2.trans C₃.quiet A2.used
    have hformat := formatAt_one t3 (f1.extend Q3.heap) (by simp)
    rw [String.append_empty] at hformat
    have hbuffer : Gives image b3.frame (.register x .text) _ :=
      (gives_set (b1.addBuffer 32 .blank) x .text (.address (.heap b1.memory.heap.size 0))).keep hx
        C₃.quiet.registers
    obtain ⟨b4, R4, Q4, regs4, hk4⟩ := sprintf_new (hs.library _ (by simp [library])) Q3
      (fun z hz => A3.used (A2.used hz)) A4.name_fresh C₃.quiet.heap
      (.cons hbuffer (.cons g3 (.cons (g1.keep K1 Q3.registers) .nil))) hformat
      (written_size hc.2.choose_spec.2.1 (hc.1 ▸ hk))
    refine ⟨b4, .heap b1.memory.heap.size 0,
      ⟨((C₁.runs.append R2).append C₃.runs).append R4, C₁.quiet.trans Q4 A1.used⟩,
      hbuffer.keep (A3.used hx) regs4, ?_, ?_⟩
    · rw [Memory.text?_heap hk4, cut_of_not_mem (written_no_zero hc.2.choose_spec.2.1 ?_)]
      rw [← hc.1]
      exact hne
    · exact (S1.extend C₁.quiet.heap).lasting_new le_rfl 0

/-- The text of a scalar. -/
theorem textOf_spec (ht : TypedFits s.used t) (hk : t.kind.isScalar = true) :
    ∃ o s' code, textOf t s = .ok o s' ∧ Appends code s s' ∧ Fits o .text s'.used ∧
      ∀ image a v, Serves image a.memory s'.globals → Carries image a t v →
        ∃ b address, Computes image s.used code a b ∧ Gives image b.frame o (.address address) ∧
          b.memory.text? address = some (written v) ∧
          (v.kind = .int ∨ v.kind = .float → Lasting image (.address address)) := by
  obtain ⟨operand, kind⟩ := t
  have hnumber (hk : kind = .int ∨ kind = .float) := numberText_spec (t := ⟨operand, kind⟩) ht hk
  cases kind with
  | int =>
    obtain ⟨o, s1, code, h1, A1, F1, run1⟩ := hnumber (.inl rfl)
    refine ⟨o, s1, code, h1, A1, F1, fun image a v hs hc => ?_⟩
    obtain ⟨b, address, C, g, ht, hl⟩ := run1 image a v hs hc
    exact ⟨b, address, C, g, ht, fun _ => hl⟩
  | float =>
    obtain ⟨o, s1, code, h1, A1, F1, run1⟩ := hnumber (.inr rfl)
    refine ⟨o, s1, code, h1, A1, F1, fun image a v hs hc => ?_⟩
    obtain ⟨b, address, C, g, ht, hl⟩ := run1 image a v hs hc
    exact ⟨b, address, C, g, ht, fun _ => hl⟩
  | string =>
    refine ⟨operand, s, [], rfl, Appends.refl s, ht, ?_⟩
    rintro image a v - ⟨hkind, w, hg, hw⟩
    cases v with
    | string t =>
      obtain ⟨address, rfl, ha⟩ := holds_string.mp hw.1
      exact ⟨a, address, Computes.nil _ a, hg, ha, by simp [Value.kind]⟩
    | _ => simp [Value.kind] at hkind
  | bool =>
    obtain ⟨o, s1, code, h1, A1, F1, run1⟩ := boolText_spec (o := operand) ht
    refine ⟨o, s1, code, ?_, A1, F1, ?_⟩
    · have hformat : formatted (some ⟨operand, .bool⟩) s = .ok ("%s", o) s1 := (bind_ok h1).trans rfl
      exact (bind_ok hformat).trans rfl
    · rintro image a v hs ⟨hkind, w, hg, hw⟩
      cases v with
      | bool bit =>
        obtain rfl := holds_bool.mp hw.1
        obtain ⟨b, address, C, g, ht⟩ := run1 image a bit hs hg
        exact ⟨b, address, C, g, ht, by simp [Value.kind]⟩
      | _ => simp [Value.kind] at hkind
  | none | intArray => simp [Kind.isScalar] at hk

/-- The size that a length of 32 bits asks for. -/
theorem size_word {n : Nat} (h : n < 2 ^ 31) :
    ((Int32.ofNat n).toInt64 + Int64.ofInt 1).toInt.toNat = n + 1 := by
  have hn : (Int32.ofNat n).toInt = n := Int32.toInt_ofNat_of_lt h
  have hone : (Int64.ofInt 1).toInt = 1 := rfl
  rw [Int64.toInt_add, Int32.toInt_toInt64, hn, hone, Int.bmod_eq_of_le (by omega) (by omega)]
  omega

/-- The end of `concat`: a buffer as long as the formatted text is made and filled. -/
theorem joined_spec {format o' : Operand} (hf : Fits format .text s.used) (ho : o.Known s.used)
    (ho' : o'.Known s.used) :
    ∃ x s' code, (do
        let length ← emit (.call snprintf [.null .text, .int 0 .i64, format, o, o']) "concatlen"
        let wide ← cast .sext length .i64 ""
        let size ← emit (.binary .add wide (.int 1 .i64)) "concatsize"
        let buffer ← emit (.call malloc [size]) "concatbuf"
        let _ ← emit (.call sprintf [buffer, format, o, o']) ""
        pure buffer : Lower Operand) s = .ok (.register x .text) s' ∧ Appends code s s' ∧
      x ∈ s'.used ∧
      ∀ image a address d d' w w' t t', Serves image a.memory s'.globals →
        Gives image a.frame format (.address address) → a.memory.text? address = some (d ++ d') →
        Gives image a.frame o w → Gives image a.frame o' w' → Formats a.memory d w t →
        Formats a.memory d' w' t' → (Value.string (t ++ t')).Portable →
        ∃ b address, Computes image s.used code a b ∧
          Gives image b.frame (.register x .text) (.address address) ∧
          b.memory.text? address = some (t ++ t') := by
  obtain ⟨len, s1, h1, A1, hlen⟩ := emit_spec s
    (.call snprintf [.null .text, .int 0 .i64, format, o, o']) "concatlen"
    (argumentMisfit?_append 1 [.null .text, .int 0 .i64, format] [o, o']
      (by rw [List.map_cons, List.map_cons, List.map_cons, hf.type]; rfl))
  obtain ⟨wide, s2, h2, A2, hwide⟩ := emit_spec s1
    (.convert .sext (.register len .i32) .i64) "" rfl
  obtain ⟨size, s3, h3, A3, hsize⟩ := emit_spec s2
    (.binary .add (.register wide .i64) (.int 1 .i64)) "concatsize" rfl
  obtain ⟨x, s4, h4, A4, hx⟩ := emit_spec s3 (.call malloc [.register size .i64]) "concatbuf" rfl
  obtain ⟨y, s5, h5, A5, -⟩ := emit_spec s4 (.call sprintf [.register x .text, format, o, o']) ""
    (argumentMisfit?_append 1 [.register x .text, format] [o, o']
      (by rw [List.map_cons, List.map_cons, hf.type]; rfl))
  refine ⟨x, s5, _, ?_, (((A1.trans A2).trans A3).trans A4).trans A5, A5.used hx, ?_⟩
  · exact (bind_ok h1).trans <| (bind_ok h2).trans <| (bind_ok h3).trans <| (bind_ok h4).trans <|
      (bind_ok h5).trans rfl
  · intro image a address d d' w w' t t' hs hformat htext hw hw' hd hd' hp
    have L (callee : Signature) (hcallee : callee ∈ library) := hs.library callee hcallee
    let n : Int32 := Int32.ofNat (t ++ t').utf8ByteSize
    have C₁ := computes_set A1 (runs_snprintf (L _ (by simp [library]))
      (.cons (gives_null _) (.cons (gives_int64 _) (.cons hformat (.cons hw (.cons hw' .nil)))))
      (formatAt_two htext hd hd'))
    have C₂ : Computes image s1.used _ _ _ := computes_set (a := a.set len (.int n))
      (w := .long n.toInt64) A2 (runs_convert (gives_set a len .i32 (.int n)) rfl)
    have C₃ : Computes image s2.used _ _ _ := computes_set
      (a := (a.set len (.int n)).set wide (.long n.toInt64))
      (w := .long (n.toInt64 + Int64.ofInt 1)) A3
      (runs_binary (gives_set _ wide .i64 (.long n.toInt64)) (gives_int64 1) rfl)
    have C := (C₁.append C₂ A1.used).append C₃ fun z hz => A2.used (A1.used hz)
    obtain ⟨b3, hb3⟩ : ∃ b, b = ((a.set len (.int n)).set wide (.long n.toInt64)).set size
        (.long (n.toInt64 + Int64.ofInt 1)) := ⟨_, rfl⟩
    have R4 : Runs image [⟨x, .call malloc [.register size .i64]⟩] b3
        ((b3.addBuffer ((t ++ t').utf8ByteSize + 1) .blank).set x
          (.address (.heap b3.memory.heap.size 0))) := by
      rw [← size_word hp.2, hb3]
      exact runs_malloc (L _ (by simp [library])) (.cons (gives_set _ size .i64 _) .nil)
    rw [← hb3] at C
    have Q4 := quiet_addBuffer A4.name_fresh b3 ((t ++ t').utf8ByteSize + 1) .blank
      (.address (.heap b3.memory.heap.size 0))
    have Q := C.quiet.trans Q4 fun z hz => A3.used (A2.used (A1.used hz))
    obtain ⟨b5, R5, Q5, regs5, hk5⟩ := sprintf_new (L _ (by simp [library])) Q4 A4.used
      A5.name_fresh (Memory.Extends.refl _)
      (.cons (gives_set _ x .text _) (.cons (hformat.keep hf.known Q.registers)
        (.cons (hw.keep ho Q.registers) (.cons (hw'.keep ho' Q.registers) .nil))))
      (formatAt_two (Q.heap.text? htext) (hd.extend Q.heap) (hd'.extend Q.heap))
      (Nat.lt_succ_self _)
    refine ⟨b5, .heap b3.memory.heap.size 0,
      ⟨(C.runs.append R4).append R5, C.quiet.trans Q5 fun z hz => A3.used (A2.used (A1.used hz))⟩,
      (gives_set (b3.addBuffer _ .blank) x .text _).keep hx regs5, ?_⟩
    rw [Memory.text?_heap hk5, cut_of_not_mem hp.1]

/-- The texts of two values joined in a buffer of their own. -/
theorem concat_spec {l r : Option Typed} (hl : ResultFits s.used l) (hr : ResultFits s.used r)
    (hkl : kindOf l ≠ .intArray) (hkr : kindOf r ≠ .intArray) :
    ∃ o s' code, concat l r s = .ok o s' ∧ Appends code s s' ∧ Fits o .text s'.used ∧
      ∀ image a v v', Serves image a.memory s'.globals → CarriesResult image a l v →
        CarriesResult image a r v' → v.Portable → v'.Portable →
        (Value.string (v.text ++ v'.text)).Portable →
        ∃ b address, Computes image s.used code a b ∧ Gives image b.frame o (.address address) ∧
          b.memory.text? address = some (v.text ++ v'.text) := by
  obtain ⟨d1, o1, s1, c₁, h1, A1, K1, Z1, run1⟩ := formatted_spec hl hkl
  obtain ⟨d2, o2, s2, c₂, h2, A2, K2, Z2, run2⟩ := formatted_spec (hr.mono A1.used) hkr
  obtain ⟨format, s3, c₃, h3, A3, F3, run3⟩ :=
    textConstant_spec s2 (d1 ++ d2) "concat_fmt" (by decide)
  obtain ⟨x, s4, c₄, h4, A4, hx, run4⟩ := joined_spec F3 (K1.mono fun z hz => A3.used (A2.used hz))
    (K2.mono A3.used)
  refine ⟨.register x .text, s4, _,
    (bind_ok h1).trans <| (bind_ok h2).trans <| (bind_ok h3).trans h4,
    ((A1.trans A2).trans A3).trans A4, ⟨rfl, hx⟩, ?_⟩
  intro image a v v' hs hc hc' hp hp' hjoined
  have S3 := A4.serves hs
  have S2 := A3.serves S3
  obtain ⟨b1, w1, C₁, g1, f1⟩ := run1 image a v (A2.serves S2) hc
  obtain ⟨b2, w2, C₂, g2, f2⟩ := run2 image b1 v' (S2.extend C₁.quiet.heap)
    (hc'.keep hr C₁.quiet)
  rw [written_of_portable hp] at f1
  rw [written_of_portable hp'] at f2
  obtain ⟨b3, address, C₃, g3, t3⟩ := run3 image b2 (S3.extend (C₁.quiet.heap.trans C₂.quiet.heap))
  have hzero : '\x00' ∉ (d1 ++ d2).toList := by
    rw [String.toList_append, List.mem_append]
    exact fun h => h.elim Z1 Z2
  rw [cut_of_not_mem hzero] at t3
  have C := (C₁.append C₂ A1.used).append C₃ fun z hz => A2.used (A1.used hz)
  obtain ⟨b4, result, C₄, g4, t4⟩ := run4 image b3 address d1 d2 w1 w2 v.text v'.text
    (hs.extend C.quiet.heap) g3 t3
    ((g1.keep K1 C₂.quiet.registers).keep (K1.mono A2.used) C₃.quiet.registers)
    (g2.keep K2 C₃.quiet.registers) (f1.extend (C₂.quiet.heap.trans C₃.quiet.heap))
    (f2.extend C₃.quiet.heap) hjoined
  exact ⟨b4, result, C.append C₄ fun z hz => A3.used (A2.used (A1.used hz)), g4, t4⟩

end DualEngine.Lowering
