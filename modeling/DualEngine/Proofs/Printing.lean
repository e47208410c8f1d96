import DualEngine.Proofs.Slots

/-! # Printing in generated code

Every value but an array is printed by one call. An array is printed by a loop, of which only the
effect on the function under construction is said here.
-/
namespace DualEngine.Lowering
open IR Machine

variable {s s' : State} {held : List String}

theorem printValue_spec {r : Option Typed} (hr : ResultFits s.used r)
    (hk : kindOf r ≠ .intArray) :
    ∃ s' code, printValue r s = .ok ⟨⟩ s' ∧ Appends code s s' ∧
      ∀ image a v, Serves image a.memory s'.globals → CarriesResult image a r v → v.Portable →
        ∃ b, Runs image code a b ∧ Keeps s.used s'.used a b ∧
          b.memory.cells = a.memory.cells ∧ b.state.out = a.state.out ++ (v.text ++ "\n") := by
  obtain ⟨d, o, s1, c₁, h1, A1, K1, Z1, run1⟩ := formatted_spec hr hk
  obtain ⟨format, s2, c₂, h2, A2, F2, run2⟩ :=
    textConstant_spec s1 (d ++ "\n") "fmt" (by decide)
  obtain ⟨x, s3, h3, A3, -⟩ := emit_spec s2 (.call printf [format, o]) ""
    (argumentMisfit?_append 1 [format] [o] (by simp [F2.type, printf]))
  have hused : s.used ⊆ s3.used := fun z hz => A3.used (A2.used (A1.used hz))
  refine ⟨s3, _, ?_, (A1.trans A2).trans A3, ?_⟩
  · have hprint : printValue r s = (do
        let p ← formatted r
        let format ← textConstant (p.1 ++ "\n") "fmt"
        let _ ← emit (.call printf [format, p.2]) "") s := by
      cases r with
      | none => rfl
      | some t =>
        obtain ⟨operand, kind⟩ := t
        cases kind <;> first | rfl | exact absurd rfl hk
    rw [hprint]
    exact (bind_ok h1).trans ((bind_ok h2).trans ((bind_ok h3).trans rfl))
  · intro image a v hs hc hp
    have S2 := A3.serves hs
    obtain ⟨b1, w, C₁, g1, f1⟩ := run1 image a v (A2.serves S2) hc
    rw [written_of_portable hp] at f1
    obtain ⟨b2, address, C₂, g2, t2⟩ := run2 image b1 (S2.extend C₁.quiet.heap)
    have hzero : '\x00' ∉ (d ++ "\n").toList := by
      rw [String.toList_append, List.mem_append, not_or]
      exact ⟨Z1, by decide⟩
    rw [cut_of_not_mem hzero] at t2
    have hformat := formatAt_one t2 (f1.extend C₂.quiet.heap) (by decide)
    have R3 : Runs image _ b2 _ := runs_printf (x := x) (hs.library _ (by simp [library]))
      (.cons g2 (.cons (g1.keep K1 C₂.quiet.registers) .nil)) hformat
    have C := C₁.append C₂ A1.used
    have hset : Keeps s2.used s3.used (b2.print (v.text ++ "\n"))
        ((b2.print (v.text ++ "\n")).set x (lengthWord (v.text ++ "\n"))) :=
      (quiet_set A3.name_fresh _ _).keeps _
    refine ⟨_, C.runs.append R3, ?_, C.quiet.cells, ?_⟩
    · exact ⟨fun y hy => (hset.registers y (A2.used (A1.used hy))).trans (C.quiet.registers y hy),
        fun y _ => congrArg (·.get? y) C.quiet.stack, C.quiet.heap⟩
    · exact congrArg (· ++ (v.text ++ "\n")) C.quiet.out

/-! ## The loop that prints an array -/

theorem emit_adds {op : Operation} {wanted : String} {o : Operand}
    (h : emit op wanted s = .ok o s') :
    ∃ x, o = .register x op.type ∧ Appends [⟨x, op⟩] s s' ∧ x ∈ s'.used := by
  obtain ⟨x, s1, h1, A1, hx⟩ := emit_spec s op wanted (emit_inv h)
  rw [h1] at h
  cases h
  exact ⟨x, rfl, A1, hx⟩

/-- The computation only appends code. -/
def Adding {α : Type} (m : Lower α) : Prop :=
  ∀ s r s', m s = .ok r s' → ∃ code, Appends code s s'

theorem Adding.bind {α β : Type} {m : Lower α} {f : α → Lower β} (h : Adding m)
    (h' : ∀ r, Adding (f r)) : Adding (m >>= f) := by
  intro s r s' hr
  obtain ⟨r1, s1, h1, h2⟩ := bind_eq_ok.mp hr
  obtain ⟨code, A⟩ := h s r1 s1 h1
  obtain ⟨more, A'⟩ := h' r1 s1 r s' h2
  exact ⟨_, A.trans A'⟩

theorem adding_pure {α : Type} (r : α) : Adding (pure r) := by
  intro s r' s' h
  cases h
  exact ⟨[], Appends.refl s⟩

theorem adding_emit (op : Operation) (wanted : String) : Adding (emit op wanted) := by
  intro s o s' h
  obtain ⟨x, -, A, -⟩ := emit_adds h
  exact ⟨_, A⟩

theorem adding_textConstant (contents : String) {wanted : String}
    (hw : wanted.toList.head? ≠ some 'd') : Adding (textConstant contents wanted) := by
  intro s o s' h
  obtain ⟨o', s1, code, h1, A1, -⟩ := textConstant_spec s contents wanted hw
  rw [h1] at h
  cases h
  exact ⟨code, A1⟩

theorem adding_printText (contents : String) : Adding (printText contents) :=
  (adding_textConstant _ (by decide)).bind fun _ => (adding_textConstant _ (by decide)).bind fun _ =>
    (adding_emit _ _).bind fun _ => adding_pure _

theorem adding_printElement (buffer index i : Operand) : Adding (printElement buffer index i) :=
  (adding_emit _ _).bind fun _ => (adding_textConstant _ (by decide)).bind fun _ =>
    (adding_textConstant _ (by decide)).bind fun _ => (adding_emit _ _).bind fun _ =>
    (adding_emit _ _).bind fun _ => (adding_emit _ _).bind fun _ => (adding_emit _ _).bind fun _ =>
    (adding_textConstant _ (by decide)).bind fun _ => (adding_emit _ _).bind fun _ =>
    (adding_emit _ _).bind fun _ => (adding_emit _ _).bind fun _ => adding_pure _

theorem printArray_grows {buffer : Operand} (ha : Active s) (hs : Labelled s)
    (h : printArray buffer s = .ok ⟨⟩ s') : Grows held s s' ∧ Declares s s' [] := by
  unfold printArray at h
  -- the opening bracket, and the cell of the index
  obtain ⟨_, s1, h1, h⟩ := bind_eq_ok.mp h
  obtain ⟨_, s2, h2, h⟩ := bind_eq_ok.mp h
  obtain ⟨_, A1⟩ := adding_emit _ _ _ _ _ h1
  obtain ⟨_, A2⟩ := adding_printText _ _ _ _ h2
  have a2 := ha.appends (A1.trans A2)
  have w2 := (Within.refl held s).appends hs (A1.trans A2)
  obtain ⟨x, first, s3, hentry, A3, h3, -⟩ := entryAlloca_spec a2 .i32 "i"
  rw [bind_ok h3] at h
  have w3 := w2.trans hs (within_late (w2.evolves.labelled hs) A3
    (.inr (by simp [hentry, Instruction.isAlloca])))
  obtain ⟨_, s4, h4, h⟩ := bind_eq_ok.mp h
  obtain ⟨_, A4⟩ := adding_emit _ _ _ _ _ h4
  have a4 := (active_late a2 A3).appends A4
  have w4 := w3.appends hs A4
  have l4 := w4.evolves.labelled hs
  -- the three blocks of the loop
  rw [bind_ok (addBlock_run _ _), bind_ok (addBlock_run _ _), bind_ok (addBlock_run _ _),
    bind_ok (terminate_run _ _), bind_ok (enter_run _ _)] at h
  have O := (((Opens.refl a4 l4).opened l4 "print.cond").opened l4 "print.body").opened l4 "print.end"
  have D4 := ((declares_opened s4 "print.cond").trans (declares_opened _ "print.body")).trans
    (declares_opened _ "print.end")
  generalize ((s4.opened "print.cond").opened "print.body").opened "print.end" = s5 at h O D4
  generalize s4.fresh "print.cond" = condition at h O
  generalize (s4.opened "print.cond").fresh "print.body" = body at h O
  generalize ((s4.opened "print.cond").opened "print.body").fresh "print.end" = done at h O
  have hfresh (k : String) (hk : k ∈ [done, body, condition]) : k ∉ s.used :=
    fun hm => O.fresh k hk (w4.evolves.used hm)
  have hdistinct := O.distinct
  simp only [List.nodup_cons, List.mem_cons, List.not_mem_nil, or_false, not_or] at hdistinct
  obtain ⟨⟨hdb, hdc⟩, hbc, -⟩ := hdistinct
  have w5 := (w4.trans hs (O.within held)).passed hs O.active (.jump condition)
    (hfresh condition (by simp))
  have a5 := (O.waits condition (by simp)).active_passed O.active (.jump condition)
  have b5 := (O.waits body (by simp)).passed O.active (.jump condition) hbc
  have d5 := (O.waits done (by simp)).passed O.active (.jump condition) hdc
  have l5 := w5.evolves.labelled hs
  -- the condition
  obtain ⟨_, s6, h6, h⟩ := bind_eq_ok.mp h
  obtain ⟨more, s7, h7, h⟩ := bind_eq_ok.mp h
  obtain ⟨_, A6⟩ := adding_emit _ _ _ _ _ h6
  obtain ⟨_, A7⟩ := adding_emit _ _ _ _ _ h7
  rw [bind_ok (terminate_run _ _), bind_ok (enter_run _ _)] at h
  have A7 := A6.trans A7
  have a7 := a5.appends A7
  have b7 := b5.appends l5 a5 A7
  have w7 := (w5.appends hs A7).passed hs a7 (.branch more body done) (hfresh body (by simp))
  have d7 := (d5.appends l5 a5 A7).passed a7 (.branch more body done) hdb
  have l7 := w7.evolves.labelled hs
  -- the body and what follows it
  obtain ⟨_, s8, h8, h⟩ := bind_eq_ok.mp h
  obtain ⟨_, A8⟩ := adding_printElement _ _ _ _ _ _ h8
  rw [bind_ok (terminate_run _ _), bind_ok (enter_run _ _)] at h
  have a8 := (b7.active_passed a7 (.branch more body done)).appends A8
  have w8 := (w7.appends hs A8).passed hs a8 (.jump condition) (hfresh done (by simp))
  have d8 := d7.appends l7 (b7.active_passed a7 (.branch more body done)) A8
  obtain ⟨_, A9⟩ := adding_printText _ _ _ _ h
  refine ⟨(w8.appends hs A9).grows ((d8.active_passed a8 (.jump condition)).appends A9), ?_⟩
  have D3 := ((A1.trans A2).declares.trans (declares_entered s2 first)).trans A3.declares
  have D4 := ((D3.trans (declares_entered s3 s2.draft.current)).trans A4.declares).trans D4
  have D5 := D4.trans (declares_passed s5 (.jump condition) condition)
  have D7 := (D5.trans A7.declares).trans (declares_passed s7 (.branch more body done) body)
  have D8 := (D7.trans A8.declares).trans (declares_passed s8 (.jump condition) done)
  exact D8.trans A9.declares

end DualEngine.Lowering
