import DualEngine.Proofs.Execution
import DualEngine.Proofs.NameScope

/-! # Code appended to a block

Most of lowering appends straight-line code to the current block. `Appends` says which code, and
`Quiet` what such code leaves alone when it runs: all registers that were named before, the cells
and what is printed. Buffers are only added.
-/
namespace DualEngine

namespace IR

/-- A block with more code at its end. -/
def Block.extend (code : List Instruction) (b : Block) : Block := { b with body := b.body ++ code }

/-- Whether the name of a global is one of the module's name scope. -/
def Global.isNamed : Global → Bool
  | .external .. => false
  | _ => true

/-- An operand that uses no register but the named ones. -/
def Operand.Known (used : List String) : Operand → Prop
  | .register x _ => x ∈ used
  | _ => True

theorem Operand.Known.mono {used used' : List String} {o : Operand} (h : o.Known used)
    (hs : used ⊆ used') : o.Known used' := by
  cases o with
  | register x type => exact hs h
  | _ => trivial

end IR

namespace Lowering
open IR

variable {o : Operand} {wanted : String}

/-- The names given in the function under construction. -/
abbrev State.used (s : State) : List String := s.draft.names.used

/-- The block of the function under construction with a label. -/
def State.block? (s : State) (label : String) : Option Block :=
  Machine.blockAt s.draft.blocks label

/-- The type of the function for a definition, under some name. -/
def Definition.signature (d : Definition) (name : String) : Signature :=
  ⟨name, irType d.returns, d.params.map fun _ => .double, false⟩

/-- The globals of the module have names of their own, no text has the name of a cell, and the
functions of the module are those that the context defines. -/
structure Tidy (s : State) : Prop where
  distinct : ((s.globals.filter Global.isNamed).map Global.name).Nodup
  known : ∀ g ∈ s.globals, g.isNamed = true → g.name ∈ s.globalNames.used
  texts : ∀ name contents, Global.text name contents ∈ s.globals → name.toList.head? ≠ some 'd'
  linked : ∀ name d signature, s.context.getFunction? name = some d →
    s.functions.get? name = some signature → ∃ irName, signature = Definition.signature d irName

theorem Tidy.function_eq (h : Tidy s) {f g : Function} (hf : Global.function f ∈ s.globals)
    (hg : Global.function g ∈ s.globals) (hn : f.signature.name = g.signature.name) : f = g :=
  Global.function.inj (List.inj_on_of_nodup_map h.distinct (List.mem_filter.mpr ⟨hf, rfl⟩)
    (List.mem_filter.mpr ⟨hg, rfl⟩) hn)

/-- From `s` to `s'` nothing happened but that the code was appended to the current block, and
that globals and names were added. -/
structure Appends (code : List Instruction) (s s' : State) : Prop where
  context : s'.context = s.context
  created : s'.created = s.created
  nextSlot : s'.nextSlot = s.nextSlot
  functions : s'.functions = s.functions
  globals : s.globals ⊆ s'.globals
  tidy : Tidy s → Tidy s'
  current : s'.draft.current = s.draft.current
  blocks : s'.draft.blocks = (s.draft.update s.draft.current (Block.extend code)).blocks
  used : s.used ⊆ s'.used
  fresh : ∀ i ∈ code, i.name ∉ s.used ∧ i.name ∈ s'.used
  distinct : (code.map Instruction.name).Nodup

variable {code more : List Instruction} {s s' s'' : State}

section Names
variable {used used' used'' : List String} (h : ∀ i ∈ code, i.name ∉ used ∧ i.name ∈ used')
  (h' : ∀ i ∈ more, i.name ∉ used' ∧ i.name ∈ used'')
include h h'

theorem fresh_append (hs : used ⊆ used') (hs' : used' ⊆ used'') :
    ∀ i ∈ code ++ more, i.name ∉ used ∧ i.name ∈ used'' := by
  intro i hi
  rcases List.mem_append.mp hi with hi | hi
  · exact ⟨(h i hi).1, hs' (h i hi).2⟩
  · exact ⟨fun hm => (h' i hi).1 (hs hm), (h' i hi).2⟩

theorem nodup_append (hd : (code.map Instruction.name).Nodup)
    (hd' : (more.map Instruction.name).Nodup) : ((code ++ more).map Instruction.name).Nodup := by
  rw [List.map_append]
  refine List.Nodup.append hd hd' ?_
  intro x hx hx'
  obtain ⟨i, hi, rfl⟩ := List.mem_map.mp hx
  obtain ⟨j, hj, hij⟩ := List.mem_map.mp hx'
  exact (h' j hj).1 (hij ▸ (h i hi).2)

end Names

theorem update_extend_nil (d : Draft) (label : String) :
    (d.update label (Block.extend [])).blocks = d.blocks := by
  have hid : (fun b : Block => if b.label = label then b.extend [] else b) = id := by
    funext b
    split <;> simp [Block.extend]
  simp only [Draft.update, hid, List.map_id]

theorem update_extend_extend (d : Draft) (label : String) (code more : List Instruction) :
    ((d.update label (Block.extend code)).update label (Block.extend more)).blocks =
      (d.update label (Block.extend (code ++ more))).blocks := by
  simp only [Draft.update, List.map_map]
  refine List.map_congr_left fun b _ => ?_
  by_cases hb : b.label = label <;> simp [Block.extend, hb]

theorem Appends.refl (s : State) : Appends [] s s where
  context := rfl
  created := rfl
  nextSlot := rfl
  functions := rfl
  globals := fun _ h => h
  tidy := id
  current := rfl
  blocks := (update_extend_nil _ _).symm
  used := fun _ h => h
  fresh := by simp
  distinct := by simp

theorem Appends.trans (h : Appends code s s') (h' : Appends more s' s'') :
    Appends (code ++ more) s s'' where
  context := h'.context.trans h.context
  created := h'.created.trans h.created
  nextSlot := h'.nextSlot.trans h.nextSlot
  functions := h'.functions.trans h.functions
  globals := fun _ hg => h'.globals (h.globals hg)
  tidy := fun ht => h'.tidy (h.tidy ht)
  current := h'.current.trans h.current
  blocks := by
    rw [h'.blocks, h.current, ← update_extend_extend]
    simp only [Draft.update, h.blocks]
  used := fun _ hx => h'.used (h.used hx)
  fresh := fresh_append h.fresh h'.fresh h.used h'.used
  distinct := nodup_append h.fresh h'.fresh h.distinct h'.distinct

/-! ## Primitive steps -/

/-- The state after an instruction is appended under a new name. -/
def State.emitted (s : State) (op : Operation) (wanted : String) : State :=
  let (x, names) := s.draft.names.register wanted
  { s with draft := ({ s.draft with names }).update s.draft.current (Block.extend [⟨x, op⟩]) }

theorem used_emitted (s : State) (op : Operation) (wanted : String) :
    (s.emitted op wanted).used = (s.draft.names.register wanted).1 :: s.used :=
  Names.used_register _ _

/-- An instruction that fits together is appended. -/
theorem emit_spec (s : State) (op : Operation) (wanted : String) (hop : op.misfit? = none) :
    ∃ x s', emit op wanted s = .ok (.register x op.type) s' ∧ Appends [⟨x, op⟩] s s' ∧
      x ∈ s'.used := by
  refine ⟨(s.draft.names.register wanted).1, s.emitted op wanted, ?_, ?_, ?_⟩
  · unfold emit
    rw [hop]
    rfl
  · refine ⟨rfl, rfl, rfl, rfl, fun _ h => h, ?_, rfl, rfl, ?_, ?_, by simp⟩
    · rintro ⟨hd, hk, ht, hl⟩
      exact ⟨hd, hk, ht, hl⟩
    · intro x hx
      rw [used_emitted]
      exact List.mem_cons_of_mem _ hx
    · intro i hi
      rw [List.mem_singleton] at hi
      subst hi
      rw [used_emitted]
      exact ⟨Names.register_fresh _ _, List.mem_cons_self⟩
  · rw [used_emitted]
    exact List.mem_cons_self

/-- Arguments that begin with ones of the right types fit a callee. -/
theorem argumentMisfit?_append (place : Nat) {params : List Ty} (args extra : List Operand)
    (h : args.map Operand.type = params) :
    argumentMisfit? place params (args ++ extra) = none := by
  induction args generalizing place params with
  | nil =>
    subst h
    rfl
  | cons arg args ih =>
    subst h
    simp only [List.map_cons, List.cons_append, argumentMisfit?, if_true]
    exact ih (place + 1) rfl

theorem emit_inv {op : Operation} (h : emit op wanted s = .ok o s') : op.misfit? = none := by
  cases hop : op.misfit? with
  | none => rfl
  | some cause =>
    simp only [emit, hop] at h
    exact absurd h (by simp [fail, bind_eq_ok, throw_run])

/-- The operand is of the type, and was known when it was given. -/
structure Fits (o : Operand) (type : Ty) (used : List String) : Prop where
  type : o.type = type
  known : o.Known used

theorem Fits.mono {type : Ty} {used used' : List String} (h : Fits o type used)
    (hs : used ⊆ used') : Fits o type used' := ⟨h.type, h.known.mono hs⟩

theorem cast_of_ne (how : Conversion) {type : Ty} (h : o.type ≠ type) (wanted : String) :
    cast how o type wanted = emit (.convert how o type) wanted := by
  rw [cast, if_neg h]

theorem head?_register (names : Names) (h : wanted.toList.head? ≠ some 'd') :
    (names.register wanted).1.toList.head? ≠ some 'd' := by
  rcases names.register_form wanted with hw | ⟨n, hw⟩
  · rwa [hw]
  · rw [hw, Names.numbered, String.toList_append, String.toList_append]
    cases hl : wanted.toList with
    | nil => simp
    | cons c cs => simpa [hl] using h

theorem external_spec (s : State) (symbol : String) (type : Ty) :
    ∃ s', external symbol type s = .ok (.global symbol (.pointer type)) s' ∧ Appends [] s s' := by
  have hrun : external symbol type s = .ok (.global symbol (.pointer type)) s ∨
      external symbol type s = .ok (.global symbol (.pointer type))
        { s with globals := s.globals ++ [.external symbol type] } := by
    unfold external
    rw [bind_ok (get_run s)]
    dsimp only
    split
    · exact .inr rfl
    · exact .inl rfl
  rcases hrun with hrun | hrun
  · exact ⟨s, hrun, Appends.refl s⟩
  · refine ⟨_, hrun, rfl, rfl, rfl, rfl, fun _ h => List.mem_append_left _ h, ?_, rfl,
      (update_extend_nil _ _).symm, fun _ h => h, by simp, by simp⟩
    rintro ⟨hd, hk, ht, hl⟩
    refine ⟨by simpa [Global.isNamed, List.filter_append] using hd, ?_, ?_, hl⟩
    · intro g hg hn
      rcases List.mem_append.mp hg with hg | hg
      · exact hk g hg hn
      · rw [List.mem_singleton] at hg
        subst hg
        simp [Global.isNamed] at hn
    · intro name contents hg
      rcases List.mem_append.mp hg with hg | hg
      · exact ht name contents hg
      · simp at hg

/-- A constant is found, or added under a new name. -/
theorem textName_run (s : State) (contents wanted : String) :
    (∃ name, textName contents wanted s = .ok name s ∧ Global.text name contents ∈ s.globals) ∨
      textName contents wanted s = .ok (s.globalNames.register wanted).1 { s with
        globals := s.globals ++ [.text (s.globalNames.register wanted).1 contents]
        globalNames := (s.globalNames.register wanted).2 } := by
  unfold textName
  rw [bind_ok (get_run s)]
  generalize hfind : List.findSome? _ s.globals = found
  cases found with
  | none => exact .inr rfl
  | some name =>
    refine .inl ⟨name, rfl, ?_⟩
    obtain ⟨g, hg, hname⟩ := List.exists_of_findSome?_eq_some hfind
    cases g with
    | text other c =>
      by_cases hc : c = contents
      · simp only [hc, if_true, Option.some.injEq] at hname
        rwa [← hname, ← hc]
      · simp [hc] at hname
    | function f => simp at hname
    | external name type => simp at hname

/-- The module has a constant with the contents afterwards. -/
theorem textName_spec (s : State) (contents wanted : String)
    (hw : wanted.toList.head? ≠ some 'd') :
    ∃ name s', textName contents wanted s = .ok name s' ∧ Appends [] s s' ∧
      Global.text name contents ∈ s'.globals := by
  rcases textName_run s contents wanted with ⟨name, hrun, hmem⟩ | hrun
  · exact ⟨name, s, hrun, Appends.refl s, hmem⟩
  · refine ⟨_, _, hrun, ?_, by simp⟩
    refine ⟨rfl, rfl, rfl, rfl, fun _ h => List.mem_append_left _ h, ?_, rfl,
      (update_extend_nil _ _).symm, fun _ h => h, by simp, by simp⟩
    rintro ⟨hd, hk, ht, hl⟩
    refine ⟨?_, ?_, ?_, hl⟩
    · have hnew : (s.globalNames.register wanted).1 ∉
          (s.globals.filter Global.isNamed).map Global.name := by
        intro hm
        obtain ⟨g, hg, hname⟩ := List.mem_map.mp hm
        obtain ⟨hg, hn⟩ := List.mem_filter.mp hg
        exact Names.register_fresh _ _ (hname ▸ hk g hg hn)
      have hone : (List.filter Global.isNamed
          [Global.text (s.globalNames.register wanted).1 contents]).map Global.name =
            [(s.globalNames.register wanted).1] := rfl
      rw [List.filter_append, List.map_append, hone, List.nodup_append_comm]
      exact List.nodup_cons.mpr ⟨hnew, hd⟩
    · intro g hg hn
      simp only [Names.used_register]
      rcases List.mem_append.mp hg with hg | hg
      · exact List.mem_cons_of_mem _ (hk g hg hn)
      · rw [List.mem_singleton] at hg
        subst hg
        exact List.mem_cons_self
    · intro name c hg
      rcases List.mem_append.mp hg with hg | hg
      · exact ht name c hg
      · simp only [List.mem_singleton, Global.text.injEq] at hg
        rw [hg.1]
        exact head?_register _ hw

end Lowering
end DualEngine
