import DualEngine.IR.Misfit
import Mathlib

/-! # Well-formed modules

What a module has to satisfy to be code at all: blocks that end, branches to blocks of the same
function, joins that list the ways into their block, registers that are defined once and before
every use, operands of the right types, and globals that are declared.

That a definition comes before a use is said by dominance. While a function is under construction
there is no telling which ways there will be, so the conditions are stated for any relation in its
place. A table of labels for each block that loses nothing along an edge gives dominance in the end
(`Body.dominates_of_table`).
-/
namespace DualEngine.IR

/-! ## Types of instructions -/

/-- The bits of an integer type; no other type has any. -/
def Ty.width : Ty → Nat
  | .i1 => 1
  | .i8 => 8
  | .i32 => 32
  | .i64 => 64
  | _ => 0

def Ty.isPointer : Ty → Bool
  | .pointer _ => true
  | _ => false

/-- The type of the operands, which is that of the result. -/
def BinaryOp.Takes (type : Ty) : BinaryOp → Prop
  | .fadd | .fsub | .fmul | .fdiv => type = .double
  | _ => 0 < type.width

def Conversion.Takes (source target : Ty) : Conversion → Prop
  | .sitofp | .uitofp => 0 < source.width ∧ target = .double
  | .fptosi => source = .double ∧ 0 < target.width
  | .zext | .sext => 0 < source.width ∧ source.width < target.width
  | .bitcast => source.isPointer = true ∧ target.isPointer = true

instance (type : Ty) (op : BinaryOp) : Decidable (op.Takes type) :=
  match op with
  | .fadd | .fsub | .fmul | .fdiv => inferInstanceAs (Decidable (type = .double))
  | .add | .sub | .mul | .sdiv | .srem => inferInstanceAs (Decidable (0 < type.width))

instance (source target : Ty) (how : Conversion) : Decidable (how.Takes source target) :=
  match how with
  | .sitofp | .uitofp => inferInstanceAs (Decidable (0 < source.width ∧ target = .double))
  | .fptosi => inferInstanceAs (Decidable (source = .double ∧ 0 < target.width))
  | .zext | .sext => inferInstanceAs (Decidable (0 < source.width ∧ source.width < target.width))
  | .bitcast =>
    inferInstanceAs (Decidable (source.isPointer = true ∧ target.isPointer = true))

/-- The types of the operands are right for the operation, and those of the arguments for the
callee. -/
def Operation.WellTyped : Operation → Prop
  | .binary op left right => left.type = right.type ∧ op.Takes left.type
  | .icmp _ left right => left.type = right.type ∧ 0 < left.type.width
  | .fcmp _ left right => left.type = .double ∧ right.type = .double
  | .convert how value type => how.Takes value.type type
  | .load address => ∃ type, address.type = .pointer type ∧ type ≠ .void
  | .store value address => address.type = .pointer value.type ∧ value.type ≠ .void
  | .alloca type => type ≠ .void
  | .element base index => base.type.isPointer = true ∧ index.type = .i32
  | .select condition yes no => condition.type = .i1 ∧ yes.type = no.type
  | .phi type incoming => ∀ way ∈ incoming, way.1.type = type
  | .call callee args =>
    if callee.variadic = true then callee.params <+: args.map Operand.type
    else args.map Operand.type = callee.params

/-- The operands that are used where the operation stands; those of a join are used where the ways
come from. -/
def Operation.operands : Operation → List Operand
  | .binary _ left right => [left, right]
  | .icmp _ left right => [left, right]
  | .fcmp _ left right => [left, right]
  | .convert _ value _ => [value]
  | .load address => [address]
  | .store value address => [value, address]
  | .alloca _ => []
  | .element base index => [base, index]
  | .select condition yes no => [condition, yes, no]
  | .phi _ _ => []
  | .call _ args => args

def Operation.isPhi : Operation → Bool
  | .phi _ _ => true
  | _ => false

namespace Terminator

def targets : Terminator → List String
  | .jump target => [target]
  | .branch _ yes no => [yes, no]
  | .ret _ => []
  | .retVoid => []

def operands : Terminator → List Operand
  | .branch condition _ _ => [condition]
  | .ret value => [value]
  | _ => []

/-- In a function that returns a type. -/
def WellTyped (returns : Ty) : Terminator → Prop
  | .jump _ => True
  | .branch condition _ _ => condition.type = .i1
  | .ret value => value.type = returns ∧ returns ≠ .void
  | .retVoid => returns = .void

end Terminator

/-! ## Globals that are declared -/

/-- A function of this name and type is in the module. -/
def HasFunction (globals : List Global) (callee : Signature) : Prop :=
  ∃ f, Global.function f ∈ globals ∧ f.signature = callee

/-- A variable or a text of this name is in the module, and its address is of the type. -/
def HasAddress (globals : List Global) (name : String) (type : Ty) : Prop :=
  (∃ t, Global.external name t ∈ globals ∧ type = .pointer t) ∨
    ∃ contents, Global.text name contents ∈ globals ∧ type = .pointer (textType contents)

/-! ## Bodies of functions -/

/-- The body of a function in its module. `before` says which blocks are passed before others. -/
structure Body where
  globals : List Global
  returns : Ty
  params : List (String × Ty)
  blocks : List Block
  before : String → String → Prop

namespace Body

/-- The function goes from one block straight to another. -/
def Edge (blocks : List Block) (source target : String) : Prop :=
  ∃ b ∈ blocks, b.label = source ∧ ∃ t, b.terminator = some t ∧ target ∈ t.targets

/-- The instruction defines the register. -/
def Defines (i : Instruction) (x : String) (type : Ty) : Prop :=
  i.name = x ∧ i.operation.type = type

/-- The operand may be used in the block `label` after the instructions `earlier` of it. -/
def Available (f : Body) (label : String) (earlier : List Instruction) : Operand → Prop
  | .register x type =>
    (x, type) ∈ f.params ∨ (∃ i ∈ earlier, Defines i x type) ∨
      ∃ b ∈ f.blocks, b.label ≠ label ∧ f.before b.label label ∧ ∃ i ∈ b.body, Defines i x type
  | .global name type => HasAddress f.globals name type
  | .int _ type => 0 < type.width
  | .double _ => True
  | .null type => type.isPointer = true

/-- A join stands first in its block, lists the blocks that lead there, each once, and takes what is
available at their ends. -/
def Joins (f : Body) (label : String) (earlier : List Instruction) : Operation → Prop
  | .phi _ incoming =>
    earlier = [] ∧ (incoming.map Prod.snd).Nodup ∧
      (∀ source, source ∈ incoming.map Prod.snd ↔ Edge f.blocks source label) ∧
      ∀ way ∈ incoming, ∃ b ∈ f.blocks, b.label = way.2 ∧ f.Available way.2 b.body way.1
  | _ => True

/-- The operation may stand in the block `label` after the instructions `earlier` of it. -/
structure Admits (f : Body) (label : String) (earlier : List Instruction) (op : Operation) :
    Prop where
  typed : op.WellTyped
  operands : ∀ o ∈ op.operands, f.Available label earlier o
  declared : ∀ callee args, op = .call callee args → HasFunction f.globals callee
  joins : f.Joins label earlier op

/-- The block may end like this. -/
structure Closes (f : Body) (b : Block) (t : Terminator) : Prop where
  targets : ∀ label ∈ t.targets, ∃ b' ∈ f.blocks, b'.label = label
  typed : t.WellTyped f.returns
  operands : ∀ o ∈ t.operands, f.Available b.label b.body o

/-- The conditions on the blocks as far as they are built. -/
structure Sound (f : Body) : Prop where
  labels : (f.blocks.map Block.label).Nodup
  registers : (f.params.map Prod.fst ++
    f.blocks.flatMap fun b => b.body.map Instruction.name).Nodup
  code : ∀ b ∈ f.blocks, ∀ earlier i later, b.body = earlier ++ i :: later →
    f.Admits b.label earlier i.operation
  ends : ∀ b ∈ f.blocks, ∀ t, b.terminator = some t → f.Closes b t

/-- Every way from the first block to the second label passes the first label. -/
def Dominates (blocks : List Block) (label target : String) : Prop :=
  ∀ path : List String, path.IsChain (Edge blocks) →
    path.head? = blocks.head?.map Block.label → path.getLast? = some target → label ∈ path

end Body

/-- The body of a function of a module. -/
def Function.body (globals : List Global) (f : Function) : Body where
  globals := globals
  returns := f.signature.returns
  params := f.params.zip f.signature.params
  blocks := f.blocks
  before := Body.Dominates f.blocks

/-- A function of a module: one that has blocks satisfies all conditions, and every block ends. -/
structure Function.WellFormed (globals : List Global) (f : Function) : Prop where
  params : f.params.length = f.signature.params.length
  sound : (f.body globals).Sound
  ends : ∀ b ∈ f.blocks, ∃ t, b.terminator = some t

structure Module.WellFormed (m : Module) : Prop where
  names : (m.globals.map Global.name).Nodup
  functions : ∀ f, Global.function f ∈ m.globals → f.WellFormed m.globals

/-! ## Tables of dominating blocks -/

namespace Body
variable {f g : Body} {label : String} {earlier : List Instruction} {blocks : List Block}
  {change : Block → Block} {i : Instruction} {first : String} {table : String → Set String}
  {t : Terminator}

/-- If no label gets lost along an edge, then the labels of a block are passed before it. -/
theorem mem_of_table (hfirst : table first = {first})
    (hedge : ∀ l l', Edge blocks l l' → ∀ d ∈ table l', d = l' ∨ d ∈ table l) (path : List String) :
    ∀ target, path.IsChain (Edge blocks) → path.head? = some first →
      path.getLast? = some target → ∀ d ∈ table target, d ∈ path := by
  induction path using List.reverseRecOn with
  | nil =>
    intro target _ hhead
    cases hhead
  | append_singleton path l ih =>
    intro target hchain hhead hlast d hd
    rw [List.getLast?_concat] at hlast
    cases hlast
    rcases List.eq_nil_or_concat path with rfl | ⟨front, prev, rfl⟩
    · cases hhead
      rw [hfirst] at hd
      exact List.mem_singleton.mpr hd
    · obtain ⟨hfront, -, hstep⟩ := List.isChain_append.mp hchain
      have hedge' : Edge blocks prev l := hstep prev (by simp) l (by simp)
      rcases hedge prev l hedge' d hd with rfl | hd
      · exact List.mem_append_right _ List.mem_cons_self
      · refine List.mem_append_left _ (ih prev hfront ?_ (by simp) d hd)
        rw [← hhead, List.head?_append_of_ne_nil _ (by simp)]

theorem dominates_of_table (hhead : blocks.head?.map Block.label = some first)
    (hfirst : table first = {first})
    (hedge : ∀ l l', Edge blocks l l' → ∀ d ∈ table l', d = l' ∨ d ∈ table l) {d target : String}
    (hd : d ∈ table target) : Dominates blocks d target :=
  fun path hchain hstart hlast =>
    mem_of_table hfirst hedge path target hchain (hstart.trans hhead) hlast d hd

/-! ## Bodies with more in them -/

/-- Whatever could be used in `f` can be used in `g`. -/
structure Grows (f g : Body) : Prop where
  params : f.params ⊆ g.params
  external : ∀ name type, HasAddress f.globals name type → HasAddress g.globals name type
  declared : ∀ callee, HasFunction f.globals callee → HasFunction g.globals callee
  blocks : ∀ b ∈ f.blocks, ∃ b' ∈ g.blocks, b'.label = b.label ∧ b.body <+: b'.body
  before : ∀ b ∈ f.blocks, ∀ b' ∈ f.blocks, f.before b.label b'.label → g.before b.label b'.label

theorem Grows.available (h : Grows f g) (hl : ∃ b ∈ f.blocks, b.label = label)
    {earlier' : List Instruction} (he : earlier ⊆ earlier') {o : Operand}
    (ho : f.Available label earlier o) : g.Available label earlier' o := by
  obtain ⟨b0, hb0, rfl⟩ := hl
  cases o with
  | register x type =>
    rcases ho with hp | ⟨i, hi, hd⟩ | ⟨b, hb, hne, hbefore, i, hi, hd⟩
    · exact .inl (h.params hp)
    · exact .inr (.inl ⟨i, he hi, hd⟩)
    · obtain ⟨b', hb', hlabel, hbody⟩ := h.blocks b hb
      refine .inr (.inr ⟨b', hb', hlabel ▸ hne, ?_, i, hbody.subset hi, hd⟩)
      rw [hlabel]
      exact h.before b hb b0 hb0 hbefore
  | global name type => exact h.external name type ho
  | int value type => exact ho
  | double value => trivial
  | null type => exact ho

theorem Grows.admits (h : Grows f g) {b : Block} (hb : b ∈ f.blocks) {op : Operation}
    (hedge : op.isPhi = true →
      ∀ source, Edge g.blocks source b.label ↔ Edge f.blocks source b.label)
    (ho : f.Admits b.label earlier op) : g.Admits b.label earlier op := by
  refine ⟨ho.typed,
    fun o hmem => h.available ⟨b, hb, rfl⟩ (List.Subset.refl _) (ho.operands o hmem), fun callee args heq => h.declared callee (ho.declared callee args heq), ?_⟩
  cases op with
  | phi type incoming =>
    obtain ⟨hfirst, hnodup, hways, hops⟩ := ho.joins
    refine ⟨hfirst, hnodup, fun source => (hways source).trans (hedge rfl source).symm, ?_⟩
    intro way hway
    obtain ⟨b1, hb1, hlabel, ha⟩ := hops way hway
    obtain ⟨b2, hb2, hlabel2, hbody⟩ := h.blocks b1 hb1
    exact ⟨b2, hb2, hlabel2.trans hlabel, h.available ⟨b1, hb1, hlabel⟩ hbody.subset ha⟩
  | _ => trivial

theorem Grows.closes (h : Grows f g) (hr : g.returns = f.returns) {b b' : Block}
    (hb : b ∈ f.blocks) (hlabel : b'.label = b.label) (hbody : b.body <+: b'.body)
    (hc : f.Closes b t) : g.Closes b' t := by
  refine ⟨fun label hl => ?_, hr ▸ hc.typed, fun o ho => ?_⟩
  · obtain ⟨b1, hb1, rfl⟩ := hc.targets label hl
    obtain ⟨b2, hb2, hlabel2, -⟩ := h.blocks b1 hb1
    exact ⟨b2, hb2, hlabel2⟩
  · rw [hlabel]
    exact h.available ⟨b, hb, rfl⟩ hbody.subset (hc.operands o ho)

/-- The conditions hold whichever relation between the blocks is taken, as long as it says more, and
however many globals there are. -/
theorem Sound.mono (h : f.Sound) (hg : Grows f g) (hr : g.returns = f.returns)
    (hp : g.params = f.params) (hb : g.blocks = f.blocks) : g.Sound := by
  refine ⟨hb ▸ h.labels, hb ▸ hp ▸ h.registers, ?_, ?_⟩
  · intro b hmem earlier i later heq
    rw [hb] at hmem
    exact hg.admits hmem (fun _ source => by rw [hb]) (h.code b hmem earlier i later heq)
  · intro b hmem t ht
    rw [hb] at hmem
    exact hg.closes hr hmem rfl (List.prefix_refl _) (h.ends b hmem t ht)

/-! ## Steps of building a body -/

/-- With the block `label` changed. -/
def changed (f : Body) (label : String) (change : Block → Block) : Body :=
  { f with blocks := f.blocks.map fun b => if b.label = label then change b else b }

theorem mem_changed {b' : Block} (h : b' ∈ (f.changed label change).blocks) :
    ∃ b ∈ f.blocks, (b.label = label ∧ b' = change b) ∨ (b.label ≠ label ∧ b' = b) := by
  obtain ⟨b, hb, rfl⟩ := List.mem_map.mp h
  refine ⟨b, hb, ?_⟩
  by_cases hl : b.label = label
  · exact .inl ⟨hl, if_pos hl⟩
  · exact .inr ⟨hl, if_neg hl⟩

theorem labels_changed (f : Body) (label : String) (change : Block → Block)
    (hlabel : ∀ b, (change b).label = b.label) :
    (f.changed label change).blocks.map Block.label = f.blocks.map Block.label := by
  rw [changed, List.map_map]
  refine List.map_congr_left fun b _ => ?_
  show (if b.label = label then change b else b).label = b.label
  split
  · exact hlabel b
  · rfl

theorem grows_changed (hlabel : ∀ b, (change b).label = b.label)
    (hbody : ∀ b, b.body <+: (change b).body) : Grows f (f.changed label change) := by
  refine ⟨fun _ h => h, fun _ _ h => h, fun _ h => h, fun b hb => ?_, fun _ _ _ _ h => h⟩
  refine ⟨_, List.mem_map_of_mem hb, ?_⟩
  split
  · exact ⟨hlabel b, hbody b⟩
  · exact ⟨rfl, List.prefix_refl _⟩

/-- An instruction at the end of a block leads nowhere. -/
theorem edge_extended {l l' : String} : Edge (f.changed label fun b => { b with body :=
  b.body ++ [i] }).blocks l l' ↔
      Edge f.blocks l l' := by
  constructor
  · rintro ⟨b', hb', hl, ht⟩
    obtain ⟨b, hb, ⟨-, rfl⟩ | ⟨-, rfl⟩⟩ := mem_changed hb'
    · exact ⟨b, hb, hl, ht⟩
    · exact ⟨b', hb, hl, ht⟩
  · rintro ⟨b, hb, hl, ht⟩
    refine ⟨_, List.mem_map_of_mem hb, ?_⟩
    dsimp only
    split <;> exact ⟨hl, ht⟩

/-- The registers of the blocks after an instruction with a new name is appended to one. -/
theorem nodup_extended (hl : (blocks.map Block.label).Nodup)
    (hn : (blocks.flatMap fun b => b.body.map Instruction.name).Nodup)
    (hi : i.name ∉ blocks.flatMap fun b => b.body.map Instruction.name) :
    ((blocks.map fun b => if b.label = label then { b with body :=
  b.body ++ [i] } else b).flatMap
      fun b => b.body.map Instruction.name).Nodup := by
  have hfresh : ∀ b ∈ blocks, i.name ∉ b.body.map Instruction.name :=
    fun b hb hm => hi (List.mem_flatMap.mpr ⟨b, hb, hm⟩)
  obtain ⟨heach, hapart⟩ := List.nodup_flatMap.mp hn
  refine List.nodup_flatMap.mpr ⟨?_, ?_⟩
  · intro b' hb'
    obtain ⟨b, hb, rfl⟩ := List.mem_map.mp hb'
    split
    · rw [List.map_append, List.map_singleton]
      exact List.nodup_append.mpr ⟨heach b hb, List.nodup_singleton _, fun x hx y hy hxy =>
        hfresh b hb (by rwa [← List.mem_singleton.mp hy, ← hxy])⟩
    · exact heach b hb
  · -- two blocks that had no register in common still have none: only one of them has grown
    rw [List.pairwise_map]
    refine (hapart.and (List.pairwise_map.mp hl)).imp_of_mem ?_
    rintro b c hb hc ⟨hdisjoint, hne⟩ x hx hx'
    have hcase {d : Block} (hd : x ∈ (if d.label = label then { d with body := d.body ++ [i] }
        else d).body.map Instruction.name) :
        x ∈ d.body.map Instruction.name ∨ (x = i.name ∧ d.label = label) := by
      split at hd
      · rename_i heq
        rw [List.map_append, List.mem_append, List.map_singleton, List.mem_singleton] at hd
        exact hd.imp_right fun h => ⟨h, heq⟩
      · exact .inl hd
    rcases hcase hx with hb' | ⟨rfl, hb'⟩
    · rcases hcase hx' with hc' | ⟨rfl, -⟩
      · exact hdisjoint hb' hc'
      · exact hfresh b hb hb'
    · rcases hcase hx' with hc' | ⟨-, hc'⟩
      · exact hfresh c hc hc'
      · exact hne (hb'.trans hc'.symm)

/-- An instruction is appended to a block that admits it. -/
theorem Sound.extend (h : f.Sound)
    (hi : i.name ∉ f.params.map Prod.fst ++ f.blocks.flatMap fun b => b.body.map Instruction.name)
    (hop : ∀ b ∈ f.blocks, b.label = label → f.Admits label b.body i.operation) :
    (f.changed label fun b => { b with body := b.body ++ [i] }).Sound := by
  have hg : Grows f (f.changed label fun b => { b with body := b.body ++ [i] }) :=
    grows_changed (fun _ => rfl) fun _ => List.prefix_append _ _
  rw [List.mem_append, not_or] at hi
  have hlabels := labels_changed f label (fun b => { b with body := b.body ++ [i] }) fun _ => rfl
  refine ⟨?_, ?_, ?_, ?_⟩
  · rw [hlabels]
    exact h.labels
  · obtain ⟨hparams, hnames, hapart⟩ := List.nodup_append.mp h.registers
    refine List.nodup_append.mpr ⟨hparams, nodup_extended h.labels hnames hi.2, ?_⟩
    rintro x hx y hy rfl
    obtain ⟨b', hb', hx'⟩ := List.mem_flatMap.mp hy
    obtain ⟨b, hb, ⟨-, rfl⟩ | ⟨-, rfl⟩⟩ := mem_changed hb'
    · rw [List.map_append, List.mem_append, List.map_singleton, List.mem_singleton] at hx'
      rcases hx' with hx' | rfl
      · exact hapart x hx x (List.mem_flatMap.mpr ⟨b, hb, hx'⟩) rfl
      · exact hi.1 hx
    · exact hapart x hx x (List.mem_flatMap.mpr ⟨_, hb, hx'⟩) rfl
  · intro b' hb' earlier j later heq
    obtain ⟨b, hb, ⟨hl, rfl⟩ | ⟨-, rfl⟩⟩ := mem_changed hb'
    · rcases List.eq_nil_or_concat later with rfl | ⟨later, last, rfl⟩
      · obtain ⟨rfl, hj⟩ := List.append_inj' heq rfl
        cases hj
        exact hg.admits hb (fun _ _ => edge_extended) (hl ▸ hop b hb hl)
      · rw [List.concat_eq_append] at heq
        have hconcat : b.body ++ [i] = (earlier ++ j :: later) ++ [last] := by
          rw [List.append_assoc, List.cons_append]
          exact heq
        have hbody : b.body = earlier ++ j :: later := (List.append_inj' hconcat rfl).1
        exact hg.admits hb (fun _ _ => edge_extended) (h.code b hb earlier j later hbody)
    · exact hg.admits hb (fun _ _ => edge_extended) (h.code _ hb earlier j later heq)
  · intro b' hb' t ht
    obtain ⟨b, hb, ⟨-, rfl⟩ | ⟨-, rfl⟩⟩ := mem_changed hb'
    · exact hg.closes rfl hb rfl (List.prefix_append _ _) (h.ends b hb t ht)
    · exact hg.closes rfl hb rfl (List.prefix_refl _) (h.ends _ hb t ht)

/-- The edges after the block `label`, which had no end, gets one. -/
theorem edge_closed (hopen : ∀ b ∈ f.blocks, b.label = label → b.terminator = none)
    {l l' : String} : Edge (f.changed label fun b => { b with terminator := some t }).blocks l l' ↔
      Edge f.blocks l l' ∨ (l = label ∧ l' ∈ t.targets ∧ ∃ b ∈ f.blocks, b.label = label) := by
  constructor
  · rintro ⟨b', hb', hl, t', ht', hmem⟩
    obtain ⟨b, hb, ⟨hb1, rfl⟩ | ⟨-, rfl⟩⟩ := mem_changed hb'
    · cases ht'
      exact .inr ⟨hl.symm.trans hb1, hmem, b, hb, hb1⟩
    · exact .inl ⟨b', hb, hl, t', ht', hmem⟩
  · rintro (⟨b, hb, hl, t', ht', hmem⟩ | ⟨rfl, hmem, b, hb, hl⟩)
    · have hne : b.label ≠ label := by
        intro heq
        rw [hopen b hb heq] at ht'
        cases ht'
      exact ⟨b, List.mem_map.mpr ⟨b, hb, if_neg hne⟩, hl, t', ht', hmem⟩
    · exact ⟨_, List.mem_map.mpr ⟨b, hb, if_pos hl⟩, hl, t, rfl, hmem⟩

/-- A block gets its end, and no join stands where it leads. -/
theorem Sound.close (h : f.Sound)
    (hopen : ∀ b ∈ f.blocks, b.label = label → b.terminator = none ∧ f.Closes b t)
    (hphi : ∀ b ∈ f.blocks, b.label ∈ t.targets → ∀ i ∈ b.body, i.operation.isPhi = false) :
    (f.changed label fun b => { b with terminator := some t }).Sound := by
  have hg : Grows f (f.changed label fun b => { b with terminator := some t }) :=
    grows_changed (fun _ => rfl) fun _ => List.prefix_refl _
  have hadmits {b : Block} (hb : b ∈ f.blocks) {earlier : List Instruction} {i : Instruction}
      {later : List Instruction} (heq : b.body = earlier ++ i :: later) :
      (f.changed label fun b => { b with terminator := some t }).Admits b.label earlier
        i.operation := by
    refine hg.admits hb (fun hi source => ?_) (h.code b hb earlier i later heq)
    rw [edge_closed fun b hb hl => (hopen b hb hl).1]
    refine or_iff_left ?_
    rintro ⟨-, hmem, -⟩
    rw [hphi b hb hmem i (by simp [heq])] at hi
    cases hi
  have hlabels := labels_changed f label (fun b => { b with terminator := some t }) fun _ => rfl
  refine ⟨?_, ?_, ?_, ?_⟩
  · rw [hlabels]
    exact h.labels
  · have hnames : ((f.changed label fun b => { b with terminator := some t }).blocks.flatMap
        fun b => b.body.map Instruction.name) =
        f.blocks.flatMap fun b => b.body.map Instruction.name := by
      rw [changed, List.flatMap_map]
      refine List.flatMap_congr fun b _ => ?_
      split <;> rfl
    rw [hnames]
    exact h.registers
  · intro b' hb' earlier i later heq
    obtain ⟨b, hb, ⟨-, rfl⟩ | ⟨-, rfl⟩⟩ := mem_changed hb'
    · exact hadmits hb heq
    · exact hadmits hb heq
  · intro b' hb' t' ht'
    obtain ⟨b, hb, ⟨hl, rfl⟩ | ⟨-, rfl⟩⟩ := mem_changed hb'
    · cases ht'
      exact hg.closes rfl hb rfl (List.prefix_refl _) (hopen b hb hl).2
    · exact hg.closes rfl hb rfl (List.prefix_refl _) (h.ends _ hb t' ht')

/-- With an empty block more, and another relation between the blocks. -/
def opened (f : Body) (label : String) (before : String → String → Prop) : Body :=
  { f with blocks := f.blocks ++ [{ label }], before }

theorem edge_opened {l l' : String} : Edge (blocks ++ [({ label := label } : Block)]) l l' ↔ Edge blocks l l' := by
  constructor
  · rintro ⟨b, hb, hl, t, ht, hmem⟩
    rcases List.mem_append.mp hb with hb | hb
    · exact ⟨b, hb, hl, t, ht, hmem⟩
    · rw [List.mem_singleton.mp hb] at ht
      cases ht
  · rintro ⟨b, hb, h⟩
    exact ⟨b, List.mem_append_left _ hb, h⟩

theorem Sound.open (h : f.Sound) (hl : label ∉ f.blocks.map Block.label)
    {before : String → String → Prop}
    (hbefore : ∀ b ∈ f.blocks, ∀ b' ∈ f.blocks,
      f.before b.label b'.label → before b.label b'.label) : (f.opened label before).Sound := by
  have hg : Grows f (f.opened label before) :=
    ⟨fun _ h => h, fun _ _ h => h, fun _ h => h,
      fun b hb => ⟨b, List.mem_append_left _ hb, rfl, List.prefix_refl _⟩, hbefore⟩
  refine ⟨?_, ?_, ?_, ?_⟩
  · rw [opened, List.map_append]
    refine List.nodup_append.mpr ⟨h.labels, List.nodup_singleton _, fun x hx y hy hxy => ?_⟩
    rw [hxy, List.mem_singleton.mp hy] at hx
    exact hl hx
  · rw [opened, List.flatMap_append]
    simpa using h.registers
  · intro b hb earlier i later heq
    rcases List.mem_append.mp hb with hb | hb
    · exact hg.admits hb (fun _ _ => edge_opened) (h.code b hb earlier i later heq)
    · rw [List.mem_singleton.mp hb] at heq
      exact absurd heq (by simp)
  · intro b hb t ht
    rcases List.mem_append.mp hb with hb | hb
    · exact hg.closes rfl hb rfl (List.prefix_refl _) (h.ends b hb t ht)
    · rw [List.mem_singleton.mp hb] at ht
      cases ht

end Body

/-! ## Functions of a module that grows -/

namespace Function
variable {globals globals' : List Global} {f : Function}

theorem WellFormed.mono (h : f.WellFormed globals)
    (ha : ∀ name type, HasAddress globals name type → HasAddress globals' name type)
    (hf : ∀ callee, HasFunction globals callee → HasFunction globals' callee) :
    f.WellFormed globals' := by
  have hgrows : (f.body globals).Grows (f.body globals') :=
    ⟨fun _ h => h, ha, hf, fun b hb => ⟨b, hb, rfl, List.prefix_refl _⟩, fun _ _ _ _ h => h⟩
  exact ⟨h.params, h.sound.mono hgrows rfl rfl rfl, h.ends⟩

/-- A function that is only declared. -/
theorem wellFormed_of_blocks_eq_nil (hb : f.blocks = []) (hn : f.params.Nodup)
    (hl : f.params.length = f.signature.params.length) : f.WellFormed globals := by
  have hnone {P : Block → Prop} : ∀ b ∈ f.blocks, P b := by
    rw [hb]
    exact fun b hmem => absurd hmem List.not_mem_nil
  refine ⟨hl, ⟨?_, ?_, hnone, hnone⟩, hnone⟩
  · show (f.blocks.map Block.label).Nodup
    rw [hb]
    exact List.nodup_nil
  · show ((f.params.zip f.signature.params).map Prod.fst ++
      f.blocks.flatMap fun b => b.body.map Instruction.name).Nodup
    rw [hb, List.map_fst_zip hl.le, List.flatMap_nil, List.append_nil]
    exact hn

end Function
end DualEngine.IR
