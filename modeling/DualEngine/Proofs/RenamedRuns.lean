import DualEngine.Proofs.RenamedTrees

/-! # Running under a renaming

A renamed module, run from a memory whose cells are renamed, does the same and ends in the renamed
memory. Only addresses of cells have names; buffers, the generator and the output have none.
-/
namespace DualEngine.Machine
open IR

/-! ## Memory -/

section
variable (f : String → String)

def Address.rename : Address → Address
  | .cell symbol => .cell (f symbol)
  | a => a

def Word.rename : Word → Word
  | .address a => .address (a.rename f)
  | w => w

def Memory.rename (m : Memory) : Memory := { m with cells := m.cells.rename f (Word.rename f) }

def State.rename (s : State) : State := { s with memory := s.memory.rename f }

/-- Registers and stack cells belong to a function and keep their names. -/
def Frame.rename (frame : Frame) : Frame where
  registers := frame.registers.rename id (Word.rename f)
  stack := frame.stack.rename id (Word.rename f)

def Image.rename (image : Image) : Image where
  functions := image.functions.map (Function.rename f)
  constants := image.constants.rename f (Address.rename f)

@[simp] theorem Memory.heap_rename (m : Memory) : (m.rename f).heap = m.heap := rfl

@[simp] theorem Memory.text?_rename (m : Memory) (a : Address) :
    (m.rename f).text? (a.rename f) = m.text? a := by
  cases a <;> rfl

@[simp] theorem Memory.int?_rename (m : Memory) (buffer index : Nat) :
    (m.rename f).int? buffer index = m.int? buffer index := rfl

theorem Memory.array?_rename (m : Memory) (a : Address) :
    (m.rename f).array? (a.rename f) = m.array? a := by
  cases a with
  | heap buffer index => exact array?_congr (m.int?_rename f buffer) index
  | _ => rfl

/-- A value does not depend on the names of the cells. -/
theorem decode?_rename (m : Memory) (kind : Kind) (w : Word) :
    decode? (m.rename f) kind (w.rename f) = decode? m kind w := by
  cases w with
  | address a =>
    cases kind with
    | string => exact congrArg (Option.map Value.string) (m.text?_rename f a)
    | intArray => exact congrArg (Option.map Value.intArray) (m.array?_rename f a)
    | _ => rfl
  | _ => cases kind <;> rfl

theorem Memory.writeInt?_rename (m : Memory) (buffer index : Nat) (n : Int32) :
    (m.rename f).writeInt? buffer index n = (m.writeInt? buffer index n).map (Memory.rename f) := by
  simp only [Memory.writeInt?, Memory.heap_rename]
  cases m.heap[buffer]? with
  | none => rfl
  | some b =>
    dsimp only
    split <;> split <;> rfl

theorem Memory.writeText?_rename (m : Memory) (a : Address) (t : String) :
    (m.rename f).writeText? (a.rename f) t = (m.writeText? a t).map (Memory.rename f) := by
  cases a with
  | heap buffer index =>
    cases index with
    | zero =>
      simp only [Address.rename, Memory.writeText?, Memory.heap_rename]
      cases m.heap[buffer]? with
      | none => rfl
      | some b =>
        dsimp only
        split <;> rfl
    | succ index => rfl
  | _ => rfl

end

/-! ## Computations -/

variable {ρ : Renaming} {α β γ δ : Type}

/-- From the renamed state the second computation does what the first does from the state. -/
def Echoes (ρ : Renaming) (f : α → β) (p : Run α) (q : Run β) : Prop :=
  ∀ s, q (s.rename ρ.name) = mapResult f (State.rename ρ.name) (p s)

theorem Echoes.bind {f : α → β} {g : γ → δ} {p : Run α} {q : Run β} {k : α → Run γ}
    {k' : β → Run δ} (hp : Echoes ρ f p q) (hk : ∀ a, Echoes ρ g (k a) (k' (f a))) :
    Echoes ρ g (p >>= k) (q >>= k') := by
  intro s
  have hfirst := hp s
  cases hrun : p s with
  | error e t =>
    rw [hrun] at hfirst
    rw [bind_error hrun, bind_error hfirst]
    rfl
  | ok a t =>
    rw [hrun] at hfirst
    rw [bind_ok hrun, bind_ok hfirst]
    exact hk a t

theorem echoes_pure {f : α → β} {a : α} {b : β} (h : b = f a) : Echoes ρ f (pure a) (pure b) := by
  subst h
  exact fun _ => rfl

theorem echoes_trap {f : α → β} (cause : Trap) : Echoes ρ f (trap cause) (trap cause) :=
  fun _ => rfl

theorem Echoes.map {f : α → β} {g : γ → δ} {p : Run α} {q : Run β} (hp : Echoes ρ f p q)
    {k : α → γ} {k' : β → δ} (hk : ∀ a, k' (f a) = g (k a)) : Echoes ρ g (k <$> p) (k' <$> q) := by
  rw [map_eq_pure_bind, map_eq_pure_bind]
  exact hp.bind fun a => echoes_pure (hk a)

theorem echoes_get {g : γ → δ} {k : State → Run γ} {k' : State → Run δ}
    (hk : ∀ s, Echoes ρ g (k s) (k' (s.rename ρ.name))) :
    Echoes ρ g (get >>= k) (get >>= k') := fun s => hk s s

theorem echoes_modify {r r' : State → State} (h : ∀ s, r' (s.rename ρ.name) = (r s).rename ρ.name) :
    Echoes ρ id (modify r : Run PUnit) (modify r') :=
  fun s => congrArg (EStateM.Result.ok PUnit.unit) (h s)

theorem echoes_set {s s' : State} (h : s' = s.rename ρ.name) :
    Echoes ρ id (set s : Run PUnit) (set s') :=
  fun _ => congrArg (EStateM.Result.ok PUnit.unit) h

theorem echoes_ofOption (cause : Trap) {f : α → β} {a : Option α} {b : Option β}
    (h : b = a.map f) : Echoes ρ f (ofOption cause a) (ofOption cause b) := by
  subst h
  cases a with
  | none => exact echoes_trap cause
  | some a => exact echoes_pure rfl

/-! ## Words -/

section
variable (f : String → String)

/-- A computation on words that reads no address. -/
def Numeric (p : Run Word) : Prop :=
  (∃ w : Word, p = pure w ∧ ∀ f, w.rename f = w) ∨ ∃ cause, p = trap cause

theorem Numeric.echoes {p : Run Word} (h : Numeric p) : Echoes ρ (Word.rename ρ.name) p p := by
  rcases h with ⟨w, rfl, hw⟩ | ⟨cause, rfl⟩
  · exact echoes_pure (hw _).symm
  · exact echoes_trap cause

theorem numeric_pure {w : Word} (h : ∀ f, w.rename f = w) : Numeric (pure w) := .inl ⟨w, rfl, h⟩

theorem numeric_trap (cause : Trap) : Numeric (trap cause) := .inr ⟨cause, rfl⟩

theorem numeric_constant (n : Int) (type : Ty) : Numeric (constant n type) := by
  cases type <;> first | exact numeric_pure fun _ => rfl | exact numeric_trap _

theorem numeric_binary (op : BinaryOp) (a b : Word) : Numeric (binary op a b) := by
  fun_cases binary op a b <;> first
    | exact numeric_pure fun _ => rfl
    | exact numeric_trap _

theorem numeric_icmp (test : IntTest) (a b : Word) : Numeric (icmp test a b) := by
  fun_cases icmp test a b <;> first
    | exact numeric_pure fun _ => rfl
    | exact numeric_trap _

theorem numeric_fcmp (test : FloatTest) (a b : Word) : Numeric (fcmp test a b) := by
  fun_cases fcmp test a b <;> first
    | exact numeric_pure fun _ => rfl
    | exact numeric_trap _

theorem binary_rename (op : BinaryOp) (a b : Word) :
    binary op (a.rename f) (b.rename f) = binary op a b := by
  cases a <;> cases b <;> first | rfl | (cases op <;> rfl)

theorem icmp_rename (test : IntTest) (a b : Word) :
    icmp test (a.rename f) (b.rename f) = icmp test a b := by
  cases a <;> cases b <;> first | rfl | (cases test <;> rfl)

theorem fcmp_rename (test : FloatTest) (a b : Word) :
    fcmp test (a.rename f) (b.rename f) = fcmp test a b := by
  cases a <;> cases b <;> rfl

end

theorem echoes_convert (how : Conversion) (w : Word) (type : Ty) :
    Echoes ρ (Word.rename ρ.name) (convert how w type) (convert how (w.rename ρ.name) type) := by
  cases how <;> cases w <;> cases type <;> first | exact echoes_pure rfl | exact echoes_trap _

/-! ## Operands -/

theorem Image.address_rename (image : Image) (name : String) :
    (image.rename ρ.name).address (ρ.name name) = (image.address name).rename ρ.name := by
  have htext : ρ.name name = Lowering.emptyText ↔ name = Lowering.emptyText :=
    ρ.name_eq_iff (by decide) (by decide)
  have harray : ρ.name name = Lowering.emptyArray ↔ name = Lowering.emptyArray :=
    ρ.name_eq_iff (by decide) (by decide)
  simp only [Image.address, Image.rename, Table.get?_rename (Address.rename ρ.name) ρ.injective]
  cases image.constants.get? name with
  | some a => rfl
  | none =>
    simp only [Option.map_none, htext, harray]
    split
    · rfl
    · split <;> rfl

variable (image : Image) (frame : Frame)

theorem echoes_operand (o : Operand) :
    Echoes ρ (Word.rename ρ.name) (operand image frame o)
      (operand (image.rename ρ.name) (frame.rename ρ.name) (o.rename ρ.name)) := by
  cases o with
  | register name type =>
    exact echoes_ofOption _ (Table.get?_rename _ Function.injective_id frame.registers name)
  | global name type => exact echoes_pure (congrArg Word.address (image.address_rename name))
  | int n type => exact (numeric_constant n type).echoes
  | double x | null type => exact echoes_pure rfl

theorem echoes_operands (os : List Operand) :
    Echoes ρ (List.map (Word.rename ρ.name)) (operands image frame os)
      (operands (image.rename ρ.name) (frame.rename ρ.name) (os.map (Operand.rename ρ.name))) := by
  induction os with
  | nil => exact echoes_pure rfl
  | cons o rest ih =>
    exact (echoes_operand image frame o).bind fun w => ih.bind fun _ => echoes_pure rfl

theorem echoes_load (w : Word) :
    Echoes ρ (Word.rename ρ.name) (load frame w)
      (load (frame.rename ρ.name) (w.rename ρ.name)) := by
  cases w with
  | address a =>
    cases a with
    | null => exact echoes_trap _
    | cell symbol =>
      refine echoes_get fun s => ?_
      exact echoes_ofOption _ (Table.get?_rename _ ρ.injective s.memory.cells symbol)
    | stack name =>
      exact echoes_ofOption _ (Table.get?_rename _ Function.injective_id frame.stack name)
    | heap buffer index =>
      refine echoes_get fun s => ?_
      have hread : (s.rename ρ.name).memory.int? buffer index =
          (s.memory.int? buffer index).map id := (Option.map_id_apply).symm
      exact (echoes_ofOption _ hread).bind (g := Word.rename ρ.name) fun _ => echoes_pure rfl
  | _ => exact echoes_trap _

theorem echoes_store (word target : Word) :
    Echoes ρ (Frame.rename ρ.name) (store frame word target)
      (store (frame.rename ρ.name) (word.rename ρ.name) (target.rename ρ.name)) := by
  cases target with
  | address a =>
    cases a with
    | null => exact echoes_trap _
    | cell symbol =>
      refine (echoes_modify fun s => ?_).bind fun _ => echoes_pure rfl
      simp only [State.rename, Memory.rename, Memory.setCell,
        Table.insert_rename (Word.rename ρ.name) ρ.injective]
    | stack name =>
      refine echoes_pure ?_
      simp only [Frame.rename, ← Table.insert_rename (Word.rename ρ.name) Function.injective_id,
        id_eq]
    | heap buffer index =>
      cases word with
      | int n =>
        refine echoes_get fun s => ?_
        refine (echoes_ofOption _ (s.memory.writeInt?_rename ρ.name buffer index n)).bind
          fun m => ?_
        exact Echoes.bind (f := id) (echoes_set rfl) fun _ => echoes_pure rfl
      | _ => exact echoes_trap _
  | _ => exact echoes_trap _

/-! ## The library -/

theorem echoes_readText (a : Address) :
    Echoes ρ id (readText a) (readText (a.rename ρ.name)) :=
  echoes_get fun s => echoes_ofOption _ (by simp [State.rename])

theorem echoes_format (directives : List Char) (args : List Word) :
    Echoes ρ id (format directives args) (format directives (args.map (Word.rename ρ.name))) := by
  fun_induction format directives args with
  | case1 rest k args ih | case2 rest x args ih => exact ih.bind fun _ => echoes_pure rfl
  | case3 rest a args ih =>
    exact (echoes_readText a).bind fun _ => ih.bind fun _ => echoes_pure rfl
  | case4 rest args hint hfloat htext =>
    -- no word is renamed to one of another form
    have htrap : format ('%' :: rest) (args.map (Word.rename ρ.name)) = trap .malformed := by
      refine format.eq_4 _ rest ?_ ?_ ?_ <;> intro rest' x args' hargs
      all_goals
        obtain ⟨w, ws, rfl, hw, -⟩ := List.map_eq_cons_iff.mp hargs
        cases w <;> cases hw
      · exact hint rest' x ws rfl
      · exact hfloat rest' x ws rfl
      · exact htext rest' _ ws rfl
    rw [htrap]
    exact echoes_trap _
  | case5 c rest args _ _ _ hc ih =>
    have hnext : format (c :: rest) (args.map (Word.rename ρ.name)) =
        (do return c :: (← format rest (args.map (Word.rename ρ.name)))) :=
      format.eq_5 _ c rest hc (fun _ _ _ _ h => absurd h hc) (fun _ _ _ _ h => absurd h hc)
        fun _ _ _ _ h => absurd h hc
    rw [hnext]
    exact ih.bind fun _ => echoes_pure rfl
  | case6 args => exact echoes_pure rfl

theorem echoes_formatAt (a : Address) (args : List Word) :
    Echoes ρ id (formatAt a args) (formatAt (a.rename ρ.name) (args.map (Word.rename ρ.name))) :=
  (echoes_readText a).bind fun t => (echoes_format t.toList args).bind fun _ => echoes_pure rfl

theorem echoes_allocate (size : Nat) (contents : Contents) :
    Echoes ρ (Word.rename ρ.name) (allocate size contents) (allocate size contents) :=
  fun _ => rfl

/-- What a call returns, if anything. -/
noncomputable abbrev renameResult (ρ : Renaming) : Option Word → Option Word :=
  Option.map (Word.rename ρ.name)

section
variable (args : List Word)

theorem echoes_printf : Echoes ρ (renameResult ρ) (callPrintf args)
    (callPrintf (args.map (Word.rename ρ.name))) := by
  cases args with
  | nil => exact echoes_trap _
  | cons w args =>
    cases w with
    | address a =>
      refine (echoes_formatAt a args).bind fun t => ?_
      exact Echoes.bind (f := id) (echoes_modify fun _ => rfl) fun _ => echoes_pure rfl
    | _ => exact echoes_trap _

theorem echoes_sprintf : Echoes ρ (renameResult ρ) (callSprintf args)
    (callSprintf (args.map (Word.rename ρ.name))) := by
  rcases args with - | ⟨w, - | ⟨w', args⟩⟩
  · exact echoes_trap _
  · cases w <;> exact echoes_trap _
  · cases w with
    | address buffer =>
      cases w' with
      | address a =>
        refine (echoes_formatAt a args).bind fun t => echoes_get fun s => ?_
        refine (echoes_ofOption _ (s.memory.writeText?_rename ρ.name buffer t)).bind
          fun m => ?_
        exact Echoes.bind (f := id) (echoes_set rfl) fun _ => echoes_pure rfl
      | _ => exact echoes_trap _
    | _ => exact echoes_trap _

theorem echoes_snprintf : Echoes ρ (renameResult ρ) (callSnprintf args)
    (callSnprintf (args.map (Word.rename ρ.name))) := by
  rcases args with - | ⟨w, - | ⟨w', - | ⟨w'', args⟩⟩⟩
  · exact echoes_trap _
  · rcases w with _ | _ | _ | _ | _ | a <;> try exact echoes_trap _
    cases a <;> exact echoes_trap _
  · rcases w with _ | _ | _ | _ | _ | a <;> try exact echoes_trap _
    cases a <;> cases w' <;> exact echoes_trap _
  · rcases w with _ | _ | _ | _ | _ | a <;> try exact echoes_trap _
    cases a with
    | null =>
      cases w' with
      | long n =>
        cases w'' with
        | address a =>
          simp only [callSnprintf, List.map_cons, Word.rename, Address.rename]
          split
          · exact (echoes_formatAt a args).bind fun _ => echoes_pure rfl
          · exact echoes_trap _
        | _ => exact echoes_trap _
      | _ => exact echoes_trap _
    | _ => cases w' <;> cases w'' <;> exact echoes_trap _

theorem echoes_malloc : Echoes ρ (renameResult ρ) (callMalloc args)
    (callMalloc (args.map (Word.rename ρ.name))) := by
  rcases args with - | ⟨w, - | ⟨w', args⟩⟩
  · exact echoes_trap _
  · cases w with
    | long n => exact (echoes_allocate _ _).map fun _ => rfl
    | _ => exact echoes_trap _
  · cases w <;> exact echoes_trap _

theorem echoes_strdup : Echoes ρ (renameResult ρ) (callStrdup args)
    (callStrdup (args.map (Word.rename ρ.name))) := by
  rcases args with - | ⟨w, - | ⟨w', args⟩⟩
  · exact echoes_trap _
  · cases w with
    | address a =>
      exact (echoes_readText a).bind fun t => (echoes_allocate _ _).map fun _ => rfl
    | _ => exact echoes_trap _
  · cases w <;> exact echoes_trap _

theorem echoes_strcmp : Echoes ρ (renameResult ρ) (callStrcmp args)
    (callStrcmp (args.map (Word.rename ρ.name))) := by
  rcases args with - | ⟨w, - | ⟨w', - | ⟨w'', args⟩⟩⟩
  · exact echoes_trap _
  · cases w <;> exact echoes_trap _
  · cases w with
    | address a =>
      cases w' with
      | address b =>
        exact (echoes_readText a).bind fun _ => (echoes_readText b).bind fun _ => echoes_pure rfl
      | _ => exact echoes_trap _
    | _ => exact echoes_trap _
  · cases w <;> cases w' <;> exact echoes_trap _

theorem echoes_random : Echoes ρ (renameResult ρ) (callRandom args)
    (callRandom (args.map (Word.rename ρ.name))) := by
  cases args with
  | nil => exact fun _ => rfl
  | cons w args => exact echoes_trap _

end

/-- The names of the library stay, and no other name becomes one of them. -/
theorem echoes_callLibrary (name : String) (args : List Word) :
    Echoes ρ (renameResult ρ) (callLibrary name args)
      (callLibrary (ρ.name name) (args.map (Word.rename ρ.name))) := by
  unfold callLibrary
  split
  · rw [ρ.name_eq (by decide) (by decide)]
    exact echoes_printf args
  · rw [ρ.name_eq (by decide) (by decide)]
    exact echoes_sprintf args
  · rw [ρ.name_eq (by decide) (by decide)]
    exact echoes_snprintf args
  · rw [ρ.name_eq (by decide) (by decide)]
    exact echoes_malloc args
  · rw [ρ.name_eq (by decide) (by decide)]
    exact echoes_strdup args
  · rw [ρ.name_eq (by decide) (by decide)]
    exact echoes_strcmp args
  · rw [ρ.name_eq (by decide) (by decide)]
    exact echoes_random args
  · split <;> first
      | exact echoes_trap _
      | (rename_i heq
         exact absurd ((ρ.name_eq_iff (by decide) (by decide)).mp heq) (by assumption))

/-! ## Functions -/

theorem Image.function?_rename (image : Image) (name : String) :
    (image.rename ρ.name).function? (ρ.name name) =
      (image.function? name).map (Function.rename ρ.name) := by
  have hname (f : Function) : ((f.rename ρ.name).signature.name == ρ.name name) =
      (f.signature.name == name) := by
    rw [Bool.eq_iff_iff, beq_iff_eq, beq_iff_eq]
    exact ρ.injective.eq_iff
  have hblocks (f : Function) : (f.rename ρ.name).blocks.isEmpty = f.blocks.isEmpty :=
    List.isEmpty_map
  simp only [Image.function?, Image.rename, List.find?_map]
  congr 2
  funext f
  simp only [Function.comp_apply, hname, hblocks]

/-- Calls of renamed functions with renamed words. -/
def Invoke.Echoed (ρ : Renaming) (invoke invoke' : Invoke) : Prop :=
  ∀ callee args, Echoes ρ (renameResult ρ) (invoke callee args)
    (invoke' (callee.rename ρ.name) (args.map (Word.rename ρ.name)))

/-- The result of an operation and the frame after it. -/
noncomputable def renameStep (ρ : Renaming) (r : Option Word × Frame) : Option Word × Frame :=
  (renameResult ρ r.1, r.2.rename ρ.name)

variable {invoke invoke' : Invoke}

theorem echoes_operate (h : invoke.Echoed ρ invoke') (previous name : String) (op : Operation) :
    Echoes ρ (renameStep ρ) (operate image invoke previous name frame op)
      (operate (image.rename ρ.name) invoke' previous name (frame.rename ρ.name)
        (op.rename ρ.name)) := by
  have word (o : Operand) := echoes_operand (ρ := ρ) image frame o
  cases op with
  | binary op left right =>
    refine (word left).bind fun a => (word right).bind fun b => ?_
    rw [binary_rename]
    exact (numeric_binary op a b).echoes.bind fun _ => echoes_pure rfl
  | icmp test left right =>
    refine (word left).bind fun a => (word right).bind fun b => ?_
    rw [icmp_rename]
    exact (numeric_icmp test a b).echoes.bind fun _ => echoes_pure rfl
  | fcmp test left right =>
    refine (word left).bind fun a => (word right).bind fun b => ?_
    rw [fcmp_rename]
    exact (numeric_fcmp test a b).echoes.bind fun _ => echoes_pure rfl
  | convert how value type =>
    exact (word value).bind fun a => (echoes_convert how a type).bind fun _ => echoes_pure rfl
  | load address =>
    exact (word address).bind fun a => (echoes_load frame a).bind fun _ => echoes_pure rfl
  | store value address =>
    exact (word value).bind fun w => (word address).bind fun a =>
      (echoes_store frame w a).bind fun _ => echoes_pure rfl
  | alloca type => exact echoes_pure rfl
  | element base index =>
    refine (word base).bind fun b => (word index).bind fun i => ?_
    rcases b with _ | _ | _ | _ | _ | a <;> try exact echoes_trap _
    cases a with
    | heap buffer k =>
      cases i with
      | int n =>
        simp only [Word.rename, Address.rename]
        split
        · exact echoes_trap _
        · exact echoes_pure rfl
      | _ => exact echoes_trap _
    | _ => cases i <;> exact echoes_trap _
  | select condition yes no =>
    refine (word condition).bind fun c => ?_
    cases c with
    | bit b =>
      refine (word yes).bind fun y => (word no).bind fun n => echoes_pure ?_
      cases b <;> rfl
    | _ => exact echoes_trap _
  | phi type incoming =>
    have hlabels : ((fun i : Operand × String => i.2 == previous) ∘
        fun i : Operand × String => (i.1.rename ρ.name, i.2)) = fun i => i.2 == previous := rfl
    simp only [operate, Operation.rename, List.find?_map, hlabels]
    cases incoming.find? fun i => i.2 == previous with
    | none => exact echoes_trap _
    | some i => exact (word i.1).bind fun _ => echoes_pure rfl
  | call callee args =>
    exact (echoes_operands image frame args).bind fun words =>
      (h callee words).bind fun _ => echoes_pure rfl

theorem echoes_runBody (h : invoke.Echoed ρ invoke') (previous : String) (body : List Instruction) :
    Echoes ρ (Frame.rename ρ.name) (runBody image invoke previous body frame)
      (runBody (image.rename ρ.name) invoke' previous (body.map (Instruction.rename ρ.name))
        (frame.rename ρ.name)) := by
  induction body generalizing frame with
  | nil => exact echoes_pure rfl
  | cons i rest ih =>
    refine (echoes_operate image frame h previous i.name i.operation).bind fun r => ?_
    obtain ⟨result, next⟩ := r
    cases result with
    | none => exact ih next
    | some word =>
      have hset : ({ next.rename ρ.name with
            registers := (next.rename ρ.name).registers.insert i.name (word.rename ρ.name) } : Frame) =
          Frame.rename ρ.name { next with registers := next.registers.insert i.name word } := by
        simp only [Frame.rename, ← Table.insert_rename (Word.rename ρ.name) Function.injective_id,
          id_eq]
      have hnext := ih { next with registers := next.registers.insert i.name word }
      rw [← hset] at hnext
      exact hnext

theorem blockAt_rename (blocks : List Block) (label : String) :
    blockAt (blocks.map (Block.rename ρ.name)) label =
      (blockAt blocks label).map (Block.rename ρ.name) :=
  List.find?_map

/-- The words of a call are the registers in which it starts. -/
theorem registers_rename (params : List String) (args : List Word) :
    ({ registers := Table.ofList (params.zip (args.map (Word.rename ρ.name))) } : Frame) =
      Frame.rename ρ.name { registers := Table.ofList (params.zip args) } := by
  simp only [Frame.rename, Table.ofList_rename _ Function.injective_id, List.zip_map_right]
  rfl

theorem echoes_execute (fuel : Nat) (f : Function) (label previous : String) :
    Echoes ρ (renameResult ρ) (execute image fuel f label previous frame)
      (execute (image.rename ρ.name) fuel (f.rename ρ.name) label previous
        (frame.rename ρ.name)) := by
  induction fuel generalizing f label previous frame with
  | zero => exact fun _ => rfl
  | succ fuel ih =>
    have hinvoke : Invoke.Echoed ρ (invokeWith image fuel)
        (invokeWith (image.rename ρ.name) fuel) := by
      intro callee args
      unfold invokeWith
      rw [show (callee.rename ρ.name).name = ρ.name callee.name from rfl,
        Image.function?_rename]
      cases image.function? callee.name with
      | none => exact echoes_callLibrary callee.name args
      | some g =>
        simp only [Option.map_some, Function.rename]
        cases hblocks : g.blocks with
        | nil => exact echoes_trap _
        | cons first rest =>
          have hrun := ih { registers := Table.ofList (g.params.zip args) } g first.label ""
          rw [← registers_rename, Function.rename, hblocks] at hrun
          exact hrun
    cases hb : blockAt f.blocks label with
    | none =>
      have hb' : blockAt (f.rename ρ.name).blocks label = none := by
        rw [Function.rename, blockAt_rename, hb]
        rfl
      rw [execute_none _ _ _ _ _ _ hb, execute_none _ _ _ _ _ _ hb']
      exact echoes_trap _
    | some b =>
      have hb' : blockAt (f.rename ρ.name).blocks label = some (b.rename ρ.name) := by
        rw [Function.rename, blockAt_rename, hb]
        rfl
      rw [execute_succ _ _ _ _ _ _ hb, execute_succ _ _ _ _ _ _ hb']
      refine (echoes_runBody image frame hinvoke previous b.body).bind fun next => ?_
      simp only [leave, Block.rename]
      cases b.terminator with
      | none => exact echoes_trap _
      | some t =>
        cases t with
        | jump target => exact ih next f target label
        | branch condition yes no =>
          refine (echoes_operand image next condition).bind fun c => ?_
          cases c with
          | bit holds => exact ih next f _ label
          | _ => exact echoes_trap _
        | ret value => exact (echoes_operand image next value).map fun _ => rfl
        | retVoid => exact echoes_pure rfl

/-! ## Submissions -/

open Lowering

theorem Memory.setCell_rename (m : Memory) (symbol : String) (w : Word) :
    (m.rename ρ.name).setCell (ρ.name symbol) (w.rename ρ.name) =
      (m.setCell symbol w).rename ρ.name := by
  simp only [Memory.setCell, Memory.rename, Table.insert_rename (Word.rename ρ.name) ρ.injective]

theorem Memory.addSlot_rename (m : Memory) (slot : Slot) :
    (m.rename ρ.name).addSlot (ρ.slot slot) = (m.addSlot slot).rename ρ.name := by
  have hword : (zeroWord slot.kind).rename ρ.name = zeroWord slot.kind := by
    cases slot.kind <;> rfl
  rw [Memory.addSlot, Memory.addSlot, ← Memory.setCell_rename, ρ.name_symbol, hword]
  rfl

theorem prepared_rename (a : Artifact) (m : Memory) :
    prepared (a.rename ρ) (m.rename ρ.name) = (prepared a m).rename ρ.name := by
  have hslots : (a.created.map ρ.slot).foldl Memory.addSlot (m.rename ρ.name) =
      (a.created.foldl Memory.addSlot m).rename ρ.name := by
    induction a.created generalizing m with
    | nil => rfl
    | cons slot rest ih =>
      rw [List.map_cons, List.foldl_cons, List.foldl_cons, Memory.addSlot_rename, ih]
  have hpresent : ρ.name resultPresent = resultPresent := ρ.name_eq (by decide) (by decide)
  have hset := Memory.setCell_rename (ρ := ρ) (a.created.foldl Memory.addSlot m) resultPresent (.byte 1)
  rw [hpresent] at hset
  rw [prepared, prepared, ← hset, ← hslots]
  rfl

theorem loadConstants_rename (globals : List Global) (m : Memory) (constants : Table Address) :
    loadConstants (m.rename ρ.name) (constants.rename ρ.name (Address.rename ρ.name))
        (globals.map (Global.rename ρ.name)) =
      ((loadConstants m constants globals).1.rename ρ.name,
        (loadConstants m constants globals).2.rename ρ.name (Address.rename ρ.name)) := by
  induction globals generalizing m constants with
  | nil => rfl
  | cons g rest ih =>
    cases g with
    | text name contents =>
      simp only [List.map_cons, Global.rename, loadConstants]
      rw [← ih, ← Table.insert_rename (Address.rename ρ.name) ρ.injective]
      rfl
    | _ => exact ih m constants

theorem loaded_rename (a : Artifact) (m : Memory) :
    loaded (a.rename ρ) (m.rename ρ.name) =
      ((loaded a m).1.rename ρ.name, (loaded a m).2.rename ρ.name (Address.rename ρ.name)) := by
  rw [loaded, prepared_rename]
  exact loadConstants_rename a.module.globals (prepared a m) {}

theorem imageOf_rename (a : Artifact) (m : Memory) :
    imageOf (a.rename ρ) (m.rename ρ.name) = (imageOf a m).rename ρ.name := by
  rw [imageOf, imageOf, loaded_rename]
  simp only [Image.rename, functionsOf, Artifact.rename, Module.rename, Image.mk.injEq, and_true,
    List.filterMap_map, List.map_filterMap]
  congr 1
  funext g
  cases g <;> rfl

theorem freeConstants_rename (m : Memory) (constants : Table Address) :
    freeConstants (m.rename ρ.name) (constants.rename ρ.name (Address.rename ρ.name)) =
      (freeConstants m constants).rename ρ.name := by
  obtain ⟨entries⟩ := constants
  simp only [freeConstants, Table.rename]
  induction entries generalizing m with
  | nil => rfl
  | cons entry rest ih =>
    obtain ⟨name, address⟩ := entry
    rw [List.map_cons, List.foldl_cons, List.foldl_cons, ← ih]
    cases address <;> rfl

theorem echoes_result (kind : Kind) (word : Option Word) :
    Echoes ρ id (result kind word) (result kind (renameResult ρ word)) := by
  refine echoes_get fun s => ?_
  have hpresent : (s.rename ρ.name).memory.cells.get? resultPresent =
      (s.memory.cells.get? resultPresent).map (Word.rename ρ.name) := by
    have h := Table.get?_rename (Word.rename ρ.name) ρ.injective s.memory.cells resultPresent
    rwa [ρ.name_eq (by decide) (by decide)] at h
  have hdecode (w : Word) : decode? (s.rename ρ.name).memory kind (w.rename ρ.name) =
      (decode? s.memory kind w).map id := by
    rw [Option.map_id_apply]
    exact decode?_rename ρ.name s.memory kind w
  dsimp only
  rw [hpresent]
  generalize s.memory.cells.get? resultPresent = present
  have hbyte : present.map (Word.rename ρ.name) = some (.byte 0) ↔ present = some (.byte 0) := by
    rcases present with - | w
    · simp
    · cases w <;> simp [Word.rename]
  generalize present.map (Word.rename ρ.name) = present' at hbyte
  -- both sides take the same case, since the byte is zero on both or on neither
  cases word with
  | none => split <;> split <;> first | exact echoes_pure rfl | exact echoes_trap _ | simp_all
  | some w =>
    have hvalue := echoes_ofOption (ρ := ρ) .memory (hdecode w)
    split <;> split <;> first | exact echoes_pure rfl | exact hvalue | simp_all

theorem echoes_closing (a : Artifact) (m : Memory) (word : Option Word) :
    Echoes ρ id (closing a m word)
      (closing (a.rename ρ) (m.rename ρ.name) (renameResult ρ word)) := by
  refine (echoes_result a.kind word).bind fun v => ?_
  refine Echoes.bind (f := id) (echoes_modify fun s => ?_) fun _ => echoes_pure rfl
  rw [loaded_rename]
  simp only [State.rename, freeConstants_rename]

theorem echoes_runArtifact (fuel : Nat) (a : Artifact) :
    Echoes ρ id (runArtifact fuel a) (runArtifact fuel (a.rename ρ)) := by
  intro s
  have himage : imageOf (a.rename ρ) (s.rename ρ.name).memory =
      (imageOf a s.memory).rename ρ.name := imageOf_rename a s.memory
  have hstarted : started (a.rename ρ) (s.rename ρ.name) = (started a s).rename ρ.name := by
    rw [started, started, show (s.rename ρ.name).memory = s.memory.rename ρ.name from rfl,
      loaded_rename]
    rfl
  have hfound : (imageOf (a.rename ρ) (s.rename ρ.name).memory).function? (a.rename ρ).entry =
      ((imageOf a s.memory).function? a.entry).map (Function.rename ρ.name) := by
    rw [himage]
    exact Image.function?_rename _ _
  cases hf : (imageOf a s.memory).function? a.entry with
  | none =>
    rw [hf] at hfound
    rw [runArtifact_error fuel hf, runArtifact_error fuel hfound, hstarted]
    rfl
  | some f =>
    rw [hf] at hfound
    have hlabel : firstLabel (f.rename ρ.name) = firstLabel f := by
      simp only [firstLabel, Function.rename, List.head?_map, Option.map_map]
      rfl
    rw [runArtifact_run fuel hf, runArtifact_run fuel hfound, hstarted, himage, hlabel]
    exact ((echoes_execute (imageOf a s.memory) {} fuel f (firstLabel f) "").bind
      fun word => echoes_closing a s.memory word) (started a s)

end DualEngine.Machine
