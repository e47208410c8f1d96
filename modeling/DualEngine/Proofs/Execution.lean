import DualEngine.Proofs.Computation
import DualEngine.Proofs.Words

/-! # Runs of generated code

The fuel of `execute` only bounds how long a run takes, so what code does is said for all fuel from
some bound on. Straight-line code takes a snapshot to a snapshot; a point of a function leads to
another one if a run from here gets there.
-/
namespace DualEngine.Machine
open IR

variable {block : Block} {frame : Frame} {rest : List Instruction} {op : Operation}
  {label previous : String}

/-- Calls with so much fuel. -/
def invokeWith (image : Image) (fuel : Nat) : Invoke := fun callee args =>
  match image.function? callee.name with
  | some g =>
    match g.blocks with
    | [] => trap .malformed
    | first :: _ =>
      execute image fuel g first.label "" { registers := Table.ofList (g.params.zip args) }
  | none => callLibrary callee.name args

/-- What follows the instructions of a block. -/
def leave (image : Image) (fuel : Nat) (f : Function) (label : String) (exit : Option Terminator)
    (frame : Frame) : Run (Option Word) :=
  match exit with
  | some (.jump target) => execute image fuel f target label frame
  | some (.branch condition yes no) => do
    match ← operand image frame condition with
    | .bit holds => execute image fuel f (if holds then yes else no) label frame
    | _ => trap .malformed
  | some (.ret value) => some <$> operand image frame value
  | some .retVoid => pure none
  | none => trap .malformed

/-- The first block with a label. -/
def blockAt (blocks : List Block) (label : String) : Option Block :=
  blocks.find? fun b => b.label == label

theorem execute_succ (image : Image) (fuel : Nat) (f : Function) (label previous : String)
    (frame : Frame) {b : Block} (hb : blockAt f.blocks label = some b) :
    execute image (fuel + 1) f label previous frame =
      (do
        let frame ← runBody image (invokeWith image fuel) previous b.body frame
        leave image fuel f label b.terminator frame) := by
  rw [execute]
  unfold blockAt at hb
  rw [hb]
  rfl

theorem execute_none (image : Image) (fuel : Nat) (f : Function) (label previous : String)
    (frame : Frame) (hb : blockAt f.blocks label = none) :
    execute image (fuel + 1) f label previous frame = trap .malformed := by
  rw [execute]
  unfold blockAt at hb
  rw [hb]

/-- The registers and cells of a call, and the machine around it. -/
structure Snap where
  frame : Frame
  state : State

namespace Snap

abbrev memory (a : Snap) : Memory := a.state.memory

/-- The snapshot with a register set. -/
def set (a : Snap) (x : String) (w : Word) : Snap :=
  { a with frame := { a.frame with registers := a.frame.registers.insert x w } }

/-- The snapshot with a stack cell set. -/
def setStack (a : Snap) (x : String) (w : Word) : Snap :=
  { a with frame := { a.frame with stack := a.frame.stack.insert x w } }

theorem register_set (a : Snap) (x y : String) (w : Word) :
    (a.set x w).frame.registers.get? y = if x = y then some w else a.frame.registers.get? y :=
  Table.get?_insert _ _ _ _

end Snap

/-- The operand evaluates to the word. -/
def Gives (image : Image) (frame : Frame) (o : Operand) (w : Word) : Prop :=
  ∀ s, operand image frame o s = .ok w s

variable {image : Image} {a b c : Snap}

theorem gives_register {x : String} {type : Ty} {w : Word} (h : frame.registers.get? x = some w) :
    Gives image frame (.register x type) w := by
  intro s
  simp only [operand, h, ofOption, pure_run]

theorem gives_set (a : Snap) (x : String) (type : Ty) (w : Word) :
    Gives image (a.set x w).frame (.register x type) w :=
  gives_register (by simp [Snap.register_set])

theorem gives_double (x : Float) : Gives image frame (.double x) (.double x) :=
  fun _ => rfl

theorem gives_int32 (n : Int) : Gives image frame (.int n .i32) (.int (Int32.ofInt n)) :=
  fun _ => rfl

theorem gives_int64 (n : Int) : Gives image frame (.int n .i64) (.long (Int64.ofInt n)) :=
  fun _ => rfl

theorem gives_bit (n : Int) : Gives image frame (.int n .i1) (.bit (n != 0)) := fun _ => rfl

theorem gives_byte (n : Int) : Gives image frame (.int n .i8) (.byte (UInt8.ofNat n.toNat)) :=
  fun _ => rfl

theorem gives_null (type : Ty) : Gives image frame (.null type) (.address .null) := fun _ => rfl

theorem gives_global (name : String) (type : Ty) :
    Gives image frame (.global name type) (.address (image.address name)) :=
  fun _ => rfl

/-! ## Straight-line code -/

/-- The code takes one snapshot to the other, wherever control came from. -/
def Runs (image : Image) (code : List Instruction) (a b : Snap) : Prop :=
  ∃ n, ∀ fuel, n ≤ fuel → ∀ previous,
    runBody image (invokeWith image fuel) previous code a.frame a.state = .ok b.frame b.state

theorem Runs.nil (a : Snap) : Runs image [] a a := ⟨0, fun _ _ _ => rfl⟩

theorem runBody_append (invoke : Invoke) (previous : String) (code more : List Instruction)
    (frame : Frame) :
    runBody image invoke previous (code ++ more) frame =
      (do
        let frame ← runBody image invoke previous code frame
        runBody image invoke previous more frame) := by
  induction code generalizing frame with
  | nil => simp [runBody]
  | cons i code ih => simp only [List.cons_append, runBody, ih, bind_assoc]

theorem Runs.append {code more : List Instruction} (h : Runs image code a b)
    (h' : Runs image more b c) : Runs image (code ++ more) a c := by
  obtain ⟨n, hn⟩ := h
  obtain ⟨m, hm⟩ := h'
  refine ⟨max n m, fun fuel hfuel previous => ?_⟩
  rw [runBody_append, bind_ok (hn fuel (by omega) previous)]
  exact hm fuel (by omega) previous

/-- An instruction with a result. -/
theorem runs_result {x : String} {w : Word}
    (h : ∃ n, ∀ fuel, n ≤ fuel → ∀ previous,
      operate image (invokeWith image fuel) previous x a.frame op a.state =
        .ok (some w, b.frame) b.state) : Runs image [⟨x, op⟩] a (b.set x w) := by
  obtain ⟨n, hn⟩ := h
  refine ⟨n, fun fuel hfuel previous => ?_⟩
  rw [runBody, bind_ok (hn fuel hfuel previous)]
  rfl

/-- An instruction without a result. -/
theorem runs_effect {x : String}
    (h : ∃ n, ∀ fuel, n ≤ fuel → ∀ previous,
      operate image (invokeWith image fuel) previous x a.frame op a.state =
        .ok (none, b.frame) b.state) : Runs image [⟨x, op⟩] a b := by
  obtain ⟨n, hn⟩ := h
  refine ⟨n, fun fuel hfuel previous => ?_⟩
  rw [runBody, bind_ok (hn fuel hfuel previous)]
  rfl

section Instructions
attribute [local simp] operate

variable {x : String} {l r o : Operand} {wl wr w : Word}

theorem runs_binary {op : BinaryOp} (hl : Gives image a.frame l wl) (hr : Gives image a.frame r wr)
    (h : binary op wl wr a.state = .ok w a.state) :
    Runs image [⟨x, .binary op l r⟩] a (a.set x w) := by
  refine runs_result ⟨0, fun fuel _ previous => ?_⟩
  rw [operate, bind_ok (hl _), bind_ok (hr _), bind_ok h]
  rfl

theorem runs_icmp {test : IntTest} (hl : Gives image a.frame l wl) (hr : Gives image a.frame r wr)
    (h : icmp test wl wr a.state = .ok w a.state) :
    Runs image [⟨x, .icmp test l r⟩] a (a.set x w) := by
  refine runs_result ⟨0, fun fuel _ previous => ?_⟩
  rw [operate, bind_ok (hl _), bind_ok (hr _), bind_ok h]
  rfl

theorem runs_fcmp {test : FloatTest} (hl : Gives image a.frame l wl)
    (hr : Gives image a.frame r wr) (h : fcmp test wl wr a.state = .ok w a.state) :
    Runs image [⟨x, .fcmp test l r⟩] a (a.set x w) := by
  refine runs_result ⟨0, fun fuel _ previous => ?_⟩
  rw [operate, bind_ok (hl _), bind_ok (hr _), bind_ok h]
  rfl

theorem runs_convert {how : Conversion} {type : Ty} (ho : Gives image a.frame o wl)
    (h : convert how wl type a.state = .ok w a.state) :
    Runs image [⟨x, .convert how o type⟩] a (a.set x w) := by
  refine runs_result ⟨0, fun fuel _ previous => ?_⟩
  rw [operate, bind_ok (ho _), bind_ok h]
  rfl

theorem runs_select {yes no : Operand} {bit : Bool} (ho : Gives image a.frame o (.bit bit))
    (hl : Gives image a.frame yes wl) (hr : Gives image a.frame no wr) :
    Runs image [⟨x, .select o yes no⟩] a (a.set x (if bit then wl else wr)) := by
  refine runs_result ⟨0, fun fuel _ previous => ?_⟩
  rw [operate, bind_ok (ho _)]
  simp only [bind_ok (hl _), bind_ok (hr _)]
  rfl

theorem runs_alloca {type : Ty} :
    Runs image [⟨x, .alloca type⟩] a (a.set x (.address (.stack x))) :=
  runs_result ⟨0, fun _ _ _ => rfl⟩

theorem runs_element {buffer i : Nat} {n : Int32} (hl : Gives image a.frame l
      (.address (.heap buffer i))) (hr : Gives image a.frame r (.int n)) (hn : ¬ n < 0) :
    Runs image [⟨x, .element l r⟩] a (a.set x (.address (.heap buffer (i + n.toInt.toNat)))) := by
  refine runs_result ⟨0, fun fuel _ previous => ?_⟩
  rw [operate, bind_ok (hl _), bind_ok (hr _)]
  simp only [if_neg hn]
  rfl

theorem runs_load (ho : Gives image a.frame o wl) (h : load a.frame wl a.state = .ok w a.state) :
    Runs image [⟨x, .load o⟩] a (a.set x w) := by
  refine runs_result ⟨0, fun fuel _ previous => ?_⟩
  rw [operate, bind_ok (ho _), bind_ok h]
  rfl

theorem runs_store (ho : Gives image a.frame o wl) (hl : Gives image a.frame l wr)
    (h : store a.frame wl wr a.state = .ok b.frame b.state) :
    Runs image [⟨x, .store o l⟩] a b := by
  refine runs_effect ⟨0, fun fuel _ previous => ?_⟩
  rw [operate, bind_ok (ho _), bind_ok (hl _), bind_ok h]
  rfl

theorem runs_store_stack {y : String} (ho : Gives image a.frame o w)
    (hl : Gives image a.frame l (.address (.stack y))) :
    Runs image [⟨x, .store o l⟩] a (a.setStack y w) := runs_store ho hl rfl

theorem runs_load_stack {y : String} (hl : Gives image a.frame l (.address (.stack y)))
    (hw : a.frame.stack.get? y = some w) : Runs image [⟨x, .load l⟩] a (a.set x w) := by
  refine runs_load hl ?_
  simp only [load, hw]
  rfl

/-- The operands evaluate to the words. -/
def GivesAll (image : Image) (frame : Frame) : List Operand → List Word → Prop :=
  List.Forall₂ (Gives image frame)

theorem operands_of_givesAll {frame : Frame} {os : List Operand} {ws : List Word}
    (h : GivesAll image frame os ws) (s : State) : operands image frame os s = .ok ws s := by
  induction h with
  | nil => rfl
  | cons ho _ ih =>
    rw [operands, bind_ok (ho s), bind_ok ih]
    rfl

/-- A call of a library function with a result. -/
theorem runs_library {callee : Signature} {args : List Operand} {ws : List Word}
    (hf : image.function? callee.name = none) (hargs : GivesAll image a.frame args ws)
    (h : callLibrary callee.name ws a.state = .ok (some w) b.state) (hb : b.frame = a.frame) :
    Runs image [⟨x, .call callee args⟩] a (b.set x w) := by
  refine runs_result ⟨0, fun fuel _ previous => ?_⟩
  have hcall : invokeWith image fuel callee ws a.state = .ok (some w) b.state := by
    rw [invokeWith, hf]
    exact h
  rw [operate, bind_ok (operands_of_givesAll hargs _), bind_ok hcall, hb]
  rfl

end Instructions

/-! ## Points of a function -/

/-- Where a call of a function is: in the block `label`, entered from `previous`, with the rest of
the block's instructions and its end still to come. -/
structure Point where
  previous : String
  label : String
  rest : List Instruction
  exit : Option Terminator
  snap : Snap

/-- What the call gives from a point on. -/
def Point.resume (image : Image) (f : Function) (fuel : Nat) (p : Point) :
    EStateM.Result Halt State (Option Word) :=
  (do
    let frame ← runBody image (invokeWith image fuel) p.previous p.rest p.snap.frame
    leave image fuel f p.label p.exit frame) p.snap.state

/-- From the point on the call ends in `r`, given enough fuel. -/
def Ends (image : Image) (f : Function) (p : Point) (r : EStateM.Result Halt State (Option Word)) :
    Prop :=
  ∃ n, ∀ fuel, n ≤ fuel → p.resume image f fuel = r

/-- The call gets from one point to the other: with some more fuel it gives from the first what it
gives from the second. -/
def Leads (image : Image) (f : Function) (p q : Point) : Prop :=
  ∃ n k, ∀ fuel, n ≤ fuel → p.resume image f (fuel + k) = q.resume image f fuel

variable {f : Function} {p q : Point}

theorem Leads.refl (p : Point) : Leads image f p p := ⟨0, 0, fun _ _ => rfl⟩

theorem Leads.trans {p q r : Point} (h : Leads image f p q) (h' : Leads image f q r) :
    Leads image f p r := by
  obtain ⟨n, k, hn⟩ := h
  obtain ⟨m, l, hm⟩ := h'
  refine ⟨max n m, l + k, fun fuel hfuel => ?_⟩
  rw [← Nat.add_assoc, hn (fuel + l) (by omega), hm fuel (by omega)]

/-- Where the call ends from the second point on, it ends from the first. -/
theorem Leads.ends {r : EStateM.Result Halt State (Option Word)} (h : Leads image f p q)
    (he : Ends image f q r) : Ends image f p r := by
  obtain ⟨n, k, hn⟩ := h
  obtain ⟨m, hm⟩ := he
  refine ⟨max n m + k, fun fuel hfuel => ?_⟩
  obtain ⟨rest, rfl⟩ : ∃ rest, fuel = rest + k := ⟨fuel - k, by omega⟩
  rw [hn rest (by omega), hm rest (by omega)]

theorem leads_of_runs {code : List Instruction} (h : Runs image code a b)
    (previous label : String) (exit : Option Terminator) :
    Leads image f ⟨previous, label, code ++ rest, exit, a⟩ ⟨previous, label, rest, exit, b⟩ := by
  obtain ⟨n, hn⟩ := h
  refine ⟨n, 0, fun fuel hfuel => ?_⟩
  unfold Point.resume
  simp only [Nat.add_zero, runBody_append, bind_assoc]
  rw [bind_ok (hn fuel hfuel previous)]

/-- A join of values at the start of a block takes the one for where control came from. -/
theorem leads_phi {x : String} {type : Ty} {incoming : List (Operand × String)}
    {entry : Operand × String} {w : Word} {exit : Option Terminator}
    (hentry : (incoming.find? fun i => i.2 == previous) = some entry)
    (h : Gives image a.frame entry.1 w) :
    Leads image f ⟨previous, label, ⟨x, .phi type incoming⟩ :: rest, exit, a⟩
      ⟨previous, label, rest, exit, a.set x w⟩ := by
  refine ⟨0, 0, fun fuel _ => ?_⟩
  unfold Point.resume
  simp only [runBody, operate, hentry, bind_assoc]
  rw [bind_ok (h _)]
  rfl

/-- The point at the start of a block. -/
def startOf (b : Block) (previous label : String) (a : Snap) : Point :=
  ⟨previous, label, b.body, b.terminator, a⟩

theorem execute_startOf (hb : blockAt f.blocks label = some block) (fuel : Nat) (a : Snap) :
    execute image (fuel + 1) f label previous a.frame a.state =
      (startOf block previous label a).resume image f fuel := by
  rw [execute_succ image fuel f label previous a.frame hb]
  rfl

theorem leads_jump {target : String} (hb : blockAt f.blocks target = some block) :
    Leads image f ⟨previous, label, [], some (.jump target), a⟩ (startOf block label target a) := by
  refine ⟨0, 1, fun fuel _ => ?_⟩
  rw [← execute_startOf hb]
  rfl

theorem leads_branch {yes no : String} {o : Operand} {holds : Bool}
    (ho : Gives image a.frame o (.bit holds))
    (hb : blockAt f.blocks (if holds then yes else no) = some block) :
    Leads image f ⟨previous, label, [], some (.branch o yes no), a⟩
      (startOf block label (if holds then yes else no) a) := by
  refine ⟨0, 1, fun fuel _ => ?_⟩
  rw [← execute_startOf hb]
  unfold Point.resume
  simp only [runBody, leave, pure_bind]
  rw [bind_ok (ho _)]

theorem ends_ret {o : Operand} {w : Word} (ho : Gives image a.frame o w) :
    Ends image f ⟨previous, label, [], some (.ret o), a⟩ (.ok (some w) a.state) := by
  refine ⟨0, fun fuel _ => ?_⟩
  unfold Point.resume
  simp only [runBody, leave, pure_bind]
  exact map_eq_ok.mpr ⟨w, ho _, rfl⟩

theorem ends_retVoid : Ends image f ⟨previous, label, [], some .retVoid, a⟩ (.ok none a.state) :=
  ⟨0, fun _ _ => rfl⟩

end DualEngine.Machine
