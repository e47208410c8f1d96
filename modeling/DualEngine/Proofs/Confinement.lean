import DualEngine.Proofs.Stores

/-! # What confined code leaves alone

A run of confined code writes to cells that it may write to and to buffers that it has made, also if
it does not come to an end. All other cells and all buffers from before the run stay. Addresses in
cells are always those of buffers that are there, so what a cell stood for before the run it stands
for afterwards.
-/
namespace DualEngine.Machine
open IR Lowering

variable {a : Artifact} {invoke : Invoke} {args : List Word} {op : Operation}
  {s : State} {callee name : String} {w : Word}

/-! ## Memory around a run -/

/-- The word is no address of a buffer beyond the first `n`. -/
def Word.Within (n : Nat) (w : Word) : Prop := ∀ buffer index, w = .address (.heap buffer index) → buffer < n

/-- The address of a stack cell, or of a buffer beyond the first `n`. -/
def Word.Fresh (n : Nat) : Word → Prop
  | .address (.stack _) => True
  | .address (.heap buffer _) => n ≤ buffer
  | _ => False

theorem Word.Within.mono {n n' : Nat} (h : w.Within n) (hle : n ≤ n') : w.Within n' :=
  fun buffer index hw => (h buffer index hw).trans_le hle

/-- Every address in a cell is one of a buffer that is there, and the empty text and the empty array
are. -/
structure Memory.Closed (m : Memory) : Prop where
  founded : 2 ≤ m.heap.size
  cells : ∀ name w, m.cells.get? name = some w → w.Within m.heap.size

/-- Since the run began with the memory `m`, only the cells and new buffers were written. -/
structure Kept (m : Memory) (cells : Set String) (m' : Memory) : Prop where
  heap : m.Extends m'
  spared : ∀ name, name ∉ cells → m'.cells.get? name = m.cells.get? name
  closed : m'.Closed

/-- The words of a call are within the first `n` buffers, and its own registers hold addresses beyond
the first `base`. -/
structure Frame.Apart (own : Set String) (base n : Nat) (frame : Frame) : Prop where
  registers : ∀ x w, frame.registers.get? x = some w → w.Within n
  stack : ∀ x w, frame.stack.get? x = some w → w.Within n
  fresh : ∀ x ∈ own, ∀ w, frame.registers.get? x = some w → w.Fresh base

/-- The image of confined code: its constants are in buffers beyond the first `base`, and nothing in
it stands in for the allocation of buffers. -/
structure Image.Apart (cells : Set String) (base n : Nat) (image : Image) : Prop where
  functions : ∀ f ∈ image.functions, f.Confined cells
  malloc : image.function? malloc.name = none
  constants : ∀ name a, image.constants.get? name = some a →
    ∃ buffer index, a = .heap buffer index ∧ base ≤ buffer ∧ buffer < n

/-- From the state on the computation keeps what is spared, whether it comes to an end or not; `Q`
tells of its result, with the number of buffers afterwards. -/
def AbidesFrom (m : Memory) (cells : Set String) (s : State) {α : Type} (r : Run α)
    (Q : α → Nat → Prop) : Prop :=
  Kept m cells (final (r s)).memory ∧ s.memory.heap.size ≤ (final (r s)).memory.heap.size ∧
    ∀ a s', r s = .ok a s' → Q a s'.memory.heap.size

/-- The same from every state with at least `n` buffers. -/
def Abides (m : Memory) (cells : Set String) (n : Nat) {α : Type} (r : Run α) (Q : α → Nat → Prop) :
    Prop :=
  ∀ s : State, Kept m cells s.memory → n ≤ s.memory.heap.size → AbidesFrom m cells s r Q

variable {m m' : Memory} {cells own : Set String} {n n' base : Nat} {α β : Type} {image : Image}
  {frame : Frame} {r : Run α} {Q : α → Nat → Prop}

theorem abides_pure {a : α} (h : ∀ n', n ≤ n' → Q a n') : Abides m cells n (pure a) Q := by
  refine fun s hs hle => ⟨hs, le_rfl, ?_⟩
  rintro _ _ ⟨⟩
  exact h _ hle

theorem abides_trap (cause : Trap) : Abides m cells n (trap cause : Run α) Q := by
  refine fun s hs _ => ⟨hs, le_rfl, ?_⟩
  rintro _ _ ⟨⟩

theorem Abides.bind {f : α → Run β} {R : β → Nat → Prop} (hr : Abides m cells n r Q)
    (hf : ∀ a n', n ≤ n' → Q a n' → Abides m cells n' (f a) R) : Abides m cells n (r >>= f) R := by
  intro s hs hle
  obtain ⟨hs1, hle1, hok⟩ := hr s hs hle
  cases hrun : r s with
  | error halt s1 =>
    rw [hrun] at hs1 hle1
    rw [AbidesFrom, bind_error hrun]
    refine ⟨hs1, hle1, ?_⟩
    rintro _ _ ⟨⟩
  | ok a s1 =>
    rw [hrun] at hs1 hle1
    rw [AbidesFrom, bind_ok hrun]
    obtain ⟨hs2, hle2, hok2⟩ := hf a _ (hle.trans hle1) (hok a s1 hrun) s1 hs1 le_rfl
    exact ⟨hs2, hle1.trans hle2, hok2⟩

theorem Abides.imp {R : α → Nat → Prop} (h : Abides m cells n r Q) (hq : ∀ a n', Q a n' → R a n') :
    Abides m cells n r R :=
  fun s hs hle => ⟨(h s hs hle).1, (h s hs hle).2.1, fun a s' hrun => hq _ _ ((h s hs hle).2.2 a s' hrun)⟩

theorem abides_ofOption {x : Option α} (cause : Trap)
    (h : ∀ a, x = some a → ∀ n', n ≤ n' → Q a n') : Abides m cells n (ofOption cause x) Q := by
  cases x with
  | none => exact abides_trap cause
  | some a => exact abides_pure (h a rfl)

/-- What is read of the state may decide what follows. -/
theorem abides_get {f : State → Run α}
    (hf : ∀ s : State, Kept m cells s.memory → n ≤ s.memory.heap.size →
      AbidesFrom m cells s (f s) Q) : Abides m cells n (get >>= f) Q := hf

theorem Abides.from (h : Abides m cells s.memory.heap.size r Q) (hs : Kept m cells s.memory) :
    AbidesFrom m cells s r Q :=
  h s hs le_rfl

/-- The state is replaced by one whose memory keeps what is spared. -/
theorem abidesFrom_set {t : State} {f : PUnit → Run α} (ht : Kept m cells t.memory)
    (hle : s.memory.heap.size ≤ t.memory.heap.size)
    (hf : Abides m cells t.memory.heap.size (f ⟨⟩) Q) : AbidesFrom m cells s (set t >>= f) Q := by
  obtain ⟨hkept, hsize, hok⟩ := hf.from ht
  exact ⟨hkept, hle.trans hsize, hok⟩

/-! ## Words -/

theorem within_of_no_address (h : ∀ a, w ≠ .address a) : w.Within n :=
  fun _ _ hw => absurd hw (h _)

theorem abides_constant (k : Int) (type : Ty) :
    Abides m cells n (constant k type) fun w n' => w.Within n' := by
  unfold constant
  split
  all_goals first
    | exact abides_pure fun _ _ => within_of_no_address (by simp)
    | exact abides_trap _

theorem within_address (hi : image.Apart cells base n) (hn : 2 ≤ n) (name : String) :
    (Word.address (image.address name)).Within n := by
  intro buffer index hw
  simp only [Word.address.injEq] at hw
  unfold Image.address at hw
  cases hc : image.constants.get? name with
  | some a =>
    rw [hc] at hw
    obtain ⟨k, i, rfl, -, hk⟩ := hi.constants name a hc
    cases hw
    exact hk
  | none =>
    rw [hc] at hw
    dsimp only at hw
    split at hw
    · cases hw
      exact Nat.lt_of_lt_of_le Nat.zero_lt_two hn
    · split at hw
      · cases hw
        exact hn
      · cases hw

theorem Image.Apart.mono (h : image.Apart cells base n) (hle : n ≤ n') :
    image.Apart cells base n' := by
  refine ⟨h.functions, h.malloc, fun name a ha => ?_⟩
  obtain ⟨buffer, index, hbuffer, hbase, hlt⟩ := h.constants name a ha
  exact ⟨buffer, index, hbuffer, hbase, hlt.trans_le hle⟩

theorem Frame.Apart.mono (h : frame.Apart own base n) (hle : n ≤ n') : frame.Apart own base n' :=
  ⟨fun x w hw => (h.registers x w hw).mono hle, fun x w hw => (h.stack x w hw).mono hle, h.fresh⟩

/-- An operand is within the buffers that are there; an own register holds an address that was made. -/
theorem abides_operand (hi : image.Apart cells base n) (hn : 2 ≤ n) (hf : frame.Apart own base n)
    (o : Operand) :
    Abides m cells n (operand image frame o) fun w n' =>
      w.Within n' ∧ (o.Owned own → w.Fresh base) := by
  cases o with
  | register x type =>
    refine abides_ofOption _ fun w hw n' hle => ?_
    exact ⟨(hf.registers x w hw).mono hle, fun hx => hf.fresh x hx w hw⟩
  | global name type =>
    exact abides_pure fun n' hle => ⟨(within_address hi hn name).mono hle, fun h => h.elim⟩
  | int k type => exact (abides_constant k type).imp fun _ _ hw => ⟨hw, fun h => h.elim⟩
  | double x =>
    exact abides_pure fun _ _ => ⟨within_of_no_address (by simp), fun h => h.elim⟩
  | null type =>
    refine abides_pure fun _ _ => ⟨fun buffer index hw => ?_, fun h => h.elim⟩
    cases hw

/-- The word is an address that confined code may write to. -/
def Writable (cells : Set String) (base : Nat) (w : Word) : Prop :=
  (∃ name ∈ cells, w = .address (.cell name)) ∨ w.Fresh base

/-- The machine gives a meaning of its own to none of the cells. -/
def Ordinary (cells : Set String) : Prop := emptyText ∉ cells ∧ emptyArray ∉ cells

/-- An operand that aims at a cell or at what was made is the address of such a thing. -/
theorem abides_aim (hi : image.Apart cells base n) (hn : 2 ≤ n) (hf : frame.Apart own base n)
    (hcells : Ordinary cells) {o : Operand} (ho : o.Aims cells own) :
    Abides m cells n (operand image frame o) fun w _ => Writable cells base w := by
  cases o with
  | register x type =>
    exact (abides_operand hi hn hf (.register x type)).imp fun _ _ hw => .inr (hw.2 ho)
  | global name type =>
    refine abides_pure fun _ _ => ?_
    have htext : name ≠ emptyText := fun h => hcells.1 (h ▸ ho)
    have harray : name ≠ emptyArray := fun h => hcells.2 (h ▸ ho)
    unfold Image.address
    cases hc : image.constants.get? name with
    | some a =>
      obtain ⟨buffer, index, rfl, hbase, -⟩ := hi.constants name a hc
      exact .inr hbase
    | none =>
      refine .inl ⟨name, ho, ?_⟩
      simp only [if_neg htext, if_neg harray]
  | int k type => exact ho.elim
  | double x => exact ho.elim
  | null type => exact ho.elim

theorem abides_binary (op : BinaryOp) (a b : Word) :
    Abides m cells n (binary op a b) fun w n' => w.Within n' := by
  unfold binary
  split
  all_goals first
    | exact abides_pure fun _ _ => within_of_no_address (by simp)
    | exact abides_trap _
    | split
      · exact abides_trap _
      · exact abides_pure fun _ _ => within_of_no_address (by simp)

theorem abides_icmp (test : IntTest) (a b : Word) :
    Abides m cells n (icmp test a b) fun w n' => w.Within n' := by
  unfold icmp
  split
  all_goals first
    | exact abides_pure fun _ _ => within_of_no_address (by simp)
    | exact abides_trap _

theorem abides_fcmp (test : FloatTest) (a b : Word) :
    Abides m cells n (fcmp test a b) fun w n' => w.Within n' := by
  unfold fcmp
  split
  all_goals first
    | exact abides_pure fun _ _ => within_of_no_address (by simp)
    | exact abides_trap _

/-- Conversion keeps addresses as they are. -/
theorem abides_convert (how : Conversion) (hw : w.Within n) (type : Ty) :
    Abides m cells n (convert how w type) fun w' n' =>
      w'.Within n' ∧ (how = .bitcast → w' = w) := by
  unfold convert
  split
  all_goals first
    | exact abides_trap _
    | exact abides_pure fun _ hle => ⟨hw.mono hle, fun _ => rfl⟩
    | exact abides_pure fun _ _ => ⟨within_of_no_address (by simp), fun h => by cases h⟩

theorem abides_load (hf : frame.Apart own base n) (w : Word) :
    Abides m cells n (load frame w) fun w' n' => w'.Within n' := by
  unfold load
  split
  · refine abides_get fun s hs hle => Abides.from (abides_ofOption _ fun w hw n' hle' => ?_) hs
    exact (hs.closed.cells _ w hw).mono hle'
  · exact abides_ofOption _ fun w hw n' hle => (hf.stack _ w hw).mono hle
  · refine abides_get fun s hs hle => Abides.from ?_ hs
    refine (abides_ofOption (Q := fun _ _ => True) _ fun _ _ _ _ => trivial).bind fun k _ _ _ => ?_
    exact abides_pure fun _ _ => within_of_no_address (by simp)
  · exact abides_trap _

/-! ## Writing -/

theorem Kept.setCell (h : Kept m cells m') (hn : name ∈ cells) (hw : w.Within m'.heap.size) :
    Kept m cells (m'.setCell name w) := by
  refine ⟨h.heap, fun other hother => ?_, h.closed.founded, fun other w' hw' => ?_⟩
  · have hne : name ≠ other := fun heq => hother (heq ▸ hn)
    exact ((Table.get?_insert _ _ _ _).trans (if_neg hne)).trans (h.spared other hother)
  · have hcases := (Table.get?_insert _ _ _ _).symm.trans hw'
    split at hcases
    · cases hcases
      exact hw
    · exact h.closed.cells other w' hcases

theorem size_setContents (m : Memory) (buffer : Nat) (contents : Contents) :
    (m.setContents buffer contents).heap.size = m.heap.size := by
  simp only [Memory.setContents, Array.size_modify]

/-- A buffer that is new since the run began gets other contents. -/
theorem Kept.setContents (h : Kept m cells m') {buffer : Nat} (hb : m.heap.size ≤ buffer)
    (contents : Contents) : Kept m cells (m'.setContents buffer contents) := by
  have hsize := size_setContents m' buffer contents
  refine ⟨fun k b hk => ?_, h.spared, ?_, ?_⟩
  · have hlt : k < m.heap.size := (Array.getElem?_eq_some_iff.mp hk).1
    have hne : buffer ≠ k := by omega
    rw [heap_setContents, if_neg hne]
    exact h.heap k b hk
  · rw [hsize]
    exact h.closed.founded
  · rw [hsize]
    exact h.closed.cells

theorem Kept.allocate (h : Kept m cells m') (size : Nat) (contents : Contents) :
    Kept m cells (m'.allocate size contents).2 ∧
      (m'.allocate size contents).2.heap.size = m'.heap.size + 1 := by
  have hsize : (m'.allocate size contents).2.heap.size = m'.heap.size + 1 := Array.size_push _
  refine ⟨⟨?_, h.spared, ?_, fun name w hw => ?_⟩, hsize⟩
  · exact h.heap.trans (Memory.extends_push rfl)
  · have := h.closed.founded
    omega
  · rw [hsize]
    exact (h.closed.cells name w hw).mono (Nat.le_succ _)

theorem Kept.size_le (h : Kept m cells m') : m.heap.size ≤ m'.heap.size := h.heap.size_le


theorem writeInt?_eq_some {buffer index : Nat} {k : Int32}
    (h : m.writeInt? buffer index k = some m') :
    ∃ contents, m' = m.setContents buffer contents := by
  unfold Memory.writeInt? at h
  cases hb : m.heap[buffer]? with
  | none =>
    rw [hb] at h
    cases h
  | some b =>
    rw [hb] at h
    dsimp only at h
    split_ifs at h
    cases h
    exact ⟨_, rfl⟩

theorem writeText?_eq_some {a : Address} {t : String} (h : m.writeText? a t = some m') :
    ∃ buffer contents, a = .heap buffer 0 ∧ m' = m.setContents buffer contents := by
  unfold Memory.writeText? at h
  split at h
  · rename_i buffer
    cases hb : m.heap[buffer]? with
    | none =>
      rw [hb] at h
      cases h
    | some b =>
      rw [hb] at h
      dsimp only at h
      split_ifs at h
      cases h
      exact ⟨buffer, _, rfl, rfl⟩
  · cases h

theorem abides_store (hf : frame.Apart own m.heap.size n) {a : Word} (hw : w.Within n)
    (ha : Writable cells m.heap.size a) :
    Abides m cells n (store frame w a) fun frame' n' => frame'.Apart own m.heap.size n' := by
  rcases ha with ⟨name, hname, rfl⟩ | ha
  · intro s hs hle
    refine ⟨hs.setCell hname (hw.mono hle), le_rfl, ?_⟩
    rintro _ _ ⟨⟩
    exact hf.mono hle
  · cases a with
    | address a =>
      cases a with
      | null => exact ha.elim
      | cell name => exact ha.elim
      | stack name =>
        refine abides_pure fun n' hle => ⟨(hf.mono hle).registers, fun x w' hw' => ?_, hf.fresh⟩
        rw [Table.get?_insert] at hw'
        split at hw'
        · cases hw'
          exact hw.mono hle
        · exact (hf.mono hle).stack x w' hw'
      | heap buffer index =>
        cases w with
        | int k =>
          refine abides_get fun s hs hle => ?_
          cases hwrite : s.memory.writeInt? buffer index k with
          | none => exact (abides_trap _).from hs
          | some m1 =>
            obtain ⟨contents, rfl⟩ := writeInt?_eq_some hwrite
            have hsize := size_setContents s.memory buffer contents
            show AbidesFrom m cells s (set { s with memory := s.memory.setContents buffer contents } >>=
              fun _ => pure frame) _
            refine abidesFrom_set (hs.setContents ha contents) hsize.ge ?_
            exact abides_pure fun n' hle' => hf.mono (hle.trans (hsize.symm.le.trans hle'))
        | _ => exact abides_trap _
    | _ => exact ha.elim

/-! ## The library -/

/-- A computation that only reads. -/
theorem abides_readText (a : Address) : Abides m cells n (readText a) fun _ _ => True :=
  abides_get fun _ hs _ => Abides.from (abides_ofOption _ fun _ _ _ _ => trivial) hs

theorem abides_format (directives : List Char) (args : List Word) :
    Abides m cells n (format directives args) fun _ _ => True := by
  fun_induction format directives args generalizing n with
  | case1 rest k args ih | case2 rest x args ih | case5 c rest args _ _ _ _ ih =>
    exact ih.bind fun _ _ _ _ => abides_pure fun _ _ => trivial
  | case3 rest a args ih =>
    exact (abides_readText a).bind fun _ _ _ _ => ih.bind fun _ _ _ _ => abides_pure fun _ _ => trivial
  | case4 => exact abides_trap _
  | case6 => exact abides_pure fun _ _ => trivial

theorem abides_formatAt (a : Address) (args : List Word) :
    Abides m cells n (formatAt a args) fun _ _ => True :=
  (abides_readText a).bind fun _ _ _ _ => (abides_format _ _).bind fun _ _ _ _ =>
    abides_pure fun _ _ => trivial

/-- A new buffer is one that was not there when the run began. -/
theorem abides_allocate (size : Nat) (contents : Contents) :
    Abides m cells n (allocate size contents) fun w n' => w.Within n' ∧ w.Fresh m.heap.size := by
  intro s hs _
  obtain ⟨hkept, hsize⟩ := hs.allocate size contents
  refine ⟨hkept, hsize.symm ▸ Nat.le_succ _, ?_⟩
  rintro _ _ ⟨⟩
  refine ⟨?_, hs.size_le⟩
  rintro buffer index ⟨⟩
  exact hsize.symm ▸ Nat.lt_succ_self _

/-- What a call gives: words within the buffers that are there, and new ones from allocation. -/
def Gained (base : Nat) (callee : String) (r : Option Word) (n : Nat) : Prop :=
  ∀ w, r = some w → w.Within n ∧ (callee = malloc.name → w.Fresh base)

theorem gained_length (t : String) (h : callee ≠ malloc.name) :
    Gained base callee (some (lengthWord t)) n := by
  rintro w ⟨⟩
  exact ⟨within_of_no_address (by simp [lengthWord]), fun hc => absurd hc h⟩

theorem gained_address (hw : w.Within n ∧ w.Fresh base) (hle : n ≤ n') :
    Gained base callee (some w) n' := by
  rintro _ ⟨⟩
  exact ⟨hw.1.mono hle, fun _ => hw.2⟩

theorem abides_callPrintf (args : List Word) :
    Abides m cells n (callPrintf args) (Gained m.heap.size printf.name) := by
  unfold callPrintf
  split
  · refine (abides_formatAt _ _).bind fun t _ _ _ s hs _ => ⟨hs, le_rfl, ?_⟩
    rintro _ _ ⟨⟩
    exact gained_length t (by decide)
  · exact abides_trap _

/-- Formatting writes to a buffer that was made in the run. -/
theorem abides_callSprintf (h : ∀ w rest, args = w :: rest → w.Fresh m.heap.size) :
    Abides m cells n (callSprintf args) (Gained m.heap.size sprintf.name) := by
  unfold callSprintf
  split
  · rename_i buffer a args
    have hfresh := h (.address buffer) (.address a :: args) rfl
    refine (abides_formatAt _ _).bind fun t _ _ _ => abides_get fun s hs _ => ?_
    cases hwrite : s.memory.writeText? buffer t with
    | none => exact (abides_trap _).from hs
    | some m1 =>
      obtain ⟨b, contents, rfl, rfl⟩ := writeText?_eq_some hwrite
      show AbidesFrom m cells s (set { s with memory := s.memory.setContents b contents } >>=
        fun _ => pure (some (lengthWord t))) _
      refine abidesFrom_set (hs.setContents hfresh contents) (size_setContents _ _ _).ge ?_
      exact abides_pure fun _ _ => gained_length t (by decide)
  · exact abides_trap _

theorem abides_callSnprintf (args : List Word) :
    Abides m cells n (callSnprintf args) (Gained m.heap.size snprintf.name) := by
  unfold callSnprintf
  split
  · split
    · refine (abides_formatAt _ _).bind fun t _ _ _ => abides_pure fun _ _ => ?_
      exact gained_length t (by decide)
    · exact abides_trap _
  · exact abides_trap _

theorem abides_callMalloc (args : List Word) :
    Abides m cells n (callMalloc args) (Gained m.heap.size malloc.name) := by
  unfold callMalloc
  split
  · exact (abides_allocate _ _).bind fun w _ _ hw => abides_pure fun _ hle => gained_address hw hle
  · exact abides_trap _

theorem abides_callStrdup (args : List Word) :
    Abides m cells n (callStrdup args) (Gained m.heap.size strdup.name) := by
  unfold callStrdup
  split
  · refine (abides_readText _).bind fun t _ _ _ => ?_
    exact (abides_allocate _ _).bind fun w _ _ hw => abides_pure fun _ hle => gained_address hw hle
  · exact abides_trap _

theorem abides_callStrcmp (args : List Word) :
    Abides m cells n (callStrcmp args) (Gained m.heap.size strcmp.name) := by
  unfold callStrcmp
  split
  · refine (abides_readText _).bind fun t _ _ _ => (abides_readText _).bind fun u _ _ _ => ?_
    refine abides_pure fun _ _ => ?_
    rintro _ ⟨⟩
    exact ⟨within_of_no_address (by simp [orderWord]), fun h => absurd h (by decide)⟩
  · exact abides_trap _

theorem abides_callRandom (args : List Word) :
    Abides m cells n (callRandom args) (Gained m.heap.size randomInt.name) := by
  unfold callRandom
  split
  · refine abides_get fun s hs _ => abidesFrom_set hs le_rfl (abides_pure fun _ _ => ?_)
    rintro _ ⟨⟩
    exact ⟨within_of_no_address (by simp), fun h => absurd h (by decide)⟩
  · exact abides_trap _

theorem abides_callLibrary
    (h : name = sprintf.name → ∀ w rest, args = w :: rest → w.Fresh m.heap.size) :
    Abides m cells n (callLibrary name args) (Gained m.heap.size name) := by
  unfold callLibrary
  split
  · exact abides_callPrintf args
  · exact abides_callSprintf (h rfl)
  · exact abides_callSnprintf args
  · exact abides_callMalloc args
  · exact abides_callStrdup args
  · exact abides_callStrcmp args
  · exact abides_callRandom args
  · exact abides_trap _

/-! ## Runs -/

theorem abides_operands (hi : image.Apart cells base n) (hn : 2 ≤ n) (hf : frame.Apart own base n)
    (os : List Operand) :
    Abides m cells n (operands image frame os) fun ws n' =>
      (∀ w ∈ ws, w.Within n') ∧
        ∀ o rest, os = o :: rest → o.Owned own → ∀ w ws', ws = w :: ws' → w.Fresh base := by
  induction os generalizing n with
  | nil =>
    refine abides_pure fun _ _ => ⟨by simp, ?_⟩
    rintro _ _ ⟨⟩
  | cons o rest ih =>
    refine (abides_operand hi hn hf o).bind fun w n1 h1 hw => ?_
    refine (ih (hi.mono h1) (hn.trans h1) (hf.mono h1)).bind fun ws n2 h2 hws => ?_
    refine abides_pure fun n3 h3 => ⟨fun u hu => ?_, ?_⟩
    · rcases List.mem_cons.mp hu with rfl | hu
      · exact hw.1.mono (h2.trans h3)
      · exact (hws.1 u hu).mono h3
    · rintro _ _ ⟨⟩ ho _ _ ⟨⟩
      exact hw.2 ho

/-- What calls do, with any number of buffers from `start` on. -/
def Invokes (m : Memory) (cells : Set String) (invoke : Invoke) (start : Nat) : Prop :=
  ∀ n callee args, start ≤ n → (∀ w ∈ args, w.Within n) →
    (callee.name = sprintf.name → ∀ w rest, args = w :: rest → w.Fresh m.heap.size) →
    Abides m cells n (invoke callee args) (Gained m.heap.size callee.name)

/-- What one operation gives: a frame that is apart, and a word that was made if it yields one. -/
def Operates (own : Set String) (base : Nat) (op : Operation) (result : Option Word × Frame)
    (n : Nat) : Prop :=
  result.2.Apart own base n ∧
    ∀ w, result.1 = some w → w.Within n ∧ (op.Yields own → w.Fresh base)

theorem operates_word (hf : frame.Apart own base n) (hw : w.Within n) (hop : ¬ op.Yields own)
    (hle : n ≤ n') : Operates own base op (some w, frame) n' := by
  refine ⟨hf.mono hle, ?_⟩
  rintro _ ⟨⟩
  exact ⟨hw.mono hle, fun h => absurd h hop⟩

theorem abides_operate (hinvoke : Invokes m cells invoke n) (hi : image.Apart cells m.heap.size n)
    (hcells : Ordinary cells) (hn : 2 ≤ n) (hf : frame.Apart own m.heap.size n)
    (previous name : String) (hop : op.Confined cells own) :
    Abides m cells n (operate image invoke previous name frame op)
      (Operates own m.heap.size op) := by
  have part (o : Operand) {n' : Nat} (hle : n ≤ n') :=
    abides_operand (m := m) (hi.mono hle) (hn.trans hle) (hf.mono hle) o
  cases op with
  | binary op left right =>
    refine (part left le_rfl).bind fun a _ h1 _ => (part right h1).bind fun b _ h2 _ => ?_
    exact (abides_binary op a b).bind fun w _ h3 hw => abides_pure fun _ hle =>
      operates_word (hf.mono (h1.trans (h2.trans h3))) hw (fun h => h) hle
  | icmp test left right =>
    refine (part left le_rfl).bind fun a _ h1 _ => (part right h1).bind fun b _ h2 _ => ?_
    exact (abides_icmp test a b).bind fun w _ h3 hw => abides_pure fun _ hle =>
      operates_word (hf.mono (h1.trans (h2.trans h3))) hw (fun h => h) hle
  | fcmp test left right =>
    refine (part left le_rfl).bind fun a _ h1 _ => (part right h1).bind fun b _ h2 _ => ?_
    exact (abides_fcmp test a b).bind fun w _ h3 hw => abides_pure fun _ hle =>
      operates_word (hf.mono (h1.trans (h2.trans h3))) hw (fun h => h) hle
  | convert how value type =>
    refine (part value le_rfl).bind fun a _ h1 ha => ?_
    refine (abides_convert how ha.1 type).bind fun w _ h2 hw => abides_pure fun _ hle => ?_
    refine ⟨hf.mono (h1.trans (h2.trans hle)), ?_⟩
    rintro _ ⟨⟩
    refine ⟨hw.1.mono hle, fun hyields => ?_⟩
    rw [hw.2 hyields.1]
    exact ha.2 hyields.2
  | load address =>
    refine (part address le_rfl).bind fun a _ h1 _ => ?_
    exact (abides_load (hf.mono h1) a).bind fun w _ h2 hw => abides_pure fun _ hle =>
      operates_word (hf.mono (h1.trans h2)) hw (fun h => h) hle
  | store value address =>
    refine (part value le_rfl).bind fun w _ h1 hw => ?_
    refine (abides_aim (hi.mono h1) (hn.trans h1) (hf.mono h1) hcells hop).bind fun a _ h2 ha => ?_
    refine (abides_store (hf.mono (h1.trans h2)) (hw.1.mono h2) ha).bind fun frame' _ _ hf' => ?_
    refine abides_pure fun _ hle => ⟨hf'.mono hle, ?_⟩
    rintro _ ⟨⟩
  | alloca type =>
    refine abides_pure fun _ hle => ⟨hf.mono hle, ?_⟩
    rintro _ ⟨⟩
    refine ⟨fun buffer index hw => ?_, fun _ => trivial⟩
    cases hw
  | element address index =>
    refine (part address le_rfl).bind fun a _ h1 ha => (part index h1).bind fun i _ h2 _ => ?_
    split
    · split
      · exact abides_trap _
      · rename_i buffer offset k _ _
        refine abides_pure fun _ hle => ⟨hf.mono (h1.trans (h2.trans hle)), ?_⟩
        rintro _ ⟨⟩
        refine ⟨?_, fun hyields => ha.2 hyields⟩
        rintro _ _ ⟨⟩
        exact (ha.1.mono (h2.trans hle)) buffer offset rfl
    · exact abides_trap _
  | select condition yes no =>
    refine (part condition le_rfl).bind fun c _ h1 _ => ?_
    split
    · refine (part yes h1).bind fun y _ h2 hy => (part no (h1.trans h2)).bind fun z _ h3 hz => ?_
      refine abides_pure fun _ hle =>
        operates_word (n := _) (hf.mono (h1.trans (h2.trans h3))) ?_ (fun h => h) hle
      split
      · exact hy.1.mono h3
      · exact hz.1
    · exact abides_trap _
  | phi type incoming =>
    dsimp only [operate]
    split
    · exact (part _ le_rfl).bind fun w _ h1 hw => abides_pure fun _ hle =>
        operates_word (hf.mono h1) hw.1 (fun h => h) hle
    · exact abides_trap _
  | call callee args =>
    refine (abides_operands hi hn hf args).bind fun ws n1 h1 hws => ?_
    have hformat : callee.name = sprintf.name → ∀ w rest, ws = w :: rest →
        w.Fresh m.heap.size := by
      intro hname w rest hw
      obtain ⟨buffer, others, hargs, hb⟩ := hop hname
      exact hws.2 buffer others hargs hb w rest hw
    refine (hinvoke n1 callee ws h1 hws.1 hformat).bind fun r n2 h2 hr => ?_
    refine abides_pure fun _ hle => ⟨hf.mono (h1.trans (h2.trans hle)), fun w hw => ?_⟩
    refine ⟨(hr w hw).1.mono hle, fun hyields => (hr w hw).2 ?_⟩
    rw [show callee = malloc from hyields]

theorem abides_runBody (hinvoke : Invokes m cells invoke n) (hi : image.Apart cells m.heap.size n)
    (hcells : Ordinary cells) (hn : 2 ≤ n) (hf : frame.Apart own m.heap.size n)
    (previous : String) {body : List Instruction}
    (hbody : ∀ i ∈ body, i.operation.Confined cells own ∧ (i.name ∈ own → i.operation.Yields own)) :
    Abides m cells n (runBody image invoke previous body frame) fun frame' n' =>
      frame'.Apart own m.heap.size n' := by
  induction body generalizing n frame with
  | nil => exact abides_pure fun _ hle => hf.mono hle
  | cons i rest ih =>
    obtain ⟨⟨hop, hyields⟩, hrest⟩ := List.forall_mem_cons.mp hbody
    refine (abides_operate hinvoke hi hcells hn hf previous i.name hop).bind
      fun result n1 h1 hresult => ?_
    obtain ⟨r, frame1⟩ := result
    obtain ⟨hf1, hword⟩ := hresult
    have hinvoke1 : Invokes m cells invoke n1 := fun n' callee args hle =>
      hinvoke n' callee args (h1.trans hle)
    refine ih hinvoke1 (hi.mono h1) (hn.trans h1) ?_ hrest
    cases r with
    | none => exact hf1
    | some w =>
      obtain ⟨hwithin, hfresh⟩ := hword w rfl
      refine ⟨fun x u hu => ?_, hf1.stack, fun x hx u hu => ?_⟩
      · rw [Table.get?_insert] at hu
        split at hu
        · cases hu
          exact hwithin
        · exact hf1.registers x u hu
      · rw [Table.get?_insert] at hu
        split at hu
        · rename_i heq
          cases hu
          exact hfresh (hyields (heq ▸ hx))
        · exact hf1.fresh x hx u hu

/-- The first call of a function has nothing but its arguments. -/
theorem apart_arguments {params : List String} (hargs : ∀ w ∈ args, w.Within n)
    (hparams : ∀ x ∈ params, x ∉ own) :
    ({ registers := Table.ofList (params.zip args) } : Frame).Apart own base n := by
  refine ⟨fun x w hw => ?_, fun x w hw => ?_, fun x hx w hw => ?_⟩
  · exact hargs w (List.of_mem_zip (Table.mem_of_get?_ofList hw)).2
  · cases hw
  · exact absurd hx (hparams x (List.of_mem_zip (Table.mem_of_get?_ofList hw)).1)

/-- A run of confined code keeps what is spared, from any block of a function on. -/
theorem abides_execute (hi : image.Apart cells m.heap.size n) (hcells : Ordinary cells)
    (fuel : Nat) :
    ∀ {n' : Nat}, n ≤ n' → 2 ≤ n' → ∀ {f : Function} {own : Set String} {frame : Frame},
      Confines cells own f.blocks → frame.Apart own m.heap.size n' → ∀ label previous,
      Abides m cells n' (execute image fuel f label previous frame) fun r n'' =>
        ∀ w, r = some w → w.Within n'' := by
  induction fuel with
  | zero =>
    refine fun _ _ _ _ _ _ _ _ _ s hs _ => ⟨hs, le_rfl, ?_⟩
    rintro _ _ ⟨⟩
  | succ fuel ih =>
    intro n' hle hn f own frame hblocks hf label previous
    cases hb : blockAt f.blocks label with
    | none =>
      rw [execute_none image fuel f label previous frame hb]
      exact abides_trap _
    | some b =>
      have hmem : b ∈ f.blocks := List.mem_of_find?_eq_some hb
      have hinvoke : Invokes m cells (invokeWith image fuel) n' := by
        intro n1 callee args h1 hargs hformat
        unfold invokeWith
        cases hg : image.function? callee.name with
        | none => exact abides_callLibrary hformat
        | some g =>
          obtain ⟨own', hparams, hconfines⟩ := hi.functions g (List.mem_of_find?_eq_some hg)
          have hname : callee.name ≠ malloc.name := by
            intro heq
            rw [heq, hi.malloc] at hg
            cases hg
          dsimp only
          split
          · exact abides_trap _
          · refine (ih (hle.trans h1) (hn.trans h1) hconfines (apart_arguments hargs hparams) _ _).imp
              fun r n2 hr w hw => ⟨hr w hw, fun heq => absurd heq hname⟩
      rw [execute_succ image fuel f label previous frame hb]
      refine (abides_runBody hinvoke (hi.mono hle) hcells hn hf previous (hblocks b hmem)).bind
        fun frame' n1 h1 hf1 => ?_
      have hle1 := hle.trans h1
      have hn1 := hn.trans h1
      unfold leave
      split
      · exact ih hle1 hn1 hblocks hf1 _ _
      · refine (abides_operand (hi.mono hle1) hn1 hf1 _).bind fun c n2 h2 _ => ?_
        split
        · exact ih (hle1.trans h2) (hn1.trans h2) hblocks (hf1.mono h2) _ _
        · exact abides_trap _
      · refine (abides_operand (hi.mono hle1) hn1 hf1 _).bind fun w _ _ hw => abides_pure fun _ hle => ?_
        rintro _ ⟨⟩
        exact hw.1.mono hle
      · refine abides_pure fun _ _ => ?_
        rintro _ ⟨⟩
      · exact abides_trap _

/-! ## Submissions -/

theorem Memory.Closed.kept (h : m.Closed) (cells : Set String) : Kept m cells m :=
  ⟨.refl m, fun _ _ => rfl, h⟩

theorem within_zeroWord (hn : 2 ≤ n) (kind : Kind) : (zeroWord kind).Within n := by
  have htext : (Word.address Memory.emptyText).Within n := by
    rintro _ _ ⟨⟩
    exact Nat.lt_of_lt_of_le Nat.zero_lt_two hn
  have harray : (Word.address Memory.emptyArray).Within n := by
    rintro _ _ ⟨⟩
    exact hn
  cases kind with
  | intArray => exact harray
  | string => exact htext
  | none => exact htext
  | _ => exact within_of_no_address (by simp [zeroWord])

theorem Kept.addSlots (h : Kept m cells m') {slots : List Slot}
    (hs : ∀ slot ∈ slots, slot.symbol ∈ cells) : Kept m cells (slots.foldl Memory.addSlot m') := by
  induction slots generalizing m' with
  | nil => exact h
  | cons slot rest ih =>
    obtain ⟨hslot, hrest⟩ := List.forall_mem_cons.mp hs
    exact ih (h.setCell hslot (within_zeroWord h.closed.founded slot.kind)) hrest

theorem size_freeConstants (m : Memory) (constants : Table Address) :
    (freeConstants m constants).heap.size = m.heap.size := by
  unfold freeConstants
  induction constants.entries generalizing m with
  | nil => rfl
  | cons entry rest ih =>
    rw [List.foldl_cons, ih]
    split
    · exact size_setContents _ _ _
    · rfl

/-- Constants in buffers that are new since the run began are freed. -/
theorem Kept.freeConstants (h : Kept m cells m') {constants : Table Address}
    (hnodup : constants.names.Nodup) (hnew : ∀ name k i, constants.get? name = some (.heap k i) →
      m.heap.size ≤ k) : Kept m cells (freeConstants m' constants) := by
  refine ⟨fun k b hk => ?_, fun name hname => ?_, ?_, fun name w hw => ?_⟩
  · have hlt : k < m.heap.size := (Array.getElem?_eq_some_iff.mp hk).1
    have hkept : ∀ name i, constants.get? name ≠ some (.heap k i) := by
      intro name i hc
      have := hnew name k i hc
      omega
    rw [freeConstants_kept m' hnodup hkept]
    exact h.heap k b hk
  · rw [freeConstants_cells]
    exact h.spared name hname
  · rw [size_freeConstants]
    exact h.closed.founded
  · rw [size_freeConstants]
    rw [freeConstants_cells] at hw
    exact h.closed.cells name w hw

/-- The module of the artifact is confined, and so are the slots made for it. -/
structure Secured (cells : Set String) (a : Artifact) : Prop where
  functions : ∀ f, Global.function f ∈ a.module.globals → f.Confined cells
  created : ∀ slot ∈ a.created, slot.symbol ∈ cells
  names : (a.module.globals.map Global.name).Nodup
  library : ∀ callee ∈ library, ∃ params,
    Global.function { signature := callee, params } ∈ a.module.globals

theorem kept_loaded (ha : Secured cells a) (hpresent : resultPresent ∈ cells) (hm : m.Closed) :
    Kept m cells (loaded a m).1 ∧ (loaded a m).2.names.Nodup ∧
      ∀ name address, (loaded a m).2.get? name = some address →
        ∃ k i, address = .heap k i ∧ m.heap.size ≤ k ∧ k < (loaded a m).1.heap.size := by
  have hprepared : Kept m cells (prepared a m) :=
    ((hm.kept cells).addSlots ha.created).setCell hpresent (within_of_no_address (by simp))
  have L : Loads (prepared a m) {} a.module.globals (loaded a m).1 (loaded a m).2 :=
    loadConstants_spec a.module.globals (prepared a m) {}
  refine ⟨⟨hprepared.heap.trans L.heap, ?_, ?_, ?_⟩, L.nodup List.nodup_nil, ?_⟩
  · rw [L.cells]
    exact hprepared.spared
  · exact hprepared.closed.founded.trans L.heap.size_le
  · rw [L.cells]
    exact fun name w hw => (hprepared.closed.cells name w hw).mono L.heap.size_le
  · intro name address hc
    rcases L.origin name address hc with hold | ⟨-, k, rfl, hk, hk'⟩
    · cases hold
    · exact ⟨k, 0, rfl, hprepared.size_le.trans hk, hk'⟩

theorem abides_result (kind : Kind) (word : Option Word) :
    Abides m cells n (result kind word) fun _ _ => True := by
  refine abides_get fun s hs _ => Abides.from ?_ hs
  dsimp only
  split
  · exact abides_pure fun _ _ => trivial
  · exact abides_pure fun _ _ => trivial
  · exact abides_ofOption _ fun _ _ _ _ => trivial
  · exact abides_trap _

/-- A run of a confined submission keeps what is spared, however it ends. -/
theorem kept_runArtifact (ha : Secured cells a) (hpresent : resultPresent ∈ cells)
    (hcells : Ordinary cells) (fuel : Nat) (hs : s.memory.Closed) :
    Kept s.memory cells (final (runArtifact fuel a s)).memory := by
  obtain ⟨hkept, hnodup, hconstants⟩ := kept_loaded ha hpresent hs
  cases hf : (imageOf a s.memory).function? a.entry with
  | none =>
    rw [runArtifact_error fuel hf]
    exact hkept
  | some f =>
    have hapart : (imageOf a s.memory).Apart cells s.memory.heap.size
        (loaded a s.memory).1.heap.size := by
      refine ⟨fun g hg => ha.functions g (mem_functionsOf.mp hg), ?_, hconstants⟩
      obtain ⟨params, hp⟩ := ha.library malloc (by simp [library])
      exact function?_of_declared ha.names hp
    obtain ⟨own, -, hconfines⟩ := hapart.functions f (List.mem_of_find?_eq_some hf)
    have hframe : ({} : Frame).Apart own s.memory.heap.size (loaded a s.memory).1.heap.size := by
      refine ⟨?_, ?_, ?_⟩
      · rintro x w ⟨⟩
      · rintro x w ⟨⟩
      · rintro x _ w ⟨⟩
    have hclosing (word : Option Word) (n : Nat) :
        Abides s.memory cells n (closing a s.memory word) fun _ _ => True := by
      refine (abides_result a.kind word).bind fun v _ _ _ t ht _ => ?_
      refine ⟨ht.freeConstants hnodup ?_, (size_freeConstants _ _).ge, fun _ _ _ => trivial⟩
      intro name k i hc
      obtain ⟨k', i', heq, hk, -⟩ := hconstants name _ hc
      cases heq
      exact hk
    have hrun := (abides_execute hapart hcells fuel le_rfl hkept.closed.founded hconfines hframe
      (firstLabel f) "").bind fun word n _ _ => hclosing word n
    rw [runArtifact_run fuel hf]
    exact (hrun (started a s) hkept le_rfl).1

/-! ## What cells stand for -/

/-- A word stands for the same if its buffer is the same. -/
theorem decode?_of_heap_eq (kind : Kind)
    (h : ∀ k i, w = .address (.heap k i) → m'.heap[k]? = m.heap[k]?) :
    decode? m' kind w = decode? m kind w := by
  cases w with
  | address a =>
    cases a with
    | heap k i =>
      have hk := h k i rfl
      have hint (j : Nat) : m'.int? k j = m.int? k j := by
        unfold Memory.int?
        rw [hk]
      have htext : m'.text? (.heap k i) = m.text? (.heap k i) := by
        cases i with
        | zero =>
          simp only [Memory.text?]
          rw [hk]
        | succ i => rfl
      cases kind with
      | string => simp only [decode?, htext]
      | intArray => simp only [decode?, Memory.array?_congr hint]
      | _ => rfl
    | _ => cases kind <;> rfl
  | _ => cases kind <;> rfl

/-- A spared cell stands for what it stood for. -/
theorem Kept.decode? (h : Kept m cells m') (hm : m.Closed) {name : String} (hn : name ∉ cells)
    (kind : Kind) :
    (m'.cells.get? name).bind (decode? m' kind) = (m.cells.get? name).bind (decode? m kind) := by
  rw [h.spared name hn]
  cases hw : m.cells.get? name with
  | none => rfl
  | some w =>
    refine decode?_of_heap_eq kind fun k i heq => ?_
    have hlt := hm.cells name w hw k i heq
    rw [Array.getElem?_eq_getElem hlt]
    exact h.heap k _ (Array.getElem?_eq_getElem hlt)

end DualEngine.Machine
