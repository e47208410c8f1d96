import DualEngine.Console.Program
import Mathlib

/-! # Lines and the submissions they make up

The console gathers lines until their braces are closed and hands them to its shell as one source.
Whatever becomes of a submission, no line is lost, none is handed over twice, and the lines keep
their order.
-/
namespace DualEngine.Console

/-- How much deeper in braces the end of some lines is than their start. -/
def depthOf (lines : List String) : Int := (lines.map balance).sum

@[simp] theorem depthOf_append (lines more : List String) :
    depthOf (lines ++ more) = depthOf lines + depthOf more := by
  simp [depthOf]

@[simp] theorem depthOf_singleton (line : String) : depthOf [line] = balance line := by
  simp [depthOf]

/-- After every line some brace is open. -/
def StaysOpen (lines : List String) : Prop :=
  ∀ start, start <+: lines → start ≠ [] → 0 < depthOf start

/-- After every line but the last some brace is open, and after the last none is. -/
structure ClosesAtEnd (lines : List String) : Prop where
  nonempty : lines ≠ []
  open_before : ∀ start, start <+: lines → start ≠ [] → start ≠ lines → 0 < depthOf start
  closed : depthOf lines ≤ 0

theorem staysOpen_nil : StaysOpen [] := by
  intro start hstart hne
  exact absurd (List.prefix_nil.mp hstart) hne

variable {lines : List String} {line : String}

theorem StaysOpen.concat (h : StaysOpen lines) (hopen : 0 < depthOf (lines ++ [line])) :
    StaysOpen (lines ++ [line]) := by
  intro start hstart hne
  rcases List.prefix_concat_iff.mp hstart with rfl | hstart
  · exact hopen
  · exact h start hstart hne

theorem StaysOpen.closesAtEnd (h : StaysOpen lines) (hclosed : depthOf (lines ++ [line]) ≤ 0) :
    ClosesAtEnd (lines ++ [line]) := by
  refine ⟨by simp, fun start hstart hne hproper => ?_, hclosed⟩
  rcases List.prefix_concat_iff.mp hstart with rfl | hstart
  · exact absurd rfl hproper
  · exact h start hstart hne

/-! ## One line -/

/-- The depth of a reader is that of its lines, which leave a brace open throughout. -/
structure Reader.Tracks (r : Reader) : Prop where
  depth : r.depth = depthOf r.lines
  stays_open : StaysOpen r.lines

theorem tracks_empty : Reader.Tracks {} := ⟨rfl, staysOpen_nil⟩

variable {r : Reader}

/-- The line leaves the console. -/
def Reader.Quits (r : Reader) (line : String) : Prop :=
  r.lines = [] ∧ Text.strip line ∈ quitWords

/-- The line is passed over. -/
def Reader.Skips (r : Reader) (line : String) : Prop :=
  r.lines = [] ∧ Text.strip line = ""

instance (r : Reader) (line : String) : Decidable (r.Quits line) :=
  inferInstanceAs (Decidable (_ ∧ _))

instance (r : Reader) (line : String) : Decidable (r.Skips line) :=
  inferInstanceAs (Decidable (_ ∧ _))

/-- Everything that a line can do to a reader. -/
theorem Reader.feed_eq (r : Reader) (line : String) : r.feed line =
    if r.Quits line then .quit
    else if r.Skips line then .more r
    else if 0 < r.depth + balance line then .more ⟨r.lines ++ [line], r.depth + balance line⟩
    else .submit ("\n".intercalate (r.lines ++ [line])) := by
  have hquit : (r.lines.isEmpty && quitWords.contains (Text.strip line)) = true ↔ r.Quits line := by
    simp [Reader.Quits]
  have hskip : (r.lines.isEmpty && (Text.strip line).isEmpty) = true ↔ r.Skips line := by
    simp [Reader.Skips]
  simp only [Reader.feed, hquit, hskip]

/-- A line that is gathered, with what is known of the lines then. -/
inductive Reader.Gathers (r : Reader) (line : String) : Reading → Prop where
  | more (h : Reader.Tracks ⟨r.lines ++ [line], r.depth + balance line⟩) :
    r.Gathers line (.more ⟨r.lines ++ [line], r.depth + balance line⟩)
  | submit (h : ClosesAtEnd (r.lines ++ [line])) :
    r.Gathers line (.submit ("\n".intercalate (r.lines ++ [line])))

theorem Reader.Tracks.gathers (h : r.Tracks) (hquit : ¬ r.Quits line) (hskip : ¬ r.Skips line) :
    r.Gathers line (r.feed line) := by
  have hdepth : r.depth + balance line = depthOf (r.lines ++ [line]) := by
    rw [depthOf_append, depthOf_singleton, h.depth]
  rw [r.feed_eq, if_neg hquit, if_neg hskip]
  split
  · rename_i hopen
    exact .more ⟨hdepth, h.stays_open.concat (hdepth ▸ hopen)⟩
  · rename_i hclosed
    exact .submit (h.stays_open.closesAtEnd (hdepth ▸ not_lt.mp hclosed))

/-! ## All lines -/

/-- The reader for the line after this one. -/
def Reader.after (r : Reader) (line : String) : Reader :=
  match r.feed line with
  | .more r => r
  | .submit _ => {}
  | .quit => r

/-- The lines up to one that leaves the console, without those that are passed over. -/
def Reader.taken (r : Reader) : List String → List String
  | [] => []
  | line :: rest =>
    if r.Quits line then []
    else if r.Skips line then r.taken rest
    else line :: (r.after line).taken rest

/-- What a console did with its lines: the sources that it handed over, each with the shell that ran
it, and the lines that it still held when it ended. -/
structure Division where
  handed : List (Shell × String) := []
  held : List String := []

/-- What a console hands over at a line. -/
def Dialog.handedAt (d : Dialog) (line : String) : List (Shell × String) :=
  match d.reader.feed line with
  | .submit source => [(d.shell, source)]
  | _ => []

/-- Follows a console through its lines. -/
def Dialog.division (d : Dialog) : List String → Division
  | [] => { held := d.reader.lines }
  | line :: rest =>
    match (d.feed line).2 with
    | .go d' => ⟨d.handedAt line ++ (d'.division rest).handed, (d'.division rest).held⟩
    | .stop _ => { handed := d.handedAt line }

section
variable {d d' : Dialog} {source : String}

theorem Dialog.next_quit (h : d.reader.feed line = .quit) :
    (d.feed line).2 = .stop (.code 0) := by
  rw [Dialog.feed, h]

theorem Dialog.next_more {reader : Reader} (h : d.reader.feed line = .more reader) :
    (d.feed line).2 = .go { d with reader } := by
  rw [Dialog.feed, h]

theorem Dialog.next_cutOff {cause : Report} (h : d.reader.feed line = .submit source)
    (hcause : (d.shell.submit source).unreported = some cause) :
    (d.feed line).2 = .stop (.cutOff cause) := by
  simp only [Dialog.feed, h, hcause]

theorem Dialog.next_submit (h : d.reader.feed line = .submit source)
    (hcause : (d.shell.submit source).unreported = none) :
    (d.feed line).2 = .go { shell := (d.shell.submit source).shell } := by
  simp only [Dialog.feed, h, hcause]

theorem Dialog.division_go (h : (d.feed line).2 = .go d') (rest : List String) :
    d.division (line :: rest) =
      ⟨d.handedAt line ++ (d'.division rest).handed, (d'.division rest).held⟩ := by
  rw [Dialog.division, h]

theorem Dialog.division_stop {ending : Ending} (h : (d.feed line).2 = .stop ending)
    (rest : List String) : d.division (line :: rest) = { handed := d.handedAt line } := by
  rw [Dialog.division, h]

theorem Dialog.feedAll_go (h : (d.feed line).2 = .go d') (rest : List String) :
    d.feedAll (line :: rest) =
      (d'.feedAll rest).after ({ out := d.reader.prompt } ++ (d.feed line).1) := by
  rw [Dialog.feedAll]
  split
  · rename_i hfeed
    simp [hfeed] at h
  · rename_i hfeed
    obtain rfl : _ = d' := by simpa [hfeed] using h
    rw [hfeed]

theorem Dialog.feedAll_stop {ending : Ending} (h : (d.feed line).2 = .stop ending)
    (rest : List String) :
    d.feedAll (line :: rest) = ⟨ending, { out := d.reader.prompt } ++ (d.feed line).1⟩ := by
  rw [Dialog.feedAll]
  split
  · rename_i hfeed
    obtain rfl : _ = ending := by simpa [hfeed] using h
    rw [hfeed]
  · rename_i hfeed
    simp [hfeed] at h

end

/-- The sources are lines of `all` in order, cut where the braces are closed, and what is held is
what follows them; nothing of `all` is left over if `complete` holds. -/
def Division.Covers (v : Division) (all : List String) (complete : Prop) : Prop :=
  ∃ groups : List (List String), v.handed.map Prod.snd = groups.map "\n".intercalate ∧
    (∀ group ∈ groups, ClosesAtEnd group) ∧ StaysOpen v.held ∧
    groups.flatten ++ v.held <+: all ∧ (complete → groups.flatten ++ v.held = all)

theorem covers_held {held : List String} (h : StaysOpen held) (complete : Prop) :
    Division.Covers { held } held complete :=
  ⟨[], rfl, by simp, h, by simp, fun _ => rfl⟩

theorem Division.Covers.handOver {v : Division} {rest : List String} {complete : Prop}
    (h : v.Covers rest complete) (sh : Shell) {group : List String} (hgroup : ClosesAtEnd group) :
    Division.Covers ⟨(sh, "\n".intercalate group) :: v.handed, v.held⟩ (group ++ rest) complete := by
  obtain ⟨groups, hsources, hclosed, hheld, hprefix, hall⟩ := h
  refine ⟨group :: groups, by simp [hsources], ?_, hheld, by simpa using hprefix,
    fun hc => by simpa using hall hc⟩
  exact List.forall_mem_cons.mpr ⟨hgroup, hclosed⟩

/-- A console that is cut off leaves the other lines unread. -/
theorem covers_cutOff (rest : List String) {complete : Prop} (h : ¬ complete) :
    Division.Covers {} rest complete :=
  ⟨[], rfl, by simp, staysOpen_nil, by simp, fun hc => absurd hc h⟩

/-- The program ended by itself: no failure that it does not report cut it off. -/
def Exit.isRegular (e : Exit) : Bool :=
  match e.ending with
  | .code _ => true
  | .cutOff _ => false

theorem covers_division (d : Dialog) (h : d.reader.Tracks) (lines : List String) :
    (d.division lines).Covers (d.reader.lines ++ d.reader.taken lines)
      (d.feedAll lines).isRegular := by
  induction lines generalizing d with
  | nil => simpa [Dialog.division, Reader.taken] using covers_held h.stays_open _
  | cons line rest ih =>
    rw [Reader.taken]
    by_cases hquit : d.reader.Quits line
    · have hfeed : d.reader.feed line = .quit := by rw [d.reader.feed_eq, if_pos hquit]
      rw [Dialog.division_stop (Dialog.next_quit hfeed), if_pos hquit, hquit.1, Dialog.handedAt, hfeed]
      exact covers_held staysOpen_nil _
    rw [if_neg hquit]
    by_cases hskip : d.reader.Skips line
    · have hfeed : d.reader.feed line = .more d.reader := by
        rw [d.reader.feed_eq, if_neg hquit, if_pos hskip]
      have hgo := Dialog.next_more hfeed
      rw [Dialog.division_go hgo, Dialog.feedAll_go hgo, if_pos hskip, Dialog.handedAt, hfeed]
      exact ih d h
    have hcons (all : List String) :
        d.reader.lines ++ line :: all = (d.reader.lines ++ [line]) ++ all := by simp
    rw [if_neg hskip, Reader.after, hcons]
    have hgathers := h.gathers hquit hskip
    generalize hfeed : d.reader.feed line = reading at hgathers
    cases hgathers with
    | more hnext =>
      have hgo := Dialog.next_more hfeed
      rw [Dialog.division_go hgo, Dialog.feedAll_go hgo, Dialog.handedAt, hfeed]
      exact ih { d with reader := ⟨d.reader.lines ++ [line], _⟩ } hnext
    | submit hclosed =>
      cases hreport : (d.shell.submit ("\n".intercalate (d.reader.lines ++ [line]))).unreported with
      | some cause =>
        have hstop := Dialog.next_cutOff hfeed hreport
        rw [Dialog.division_stop hstop, Dialog.feedAll_stop hstop, Dialog.handedAt, hfeed]
        exact (covers_cutOff _ Bool.false_ne_true).handOver d.shell hclosed
      | none =>
        have hgo := Dialog.next_submit hfeed hreport
        rw [Dialog.division_go hgo, Dialog.feedAll_go hgo, Dialog.handedAt, hfeed]
        exact (ih _ tracks_empty).handOver d.shell hclosed

/-- Which sources are handed over does not depend on what becomes of them. -/
theorem sources_of_isRegular (d : Dialog) (lines : List String)
    (h : (d.feedAll lines).isRegular = true) :
    (d.division lines).handed.map Prod.snd = submissions d.reader lines := by
  induction lines generalizing d with
  | nil => rfl
  | cons line rest ih =>
    rw [submissions]
    cases hfeed : d.reader.feed line with
    | quit =>
      rw [Dialog.division_stop (Dialog.next_quit hfeed), Dialog.handedAt, hfeed]
      rfl
    | more reader =>
      have hgo := Dialog.next_more hfeed
      rw [Dialog.feedAll_go hgo] at h
      rw [Dialog.division_go hgo, Dialog.handedAt, hfeed]
      exact ih { d with reader } h
    | submit source =>
      cases hreport : (d.shell.submit source).unreported with
      | some cause =>
        rw [Dialog.feedAll_stop (Dialog.next_cutOff hfeed hreport)] at h
        cases h
      | none =>
        have hgo := Dialog.next_submit hfeed hreport
        rw [Dialog.feedAll_go hgo] at h
        rw [Dialog.division_go hgo, Dialog.handedAt, hfeed]
        exact congrArg (source :: ·) (ih { shell := (d.shell.submit source).shell } h)

/-! ## What is reported -/

theorem err_append (t u : Transcript) : (t ++ u).err = t.err ++ u.err := rfl

theorem err_echo (ok : Bool) (r : Results) : (echo ok r).err = "" := by
  unfold echo
  split
  · rfl
  · rfl
  · rfl
  · rw [err_append]
    cases shown? r.evaluated <;> cases shown? r.compiled <;> rfl

/-- What a console reports at a line is what the source that it hands over there makes it report. -/
theorem Dialog.err_feed (d : Dialog) (line : String) : (d.feed line).1.err =
    String.join ((d.handedAt line).map fun p => (p.1.submit p.2).transcript.err) := by
  cases hfeed : d.reader.feed line with
  | quit | more reader => simp [Dialog.feed, Dialog.handedAt, hfeed]
  | submit source =>
    simp only [Dialog.feed, Dialog.handedAt, hfeed]
    split <;> simp [err_append, err_echo]

theorem Dialog.err_feedAll (d : Dialog) (lines : List String) : (d.feedAll lines).transcript.err =
    String.join ((d.division lines).handed.map fun p => (p.1.submit p.2).transcript.err) := by
  induction lines generalizing d with
  | nil => rfl
  | cons line rest ih =>
    cases hnext : (d.feed line).2 with
    | stop ending =>
      rw [Dialog.feedAll_stop hnext, Dialog.division_stop hnext, ← d.err_feed, err_append]
      exact String.empty_append
    | go d' =>
      rw [Dialog.feedAll_go hnext, Dialog.division_go hnext]
      simp [Exit.after, err_append, d.err_feed, ih]

/-! ## Whole consoles -/

/-- A console cuts the lines that it takes into the sources that it hands over and the lines that it
still holds at the end. Which sources these are does not depend on what becomes of them, and all it
reports comes from them. If a submission cuts the program off, the lines after it are not read. -/
theorem console_keeps_lines (shell : Shell) (lines : List String) :
    ∃ groups : List (List String),
      (Dialog.division { shell } lines).handed.map Prod.snd = groups.map "\n".intercalate ∧
      (∀ group ∈ groups, ClosesAtEnd group) ∧
      StaysOpen (Dialog.division { shell } lines).held ∧
      groups.flatten ++ (Dialog.division { shell } lines).held <+: Reader.taken {} lines ∧
      ((Dialog.feedAll { shell } lines).isRegular = true →
        groups.flatten ++ (Dialog.division { shell } lines).held = Reader.taken {} lines ∧
        groups.map "\n".intercalate = submissions {} lines) ∧
      (Dialog.feedAll { shell } lines).transcript.err =
        String.join ((Dialog.division { shell } lines).handed.map fun p =>
          (p.1.submit p.2).transcript.err) := by
  obtain ⟨groups, hsources, hclosed, hheld, hprefix, hall⟩ :=
    covers_division { shell } tracks_empty lines
  refine ⟨groups, hsources, hclosed, hheld, hprefix, fun hregular => ⟨hall hregular, ?_⟩,
    Dialog.err_feedAll { shell } lines⟩
  rw [← hsources, sources_of_isRegular { shell } lines hregular]

/-- A blank line, a brace in a string, a brace too many, and a block that is never closed. -/
def unfinishedLines : List String := [" ", "x = \"\x7b\"", "\x7d", "if (x) \x7b", "", "quit"]

/-- What is held at the end is the block that is not closed, with the blank line and the word in it
that leave a console between submissions. -/
theorem unfinishedLines_kept :
    let shell : Shell := { settings := {}, generator := ⟨#[], 0⟩ }
    (Dialog.feedAll { shell } unfinishedLines).isRegular = true ∧
    ∃ groups : List (List String), groups.map "\n".intercalate = ["x = \"\x7b\"", "\x7d"] ∧
      (∀ group ∈ groups, ClosesAtEnd group) ∧
      groups.flatten ++ ["if (x) \x7b", "", "quit"] = unfinishedLines.tail := by
  intro shell
  have hregular : (Dialog.feedAll { shell } unfinishedLines).isRegular = true := by decide +kernel
  have hsources : submissions {} unfinishedLines = ["x = \"\x7b\"", "\x7d"] := by decide +kernel
  have hheld : (Dialog.division { shell } unfinishedLines).held = ["if (x) \x7b", "", "quit"] := by
    decide +kernel
  have htaken : Reader.taken {} unfinishedLines = unfinishedLines.tail := by decide +kernel
  obtain ⟨groups, -, hclosed, -, -, hall, -⟩ := console_keeps_lines shell unfinishedLines
  refine ⟨hregular, groups, (hall hregular).2.trans hsources, hclosed, ?_⟩
  rw [← hheld, (hall hregular).1, htaken]

end DualEngine.Console
