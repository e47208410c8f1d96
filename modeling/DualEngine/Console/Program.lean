import DualEngine.Console.Help
import DualEngine.Console.Reader
import DualEngine.Console.Shell
import DualEngine.Text.Lines

/-! # The program

From the arguments, the lines of the standard input and the files to an exit code and the text on
the two output streams. A line of the console is one step of `Dialog.feed`.
-/
namespace DualEngine.Console

/-- Why a file cannot be read. -/
inductive FileProblem where
  | missing
  | directory
  | denied

def FileProblem.message (name : String) : FileProblem → String
  | .missing => "[Errno 2] No such file or directory: " ++ Text.quoted name
  | .directory => "[Errno 21] Is a directory: " ++ Text.quoted name
  | .denied => "[Errno 13] Permission denied: " ++ Text.quoted name

/-- A console between two lines. -/
structure Dialog where
  shell : Shell
  reader : Reader := {}

def Dialog.greeting (d : Dialog) : String :=
  "Duet REPL (" ++ d.shell.settings.engine.name ++ "). Type exit to quit.\n"

/-- How the program ends: with a code, or cut off by a failure that it does not report. -/
inductive Ending where
  | code (n : Nat)
  | cutOff (r : Report)

/-- What comes after a line. -/
inductive Next where
  | go (d : Dialog)
  | stop (e : Ending)

/-- What a line does. -/
def Dialog.feed (d : Dialog) (line : String) : Transcript × Next :=
  match d.reader.feed line with
  | .quit => ({}, .stop (.code 0))
  | .more reader => ({}, .go { d with reader })
  | .submit source =>
    let s := d.shell.submit source
    match s.unreported with
    | some r => (s.transcript, .stop (.cutOff r))
    | none => (s.transcript ++ echo s.ok s.results, .go { shell := s.shell })

structure Exit where
  ending : Ending
  transcript : Transcript

def Exit.after (e : Exit) (before : Transcript) : Exit :=
  { e with transcript := before ++ e.transcript }

/-- Feeds lines until one of them is the last; the end of the lines ends the prompt's line. -/
def Dialog.feedAll (d : Dialog) : List String → Exit
  | [] => ⟨.code 0, { out := d.reader.prompt ++ "\n" }⟩
  | line :: rest =>
    let prompt : Transcript := { out := d.reader.prompt }
    match d.feed line with
    | (t, .stop ending) => ⟨ending, prompt ++ t⟩
    | (t, .go d) => (d.feedAll rest).after (prompt ++ t)

def usageExit (e : UsageError) : Exit :=
  ⟨.code 2, { err := usage ++ "duet: error: " ++ e.message ++ "\n" }⟩

def emptySeed : Report :=
  Report.unsupported
    "The only supported seed types are: None,\nint, float, str, bytes, and bytearray."

/-- The shell for the settings, and what setting it up writes to the log. -/
def startShell (settings : Settings) (generator : Random.Generator) :
    Except Report (Transcript × Shell) :=
  match settings.seed with
  | none => .ok ({}, { settings, generator })
  | some .empty => .error emptySeed
  | some (.number n) =>
    let log := if settings.verbose then
      logLine "main" ("seeded shared generator with " ++ toString n) else ""
    .ok ({ err := log }, { settings, generator := Random.seed n })

/-- Runs a file as one submission. -/
def runFile (sh : Shell) (name : String) (contents : Except FileProblem String) : Exit :=
  match contents with
  | .error problem =>
    ⟨.code 1, errLine ("[ERROR] cannot read " ++ name ++ ": " ++ problem.message name)⟩
  | .ok text =>
    let source := String.ofList (Text.unifyNewlines text.toList)
    let s := sh.submit source
    match s.unreported with
    | some r => ⟨.cutOff r, s.transcript⟩
    | none => ⟨.code (if s.ok then 0 else 1), s.transcript⟩

/-- What the arguments lead to: an exit at once, a file to run or a console to feed, with what is
written before. -/
inductive Start where
  | exit (e : Exit)
  | file (before : Transcript) (shell : Shell) (name : String)
  | console (before : Transcript) (dialog : Dialog)

def start (arguments : List String) (generator : Random.Generator) : Start :=
  match request arguments with
  | .error e => .exit (usageExit e)
  | .ok .help => .exit ⟨.code 0, { out := help }⟩
  | .ok (.run settings) =>
    match startShell settings generator with
    | .error r => .exit ⟨.cutOff r, {}⟩
    | .ok (log, shell) =>
      if settings.showsModule && settings.engine = .evaluator then
        .exit ((usageExit .moduleOfEvaluator).after log)
      else
        match settings.file with
        | some name => .file log shell name
        | none =>
          let dialog : Dialog := { shell }
          .console (log ++ { out := dialog.greeting }) dialog

/-- The whole program on a standard input and files that are known. -/
def run (arguments : List String) (generator : Random.Generator) (input : String)
    (file : String → Except FileProblem String) : Exit :=
  match start arguments generator with
  | .exit e => e
  | .file before shell name => (runFile shell name (file name)).after before
  | .console before dialog => (dialog.feedAll (Text.linesOf input)).after before

end DualEngine.Console
