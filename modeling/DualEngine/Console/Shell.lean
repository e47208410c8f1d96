import DualEngine.Console.Arguments
import DualEngine.Evaluator.Eval
import DualEngine.IR.Text
import DualEngine.Machine.Session
import DualEngine.Node.Outline
import DualEngine.Node.Parse

/-! # Running submissions

A shell runs each submission on one engine or on both, each with a session of its own; the two
share the generator. If both give a value, their texts must agree. Most failures are reported on a
line of their own; the few that are not end the program.
-/
namespace DualEngine.Console

/-- Text for the two output streams. -/
structure Transcript where
  out : String := ""
  err : String := ""

instance : Append Transcript := ⟨fun a b => ⟨a.out ++ b.out, a.err ++ b.err⟩⟩

def outLine (s : String) : Transcript := { out := s ++ "\n" }

def errLine (s : String) : Transcript := { err := s ++ "\n" }

structure Shell where
  settings : Settings
  generator : Random.Generator
  context : Context Value := {}
  session : Machine.Session := {}

/-- The values of a submission by engine; an engine that failed or was not asked has none. -/
structure Results where
  evaluated : Option Value := none
  compiled : Option Value := none

def stageLabel : Stage → String
  | .parse => "[PARSE ERROR]"
  | .lower => "[LOWERING ERROR]"
  | .execute => "[RUNTIME ERROR]"

/-- The line that reports a failure; the engine is named if both run. -/
def reportLine (r : Report) (engine : Option Engine) : Transcript :=
  let source := match engine with
    | none => ""
    | some e => " (" ++ e.name ++ ")"
  errLine (stageLabel r.stage ++ source ++ " " ++ r.text)

def logLine (topic message : String) : String := "DEBUG duet." ++ topic ++ ": " ++ message ++ "\n"

def eventLine : Evaluator.Event → String
  | .predicted function kind =>
    logLine "semantic" ("function " ++ function ++ " predicted -> " ++ kind.text)
  | .defined function params kind =>
    logLine "interpreter"
      ("define " ++ function ++ "(" ++ ", ".intercalate params ++ ") -> " ++ kind.text)
  | .committed before after =>
    logLine "context" ("commit context v" ++ toString before ++ " -> v" ++ toString after)

namespace Shell

/-- How many steps a submission may take. -/
def stepLimit : Nat := Nat.pow 10 12

/-- The engine to name in a report. -/
def named (sh : Shell) (engine : Engine) : Option Engine :=
  if sh.settings.engine = .both then some engine else none

/-- What an engine did with a tree. A failure that is not reported ends the program. -/
structure EngineRun where
  value : Option Value
  transcript : Transcript
  shell : Shell
  unreported : Option Report := none

def failed (sh : Shell) (engine : Engine) (printed : Transcript) (r : Report) : EngineRun :=
  if r.category.isReported then ⟨none, printed ++ reportLine r (sh.named engine), sh, none⟩
  else ⟨none, printed, sh, some r⟩

def evaluate (sh : Shell) (node : Node) : EngineRun :=
  let (result, s) := Evaluator.run stepLimit node ⟨sh.context, sh.generator, "", []⟩
  let log := if sh.settings.verbose then String.join (s.log.reverse.map eventLine) else ""
  let sh := { sh with context := s.context, generator := s.generator }
  let printed : Transcript := ⟨s.out, log⟩
  match result with
  | .ok value => ⟨some value, printed, sh, none⟩
  | .error (.fault cause) => sh.failed .evaluator printed cause.report
  | .error .exhausted => ⟨none, printed, sh, none⟩

def compile (sh : Shell) (node : Node) : EngineRun :=
  let o := sh.session.run stepLimit sh.generator node
  let shown := match o.module with
    | some m => if sh.settings.showsModule then errLine m.write else {}
    | none => {}
  let sh := { sh with session := o.session, generator := o.generator }
  let printed := shown ++ { out := o.out }
  match o.value with
  | .ok value => ⟨some value, printed, sh, none⟩
  | .error (.lowering cause) => sh.failed .compiled printed cause.report.lowering
  | .error (.running _) => ⟨none, printed, sh, none⟩

/-- Whether the texts of two values differ, and the line that tells so. -/
def disagreement? (r : Results) : Option Transcript :=
  match r.evaluated, r.compiled with
  | some a, some b =>
    if a.text = b.text then none
    else some (errLine ("[MISMATCH] interp=" ++ a.text ++ " jit=" ++ b.text))
  | _, _ => none

/-- What became of a submission, and whether all went well. -/
structure Submitted where
  ok : Bool
  results : Results := {}
  transcript : Transcript := {}
  shell : Shell
  unreported : Option Report := none

/-- Runs a tree on the chosen engines. -/
def runTree (sh : Shell) (node : Node) : Submitted :=
  match sh.settings.engine with
  | .evaluator =>
    let r := sh.evaluate node
    ⟨r.value.isSome, { evaluated := r.value }, r.transcript, r.shell, r.unreported⟩
  | .compiled =>
    let r := sh.compile node
    ⟨r.value.isSome, { compiled := r.value }, r.transcript, r.shell, r.unreported⟩
  | .both =>
    let a := sh.evaluate node
    let b := a.shell.compile node
    let results : Results := ⟨a.value, b.value⟩
    let printed := a.transcript ++ b.transcript
    let unreported := a.unreported.or b.unreported
    match disagreement? results with
    | some line => ⟨false, results, printed ++ line, b.shell, unreported⟩
    | none => ⟨a.value.isSome && b.value.isSome, results, printed, b.shell, unreported⟩
  | .neither => { ok := true, shell := sh }

def submit (sh : Shell) (source : String) : Submitted :=
  match parse source with
  | .error e =>
    if e.report.category.isReported then
      { ok := false, transcript := reportLine e.report none, shell := sh }
    else { ok := false, shell := sh, unreported := some e.report }
  | .ok node =>
    let tree := if sh.settings.showsTree then outLine (node.outline 0) else {}
    let r := sh.runTree node
    { r with transcript := tree ++ r.transcript }

end Shell

/-- The value, unless there is none to show. -/
def shown? : Option Value → Option Value
  | some .none => none
  | v => v

/-- What the console shows of the results: one value if all went well, else each under the name of
its engine. -/
def echo (ok : Bool) (r : Results) : Transcript :=
  match ok, shown? r.evaluated, shown? r.compiled with
  | true, some v, _ => outLine v.text
  | true, none, some v => outLine v.text
  | true, none, none => {}
  | false, a, b =>
    let labelled (engine : Engine) (v : Option Value) : Transcript :=
      match v with
      | some v => outLine (engine.name ++ ": " ++ v.text)
      | none => {}
    labelled .evaluator a ++ labelled .compiled b

end DualEngine.Console
