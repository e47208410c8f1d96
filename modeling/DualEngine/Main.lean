import DualEngine.Console.Program

/-! # The executable -/
namespace DualEngine.Console

def readSource (name : String) : IO (Except FileProblem String) := do
  try
    return .ok (← IO.FS.readFile name)
  catch
    | .noFileOrDirectory .. => return .error .missing
    | .permissionDenied .. => return .error .denied
    | _ => return .error .directory

def Transcript.put (t : Transcript) : IO Unit := do
  let out ← IO.getStdout
  let err ← IO.getStderr
  out.putStr t.out
  out.flush
  err.putStr t.err
  err.flush

/-- The exit code of an ending; what cut the program off is told first. -/
def Ending.finish : Ending → IO UInt32
  | .code n => return n.toUInt32
  | .cutOff r => do
    (errLine r.text).put
    return 1

/-- Feeds lines and says what comes after them. -/
def Dialog.putAll (d : Dialog) : List String → IO Next
  | [] => return .go d
  | line :: rest => do
    let (t, next) := d.feed line
    t.put
    match next, rest with
    | .go d, _ :: _ =>
      Transcript.put { out := d.reader.prompt }
      d.putAll rest
    | next, _ => return next

/-- Reads lines until the input or the console ends. -/
partial def Dialog.serve (d : Dialog) : IO Ending := do
  Transcript.put { out := d.reader.prompt }
  let input ← (← IO.getStdin).getLine
  match Text.linesOf input with
  | [] =>
    Transcript.put { out := "\n" }
    return .code 0
  | lines =>
    match ← d.putAll lines with
    | .go d => d.serve
    | .stop ending => return ending

end DualEngine.Console

open DualEngine DualEngine.Console in
def main (arguments : List String) : IO UInt32 := do
  let generator := Random.seed (← IO.monoNanosNow)
  match start arguments generator with
  | .exit e =>
    e.transcript.put
    e.ending.finish
  | .file before shell name =>
    before.put
    let e := runFile shell name (← readSource name)
    e.transcript.put
    e.ending.finish
  | .console before dialog =>
    before.put
    (← dialog.serve).finish
