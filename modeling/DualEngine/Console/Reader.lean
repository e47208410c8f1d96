import DualEngine.Console.Balance
import DualEngine.Text.Blank

/-! # Lines into submissions

Lines are gathered until their braces are closed. Blank lines and the words that leave the console
count only between submissions.
-/
namespace DualEngine.Console

/-- The lines gathered so far and the depth of braces after them. -/
structure Reader where
  lines : List String := []
  depth : Int := 0

inductive Reading where
  | more (reader : Reader)
  | submit (source : String)
  | quit

def quitWords : List String := ["exit", "quit", ":q"]

def Reader.feed (r : Reader) (line : String) : Reading :=
  let word := Text.strip line
  if r.lines.isEmpty && quitWords.contains word then .quit
  else if r.lines.isEmpty && word.isEmpty then .more r
  else
    let lines := r.lines ++ [line]
    let depth := r.depth + balance line
    if 0 < depth then .more ⟨lines, depth⟩ else .submit ("\n".intercalate lines)

/-- The submissions that lines make up, as far as they are complete. -/
def submissions (r : Reader) : List String → List String
  | [] => []
  | line :: rest =>
    match r.feed line with
    | .more r => submissions r rest
    | .submit source => source :: submissions {} rest
    | .quit => []

def Reader.prompt (r : Reader) : String := if r.lines.isEmpty then "duet> " else "...> "

end DualEngine.Console
