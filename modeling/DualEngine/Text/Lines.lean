/-! # Lines of text -/
namespace DualEngine.Text

/-- Every way to end a line becomes a line feed. -/
def unifyNewlines : List Char → List Char
  | '\r' :: '\n' :: rest => '\n' :: unifyNewlines rest
  | '\r' :: rest => '\n' :: unifyNewlines rest
  | c :: rest => c :: unifyNewlines rest
  | [] => []

/-- The lines of a text without their ends; `line` holds the characters of the first one so far,
last one first. A line feed at the very end starts no further line. -/
def linesFrom (line : List Char) : List Char → List String
  | [] => if line.isEmpty then [] else [String.ofList line.reverse]
  | c :: rest =>
    if c == '\n' then String.ofList line.reverse :: linesFrom [] rest
    else linesFrom (c :: line) rest

def linesOf (s : String) : List String := linesFrom [] (unifyNewlines s.toList)

end DualEngine.Text
