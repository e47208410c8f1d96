/-! # Brace depth of a line

The console reads lines until as many braces are closed as were opened. Braces inside string
literals and comments do not count.
-/
namespace DualEngine.Console

/-- Where a character of a line stands. -/
inductive Place where
  | code
  | string
  | escape

/-- The change of depth from a place on, through the rest of the line. -/
def balanceFrom : Place → List Char → Int
  | _, [] => 0
  | .escape, _ :: cs => balanceFrom .string cs
  | .string, c :: cs =>
    if c == '\\' then balanceFrom .escape cs
    else if c == '"' then balanceFrom .code cs
    else balanceFrom .string cs
  | .code, c :: cs =>
    if c == '#' then 0
    else if c == '"' then balanceFrom .string cs
    else if c == '\x7b' then balanceFrom .code cs + 1
    else if c == '\x7d' then balanceFrom .code cs - 1
    else balanceFrom .code cs

/-- How much deeper in braces the end of a line is than its start. -/
def balance (line : String) : Int := balanceFrom .code line.toList

end DualEngine.Console
