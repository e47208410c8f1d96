import DualEngine.SourceError
import DualEngine.Text.Blank
import DualEngine.Text.Digit

/-! # Command-line arguments

Options may be shortened as long as only one fits, take their value after `=` or as the next
argument, and may stand before and after the file. After `--` everything is a file. All arguments
are classified before the first of them takes effect.
-/
namespace DualEngine.Console

/-- The engines that run a submission; with neither it is only parsed. -/
inductive Engine where
  | evaluator
  | compiled
  | both
  | neither
deriving DecidableEq, Repr

def Engine.name : Engine → String
  | .evaluator => "interp"
  | .compiled => "jit"
  | .both => "both"
  | .neither => "[]"

/-- The engines that can be chosen by name. -/
def Engine.choices : List Engine := [.evaluator, .compiled, .both]

/-- The seed that is asked for: a number, or an empty value that seeds nothing. -/
inductive Seed where
  | number (n : Int)
  | empty

structure Settings where
  engine : Engine := .evaluator
  showsModule : Bool := false
  showsTree : Bool := false
  seed : Option Seed := none
  verbose : Bool := false
  file : Option String := none

inductive Flag where
  | help
  | engine
  | emitModule
  | tree
  | seed
  | verbose
deriving DecidableEq, Repr

namespace Flag

/-- All spellings in the order in which matches are listed. -/
def spellings : List (String × Flag) :=
  [("-h", .help), ("--help", .help), ("--engine", .engine), ("--emit-ir", .emitModule),
    ("--ast", .tree), ("--seed", .seed), ("--verbose", .verbose)]

def ofSpelling? (s : String) : Option Flag := spellings.lookup s

/-- The name of a flag in messages: its spellings. -/
def name (f : Flag) : String :=
  "/".intercalate ((spellings.filter fun entry => entry.2 = f).map Prod.fst)

def takesValue : Flag → Bool
  | .engine | .seed => true
  | _ => false

end Flag

inductive UsageError where
  | invalidChoice (value : String)
  | invalidSeed (value : String)
  | missingValue (flag : Flag)
  | ignoredValue (flag : Flag) (value : String)
  | ambiguous (argument : String) (candidates : List String)
  | unrecognized (arguments : List String)
  | moduleOfEvaluator

def UsageError.message : UsageError → String
  | .invalidChoice value =>
    "argument --engine: invalid choice: " ++ Text.quoted value ++ " (choose from "
      ++ ", ".intercalate (Engine.choices.map fun e => Text.quoted e.name) ++ ")"
  | .invalidSeed value => "argument --seed: invalid int value: " ++ Text.quoted value
  | .missingValue flag => "argument " ++ flag.name ++ ": expected one argument"
  | .ignoredValue flag value =>
    "argument " ++ flag.name ++ ": ignored explicit argument " ++ Text.quoted value
  | .ambiguous argument candidates =>
    "ambiguous option: " ++ argument ++ " could match " ++ ", ".intercalate candidates
  | .unrecognized arguments => "unrecognized arguments: " ++ " ".intercalate arguments
  | .moduleOfEvaluator => "--emit-ir needs --engine jit or both"

/-- An option may have a value attached to it, after `=` or directly after a one-letter option. -/
inductive Argument where
  | option (flag : Flag) (spelling : String) (value : Option String)
  | unknown (text : String)
  | plain (text : String)
  | dashes

/-- The text before the first `=` and the text after it, if there is one. -/
def splitEquals (s : String) : String × Option String :=
  match s.toList.dropWhile (· != '=') with
  | [] => (s, none)
  | _ :: value => (String.ofList (s.toList.takeWhile (· != '=')), some (String.ofList value))

/-- A minus and decimal digits, with or without a point that more digits follow. -/
def looksNegative (cs : List Char) : Bool :=
  let isDecimal (c : Char) : Bool := (Text.decimalValue? c).isSome
  match cs with
  | '-' :: digits =>
    let body := if digits.getLast? = some '\n' then digits.dropLast else digits
    match body.dropWhile isDecimal with
    | [] => !body.isEmpty
    | '.' :: fraction => !fraction.isEmpty && fraction.all isDecimal
    | _ => false
  | _ => false

/-- The options that an argument may be short for. -/
def candidates (s : String) : List Argument :=
  match s.toList with
  | '-' :: '-' :: _ =>
    let (start, value) := splitEquals s
    Flag.spellings.filterMap fun (spelling, flag) =>
      if start.toList.isPrefixOf spelling.toList then
        some (.option flag spelling value)
      else none
  | a :: b :: rest =>
    Flag.spellings.filterMap fun (spelling, flag) =>
      if spelling = String.ofList [a, b] then
        some (.option flag spelling (some (String.ofList rest)))
      else if s.toList.isPrefixOf spelling.toList then some (.option flag spelling none)
      else none
  | _ => []

def Argument.spelling : Argument → String
  | .option _ spelling _ => spelling
  | .unknown text => text
  | .plain text => text
  | .dashes => "--"

def classify (s : String) : Except UsageError Argument :=
  match s.toList with
  | '-' :: _ :: _ =>
    match Flag.ofSpelling? s with
    | some flag => .ok (.option flag s none)
    | none =>
      match splitEquals s with
      | (start, some value) =>
        match Flag.ofSpelling? start with
        | some flag => .ok (.option flag start (some value))
        | none => shortened s
      | (_, none) => shortened s
  | _ => .ok (.plain s)
where
  /-- An argument that is no full option. -/
  shortened (s : String) : Except UsageError Argument :=
    match candidates s with
    | [candidate] => .ok candidate
    | [] =>
      if looksNegative s.toList || s.toList.contains ' ' then .ok (.plain s) else .ok (.unknown s)
    | several => .error (.ambiguous s (several.map Argument.spelling))

/-- All arguments classified; after `--` they are plain. -/
def classifyAll : List String → Except UsageError (List Argument)
  | [] => .ok []
  | s :: rest =>
    if s = "--" then .ok (.dashes :: rest.map Argument.plain)
    else do
      let argument ← classify s
      return argument :: (← classifyAll rest)

/-- An integer as a text may give it: blanks around it, a sign, single underscores between
digits. -/
def readInteger? (s : String) : Option Int :=
  let isMargin (c : Char) : Bool := Text.isBlank c && !(0x1C ≤ c.toNat && c.toNat ≤ 0x1F)
  let trimmed := ((s.toList.dropWhile isMargin).reverse.dropWhile isMargin).reverse
  match trimmed with
  | '-' :: digits => (magnitude? digits).map fun n => -(n : Int)
  | '+' :: digits => (magnitude? digits).map fun n => (n : Int)
  | digits => (magnitude? digits).map fun n => (n : Int)
where
  /-- Digits in groups between single underscores. -/
  magnitude? (cs : List Char) : Option Nat :=
    let groups := cs.splitOn '_'
    if groups.any List.isEmpty || maxDigits < groups.flatten.length then none
    else Text.decimal? groups.flatten

/-- What an option with its value does to the settings. The value `--` is dropped and leaves an
empty one, which is not checked. -/
def Settings.apply (s : Settings) (flag : Flag) (value : String) : Except UsageError Settings :=
  match flag with
  | .engine =>
    if value = "--" then .ok { s with engine := .neither }
    else
      match Engine.choices.find? fun e => e.name == value with
      | some engine => .ok { s with engine }
      | none => .error (.invalidChoice value)
  | .seed =>
    if value = "--" then .ok { s with seed := some .empty }
    else
      match readInteger? value with
      | some n => .ok { s with seed := some (.number n) }
      | none => .error (.invalidSeed value)
  | .emitModule => .ok { s with showsModule := true }
  | .tree => .ok { s with showsTree := true }
  | .verbose => .ok { s with verbose := true }
  | .help => .ok s

inductive Request where
  | help
  | run (settings : Settings)

def isLetterOption (c : Char) : Bool := (Flag.ofSpelling? (String.ofList ['-', c])).isSome

/-- What a value attached to an option without one asks for. After a one-letter option it is more
such letters; what does not belong to them is a value that no option takes. -/
def attached (flag : Flag) (spelling value : String) : Except UsageError Request :=
  if spelling.length = 2 ∧ value ≠ "" then
    match value.toList.dropWhile isLetterOption with
    | [] => .ok .help
    | rest => .error (.ignoredValue flag (String.ofList rest))
  else .error (.ignoredValue flag value)

/-- The settings so far, whether a file was seen, and what was not recognised. -/
structure Progress where
  settings : Settings := {}
  fileSeen : Bool := false
  extras : List String := []

/-- Arguments after the last option: the first is the file unless there is one, the others are
unrecognised. -/
def Progress.finish (p : Progress) (arguments : List Argument) : Except UsageError Request :=
  let texts := arguments.map Argument.spelling
  let (settings, rest) :=
    if p.fileSeen then (p.settings, texts)
    else
      match arguments with
      | .dashes :: .plain file :: _ => ({ p.settings with file := some file }, texts.drop 2)
      | .plain file :: .dashes :: _ => ({ p.settings with file := some file }, texts.drop 2)
      | .plain file :: _ => ({ p.settings with file := some file }, texts.drop 1)
      | .dashes :: _ => (p.settings, texts.drop 1)
      | _ => (p.settings, texts)
  match p.extras ++ rest with
  | [] => .ok (.run settings)
  | extras => .error (.unrecognized extras)

def isOption : Argument → Bool
  | .option .. | .unknown _ => true
  | _ => false

/-- Lets the arguments take effect one after the other, as long as an option is left. -/
def Progress.advance (p : Progress) : List Argument → Except UsageError Request
  | [] => p.finish []
  | .unknown text :: rest => Progress.advance { p with extras := p.extras ++ [text] } rest
  | .option flag spelling (some value) :: rest =>
    if flag.takesValue then do
      let settings ← p.settings.apply flag value
      Progress.advance { p with settings } rest
    else attached flag spelling value
  | .option .help _ none :: _ => .ok .help
  | .option flag _ none :: rest =>
    if flag.takesValue then
      match rest with
      | .plain value :: rest => do
        let settings ← p.settings.apply flag value
        Progress.advance { p with settings } rest
      | _ => .error (.missingValue flag)
    else do
      let settings ← p.settings.apply flag ""
      Progress.advance { p with settings } rest
  | .plain text :: rest =>
    if rest.any isOption then
      if p.fileSeen then Progress.advance { p with extras := p.extras ++ [text] } rest
      else
        let settings := { p.settings with file := some text }
        Progress.advance { p with settings, fileSeen := true } rest
    else p.finish (.plain text :: rest)
  | .dashes :: rest => p.finish (.dashes :: rest)

/-- What the arguments ask for. -/
def request (arguments : List String) : Except UsageError Request := do
  Progress.advance {} (← classifyAll arguments)

end DualEngine.Console
