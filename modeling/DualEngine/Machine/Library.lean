import DualEngine.Decimal.Significant
import DualEngine.Machine.Memory

/-! # The library functions of the machine

Formatting, allocation, copying and comparing of texts, and the random generator.
-/
namespace DualEngine.Machine

/-- The text of a double. Generated code only meets negative NaNs. -/
def doubleText (x : Float) : String :=
  if x.isNaN then "-nan" else Decimal.significant x

def readText (a : Address) : Run String := do ofOption .memory ((← get).memory.text? a)

/-- A format with its directives replaced by the arguments in order. -/
def format : List Char → List Word → Run (List Char)
  | '%' :: 'd' :: rest, .int n :: args =>
    return (toString n.toInt).toList ++ (← format rest args)
  | '%' :: 'g' :: rest, .double x :: args =>
    return (doubleText x).toList ++ (← format rest args)
  | '%' :: 's' :: rest, .address a :: args => do
    let s ← readText a
    return s.toList ++ (← format rest args)
  | '%' :: _, _ => trap .malformed
  | c :: rest, args => return c :: (← format rest args)
  | [], _ => pure []

/-- The text that a format at an address makes of its arguments. -/
def formatAt (a : Address) (args : List Word) : Run String := do
  let directives ← readText a
  return String.ofList (← format directives.toList args)

/-- The length of a text in bytes. -/
def lengthWord (s : String) : Word := .int (Int32.ofNat s.utf8ByteSize)

def allocate (size : Nat) (contents : Contents) : Run Word := do
  let s ← get
  let (a, memory) := s.memory.allocate size contents
  set { s with memory }
  pure (.address a)

/-- Texts are ordered by their bytes, which is the order of their characters. -/
def orderWord (a b : String) : Word :=
  .int (if a < b then -1 else if b < a then 1 else 0)

/-! ## The functions

Each is given the words of its arguments; there is no result if a function returns nothing. -/

def callPrintf : List Word → Run (Option Word)
  | .address a :: args => do
    let s ← formatAt a args
    modify fun state => { state with out := state.out ++ s }
    pure (some (lengthWord s))
  | _ => trap .malformed

def callSprintf : List Word → Run (Option Word)
  | .address buffer :: .address a :: args => do
    let s ← formatAt a args
    let state ← get
    let memory ← ofOption .memory (state.memory.writeText? buffer s)
    set { state with memory }
    pure (some (lengthWord s))
  | _ => trap .malformed

/-- Only the length is ever asked for. -/
def callSnprintf : List Word → Run (Option Word)
  | .address .null :: .long n :: .address a :: args => do
    if n = 0 then return some (lengthWord (← formatAt a args))
    else trap .malformed
  | _ => trap .malformed

def callMalloc : List Word → Run (Option Word)
  | [.long n] => some <$> allocate n.toInt.toNat .blank
  | _ => trap .malformed

def callStrdup : List Word → Run (Option Word)
  | [.address a] => do
    let s ← readText a
    some <$> allocate (s.utf8ByteSize + 1) (.text s)
  | _ => trap .malformed

def callStrcmp : List Word → Run (Option Word)
  | [.address a, .address b] => do
    let s ← readText a
    let t ← readText b
    pure (some (orderWord s t))
  | _ => trap .malformed

def callRandom : List Word → Run (Option Word)
  | [] => do
    let state ← get
    let (n, generator) := state.generator.int
    set { state with generator }
    pure (some (.int (Int32.ofInt n)))
  | _ => trap .malformed

def callLibrary (name : String) (args : List Word) : Run (Option Word) :=
  match name with
  | "printf" => callPrintf args
  | "sprintf" => callSprintf args
  | "snprintf" => callSnprintf args
  | "malloc" => callMalloc args
  | "strdup" => callStrdup args
  | "strcmp" => callStrcmp args
  | "duet_random" => callRandom args
  | _ => trap .malformed

end DualEngine.Machine
