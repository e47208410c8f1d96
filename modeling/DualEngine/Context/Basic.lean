import DualEngine.Context.Table
import DualEngine.Node.Basic
import DualEngine.Text.Quoted

/-! # Contexts

A context binds names to storage with a kind, and function names to definitions with a declared
return kind. It is a value: binding gives a new context whose version is one higher. What storage
is, is up to the engine: a value, or a cell of the machine.
-/
namespace DualEngine

structure Symbol (σ : Type) where
  storage : σ
  kind : Kind

structure Definition where
  params : List String
  body : Node
  returns : Kind
deriving Inhabited

structure Context (σ : Type) where
  symbols : Table (Symbol σ) := {}
  functions : Table Definition := {}
  version : Nat := 0

namespace Context
variable {σ : Type}

def empty : Context σ := {}

def add (c : Context σ) (name : String) (storage : σ) (kind : Kind) : Context σ :=
  { c with symbols := c.symbols.insert name ⟨storage, kind⟩, version := c.version + 1 }

def addFunction (c : Context σ) (name : String) (function : Definition) : Context σ :=
  { c with functions := c.functions.insert name function, version := c.version + 1 }

def get? (c : Context σ) (name : String) : Option (Symbol σ) := c.symbols.get? name

def getFunction? (c : Context σ) (name : String) : Option Definition := c.functions.get? name

/-- Names between brackets, quoted and sorted by code points. -/
def sortedNames (names : List String) : String :=
  let sorted := names.mergeSort fun a b => !decide (b < a)
  "[" ++ ", ".intercalate (sorted.map Text.quoted) ++ "]"

def describe (c : Context σ) : String :=
  "Context(v" ++ toString c.version ++ ", symbols=" ++ sortedNames c.symbols.names
    ++ ", functions=" ++ sortedNames c.functions.names ++ ")"

end Context
end DualEngine
