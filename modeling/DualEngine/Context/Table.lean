/-! # Tables in order of first insertion

A name that is bound again keeps its place.
-/
namespace DualEngine

structure Table (α : Type) where
  entries : List (String × α) := []

instance {α : Type} : Inhabited (Table α) := ⟨{}⟩

namespace Table
variable {α : Type}

def find? (name : String) : List (String × α) → Option α
  | [] => none
  | (key, value) :: rest => if key = name then some value else find? name rest

def put (name : String) (value : α) : List (String × α) → List (String × α)
  | [] => [(name, value)]
  | (key, old) :: rest =>
    if key = name then (name, value) :: rest else (key, old) :: put name value rest

def get? (t : Table α) (name : String) : Option α := find? name t.entries

def insert (t : Table α) (name : String) (value : α) : Table α := ⟨put name value t.entries⟩

def contains (t : Table α) (name : String) : Bool := (t.get? name).isSome

def names (t : Table α) : List String := t.entries.map Prod.fst

/-- The table of a list of bindings; a later one replaces an earlier one of the same name. -/
def ofList (bindings : List (String × α)) : Table α :=
  bindings.foldl (fun t binding => t.insert binding.1 binding.2) {}

theorem find?_put (name other : String) (value : α) (entries : List (String × α)) :
    find? other (put name value entries) =
      if name = other then some value else find? other entries := by
  induction entries with
  | nil => simp [put, find?]
  | cons entry rest ih =>
    obtain ⟨key, old⟩ := entry
    by_cases hk : key = name
    · subst hk
      simp only [put, if_true, find?]
      split <;> rfl
    · simp only [put, hk, if_false, find?, ih]
      by_cases ho : key = other
      · subst ho
        simp [Ne.symm hk]
      · simp [ho]

theorem get?_insert (t : Table α) (name other : String) (value : α) :
    (t.insert name value).get? other = if name = other then some value else t.get? other :=
  find?_put name other value t.entries

theorem find?_isSome_iff (name : String) (entries : List (String × α)) :
    (find? name entries).isSome = true ↔ name ∈ entries.map Prod.fst := by
  induction entries with
  | nil => simp [find?]
  | cons entry rest ih =>
    obtain ⟨key, value⟩ := entry
    by_cases hk : key = name
    · simp [find?, hk]
    · simp [find?, hk, ih, Ne.symm hk]

theorem contains_iff (t : Table α) (name : String) : t.contains name = true ↔ name ∈ t.names :=
  find?_isSome_iff name t.entries

theorem map_fst_put (name : String) (value : α) (entries : List (String × α)) :
    (put name value entries).map Prod.fst =
      if name ∈ entries.map Prod.fst then entries.map Prod.fst
      else entries.map Prod.fst ++ [name] := by
  induction entries with
  | nil => simp [put]
  | cons entry rest ih =>
    obtain ⟨key, old⟩ := entry
    by_cases hk : key = name
    · simp [put, hk]
    · simp only [put, hk, if_false, List.map_cons, ih, List.mem_cons, Ne.symm hk, false_or]
      split <;> rfl

/-- A new name comes last, and a name that is bound again keeps its place. -/
theorem names_insert (t : Table α) (name : String) (value : α) :
    (t.insert name value).names = if name ∈ t.names then t.names else t.names ++ [name] :=
  map_fst_put name value t.entries

end Table
end DualEngine
