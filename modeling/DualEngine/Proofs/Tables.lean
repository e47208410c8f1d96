import DualEngine.Context.Table
import Mathlib

/-! # Entries of tables

A table that is built by insertion has every name once, so its entries are what look-up finds.
-/
namespace DualEngine.Table
variable {α : Type} {name : String} {value : α} {bindings entries : List (String × α)}
  {x : String} {t : Table α} {β : Type}

theorem nodup_insert (h : t.names.Nodup) (name : String) (value : α) :
    (t.insert name value).names.Nodup := by
  rw [names_insert]
  split
  · exact h
  · rename_i hn
    refine List.nodup_append.mpr ⟨h, List.nodup_singleton _, fun a ha b hb hab => ?_⟩
    rw [List.mem_singleton.mp hb] at hab
    exact hn (hab ▸ ha)

theorem get?_of_mem (h : t.names.Nodup) (hm : (name, value) ∈ t.entries) :
    t.get? name = some value := by
  obtain ⟨entries⟩ := t
  simp only [names, get?] at h ⊢
  induction entries with
  | nil => simp at hm
  | cons entry rest ih =>
    obtain ⟨key, v⟩ := entry
    rw [List.map_cons, List.nodup_cons] at h
    rw [find?]
    rcases List.mem_cons.mp hm with heq | hm
    · cases heq
      rw [if_pos rfl]
    · have hne : key ≠ name := by
        rintro rfl
        exact h.1 (List.mem_map.mpr ⟨_, hm, rfl⟩)
      rw [if_neg hne]
      exact ih h.2 hm

theorem mem_of_get? (h : t.get? name = some value) : (name, value) ∈ t.entries := by
  obtain ⟨entries⟩ := t
  simp only [get?] at h ⊢
  induction entries with
  | nil => simp [find?] at h
  | cons entry rest ih =>
    obtain ⟨key, v⟩ := entry
    rw [find?] at h
    split at h
    · rename_i heq
      cases h
      exact heq ▸ List.mem_cons_self
    · exact List.mem_cons_of_mem _ (ih h)

theorem filter_put (keep : String → Bool) (hn : keep name = false) (value : α)
    (entries : List (String × α)) :
    (put name value entries).filter (fun entry => keep entry.1) =
      entries.filter fun entry => keep entry.1 := by
  induction entries with
  | nil => simp [put, hn]
  | cons entry rest ih =>
    obtain ⟨key, old⟩ := entry
    rw [put]
    split
    · rename_i heq
      simp [heq, hn]
    · rw [List.filter_cons, List.filter_cons, ih]

theorem find?_filter (keep : String → Bool) (hk : keep name = true) (entries : List (String × α)) :
    find? name (entries.filter fun entry => keep entry.1) = find? name entries := by
  induction entries with
  | nil => rfl
  | cons entry rest ih =>
    obtain ⟨key, value⟩ := entry
    rw [List.filter_cons]
    by_cases hkey : key = name
    · simp [hkey, hk, find?]
    · split
      · simp [find?, hkey, ih]
      · simp [find?, hkey, ih]

theorem mem_put {entry : String × α} (h : entry ∈ put name value entries) :
    entry = (name, value) ∨ entry ∈ entries := by
  induction entries with
  | nil =>
    rw [put, List.mem_singleton] at h
    exact .inl h
  | cons first rest ih =>
    obtain ⟨key, old⟩ := first
    rw [put] at h
    split at h
    · rcases List.mem_cons.mp h with rfl | h
      · exact .inl rfl
      · exact .inr (List.mem_cons_of_mem _ h)
    · rcases List.mem_cons.mp h with rfl | h
      · exact .inr List.mem_cons_self
      · exact (ih h).imp_right (List.mem_cons_of_mem _)

theorem length_insert (h : t.get? name = none) (value : α) :
    (t.insert name value).entries.length = t.entries.length + 1 := by
  obtain ⟨entries⟩ := t
  simp only [get?, insert] at h ⊢
  induction entries with
  | nil => rfl
  | cons entry rest ih =>
    obtain ⟨key, v⟩ := entry
    rw [find?] at h
    split at h
    · cases h
    · rename_i hne
      rw [put, if_neg hne, List.length_cons, ih h, List.length_cons]

theorem find?_map (f : α → β) (name : String) (entries : List (String × α)) :
    find? name (entries.map fun entry => (entry.1, f entry.2)) = (find? name entries).map f := by
  induction entries with
  | nil => rfl
  | cons entry rest ih =>
    obtain ⟨key, v⟩ := entry
    simp only [List.map_cons, find?]
    split
    · rfl
    · exact ih

theorem put_map (f : α → β) (name : String) (value : α) (entries : List (String × α)) :
    put name (f value) (entries.map fun entry => (entry.1, f entry.2)) =
      (put name value entries).map fun entry => (entry.1, f entry.2) := by
  induction entries with
  | nil => rfl
  | cons entry rest ih =>
    obtain ⟨key, v⟩ := entry
    simp only [List.map_cons, put]
    split
    · rfl
    · rw [List.map_cons, ih]

/-- Binding a name to what it is bound to changes nothing. -/
theorem put_self (h : find? name entries = some value) : put name value entries = entries := by
  induction entries with
  | nil => cases h
  | cons entry rest ih =>
    obtain ⟨key, v⟩ := entry
    rw [find?] at h
    rw [put]
    split at h
    · rename_i heq
      cases h
      rw [if_pos heq, heq]
    · rename_i hne
      rw [if_neg hne, ih h]

/-! ## Tables of lists -/

theorem get?_foldl_insert (bindings : List (String × α)) (t : Table α) (x : String) :
    (bindings.foldl (fun t binding => t.insert binding.1 binding.2) t).get? x =
      ((bindings.reverse.find? fun binding => binding.1 = x).map Prod.snd).or (t.get? x) := by
  induction bindings generalizing t with
  | nil => simp
  | cons binding rest ih =>
    rw [List.foldl_cons, ih, get?_insert, List.reverse_cons, List.find?_append]
    cases rest.reverse.find? fun binding => binding.1 = x with
    | some found => simp
    | none => by_cases hx : binding.1 = x <;> simp [hx]

theorem get?_foldl_const (names : List String) (value : α) (t : Table α) (x : String) :
    (names.foldl (fun t name => t.insert name value) t).get? x =
      if x ∈ names then some value else t.get? x := by
  induction names generalizing t with
  | nil => simp
  | cons name rest ih =>
    rw [List.foldl_cons, ih, get?_insert]
    by_cases hx : name = x
    · simp [hx]
    · simp [hx, Ne.symm hx]

/-- The last binding of a name counts. -/
theorem get?_ofList (bindings : List (String × α)) (x : String) :
    (ofList bindings).get? x =
      (bindings.reverse.find? fun binding => binding.1 = x).map Prod.snd := by
  rw [ofList, get?_foldl_insert]
  cases bindings.reverse.find? fun binding => binding.1 = x <;> rfl

theorem mem_of_get?_ofList (h : (ofList bindings).get? x = some value) : (x, value) ∈ bindings := by
  rw [get?_ofList, Option.map_eq_some_iff] at h
  obtain ⟨⟨key, found⟩, hfind, rfl⟩ := h
  have hkey := List.find?_some hfind
  simp only [decide_eq_true_eq] at hkey
  subst hkey
  exact List.mem_reverse.mp (List.mem_of_find?_eq_some hfind)

theorem get?_ofList_of_mem (h : (bindings.map Prod.fst).Nodup) (hm : (x, value) ∈ bindings) :
    (ofList bindings).get? x = some value := by
  cases hfind : (ofList bindings).get? x with
  | none =>
    rw [get?_ofList, Option.map_eq_none_iff, List.find?_eq_none] at hfind
    exact absurd (by simp) (hfind _ (List.mem_reverse.mpr hm))
  | some found =>
    have heq := List.inj_on_of_nodup_map h (mem_of_get?_ofList hfind) hm rfl
    cases heq
    rfl

theorem exists_get?_ofList_zip {names : List String} {values : List α}
    (hlen : names.length ≤ values.length) (hx : x ∈ names) :
    ∃ value, (ofList (names.zip values)).get? x = some value := by
  rw [← List.map_fst_zip hlen] at hx
  obtain ⟨binding, hm, rfl⟩ := List.mem_map.mp hx
  rw [← Option.isSome_iff_exists, get?_ofList, Option.isSome_map, List.find?_isSome]
  exact ⟨binding, List.mem_reverse.mpr hm, by simp⟩

theorem get?_ofList_zip_map (names : List String) (values : List β) (f : β → α) (x : String) :
    (ofList (names.zip (values.map f))).get? x =
      ((ofList (names.zip values)).get? x).map f := by
  rw [get?_ofList, get?_ofList, List.zip_map_right, ← List.map_reverse, List.find?_map]
  simp only [Option.map_map]
  rfl

end DualEngine.Table
