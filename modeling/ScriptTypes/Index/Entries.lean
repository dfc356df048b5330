/-!
# Entries in the order of their arrival

A table from names that remembers in which order the names came first.
-/

namespace ScriptTypes

abbrev Entries (α : Type) := List (String × α)

namespace Entries

variable {α : Type}

def get? (name : String) (entries : Entries α) : Option α := entries.lookup name

def contains (name : String) (entries : Entries α) : Bool := (get? name entries).isSome

/-- The names in the order of their arrival. -/
def names (entries : Entries α) : List String := entries.map Prod.fst

/-- Change the value of a name; a new name comes last. -/
def upsert (name : String) (f : Option α → α) : Entries α → Entries α
  | [] => [(name, f none)]
  | (n, a) :: rest =>
    if n = name then (n, f (some a)) :: rest else (n, a) :: upsert name f rest

theorem mem_names_of_get? {name : String} {a : α} {entries : Entries α}
    (h : get? name entries = some a) : name ∈ names entries := by
  obtain ⟨l₁, l₂, rfl, -⟩ := List.lookup_eq_some_iff.1 h
  simp [names]

theorem contains_of_mem_names {name : String} {entries : Entries α} (h : name ∈ names entries) :
    contains name entries = true := by
  induction entries with
  | nil => cases h
  | cons entry rest ih =>
    obtain ⟨n, a⟩ := entry
    by_cases hn : name = n
    · simp [contains, get?, hn]
    · have hn' : (name == n) = false := by simpa using hn
      have hrest := ih ((List.mem_cons.1 h).resolve_left hn)
      simpa [contains, get?, List.lookup_cons, hn'] using hrest

theorem get?_upsert_self (name : String) (f : Option α → α) (entries : Entries α) :
    get? name (upsert name f entries) = some (f (get? name entries)) := by
  unfold get?
  induction entries with
  | nil => simp [upsert]
  | cons e rest ih =>
    obtain ⟨n, a⟩ := e
    unfold upsert
    split
    · rename_i h
      simp [h]
    · rename_i h
      have h' : (name == n) = false := by simpa using Ne.symm h
      simp [List.lookup_cons, h', ih]

theorem get?_upsert_of_ne {name other : String} (f : Option α → α) (entries : Entries α)
    (h : other ≠ name) : get? other (upsert name f entries) = get? other entries := by
  unfold get?
  induction entries with
  | nil =>
    have h' : (other == name) = false := by simpa using h
    simp [upsert, List.lookup_cons, h']
  | cons e rest ih =>
    obtain ⟨n, a⟩ := e
    unfold upsert
    split
    · rename_i hn
      have h' : (other == n) = false := by simpa [hn] using h
      simp [List.lookup_cons, h']
    · by_cases h' : (other == n) = true
      · simp [List.lookup_cons, h']
      · simp [List.lookup_cons, h', ih]

theorem get?_upsert (name other : String) (f : Option α → α) (entries : Entries α) :
    get? other (upsert name f entries)
      = if other = name then some (f (get? name entries)) else get? other entries := by
  split
  · rename_i h
    rw [h, get?_upsert_self]
  · rename_i h
    exact get?_upsert_of_ne f entries h

/-- An entry after a change was there before, or it is the changed one. -/
theorem mem_upsert {name : String} {f : Option α → α} {entries : Entries α} {p : String × α}
    (h : p ∈ upsert name f entries) : p ∈ entries ∨ p = (name, f (get? name entries)) := by
  unfold get?
  induction entries with
  | nil => exact .inr (List.mem_singleton.1 h)
  | cons entry rest ih =>
    obtain ⟨n, a⟩ := entry
    rw [upsert] at h
    split at h
    · rename_i hn
      rcases List.mem_cons.1 h with rfl | h
      · exact .inr (by simp [hn])
      · exact .inl (List.mem_cons_of_mem _ h)
    · rename_i hn
      have hn' : (name == n) = false := by simpa using Ne.symm hn
      rcases List.mem_cons.1 h with rfl | h
      · exact .inl List.mem_cons_self
      · refine (ih h).imp (List.mem_cons_of_mem _) fun heq => ?_
        simpa [List.lookup_cons, hn'] using heq

/-- A new name comes last. -/
theorem names_upsert (name : String) (f : Option α → α) (entries : Entries α) :
    names (upsert name f entries)
      = if name ∈ names entries then names entries else names entries ++ [name] := by
  induction entries with
  | nil => rfl
  | cons entry rest ih =>
    obtain ⟨n, a⟩ := entry
    rw [upsert]
    split
    · rename_i hn
      simp [names, hn]
    · rename_i hn
      have hcons : names ((n, a) :: rest) = n :: names rest := rfl
      have hmem : name ∈ names ((n, a) :: rest) ↔ name ∈ names rest := by
        simp [hcons, Ne.symm hn]
      rw [show names ((n, a) :: upsert name f rest) = n :: names (upsert name f rest) from rfl, ih]
      by_cases h : name ∈ names rest
      · rw [if_pos h, if_pos (hmem.2 h), hcons]
      · rw [if_neg h, if_neg (h ∘ hmem.1), hcons, List.cons_append]

end Entries

end ScriptTypes
