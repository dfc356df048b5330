/-!
# Maps from names

A map from names is a list of entries in increasing order of their names. Names are compared
character by character, which is also the order of their UTF-8 bytes.
-/

namespace ScriptTypes

abbrev NameMap (α : Type) := List (String × α)

namespace NameMap

variable {α : Type}

/-- The value of a name. -/
def get? (name : String) : NameMap α → Option α
  | [] => none
  | (n, a) :: rest => if n = name then some a else get? name rest

def contains (name : String) (entries : NameMap α) : Bool := (get? name entries).isSome

/-- Change the value of a name, which enters at its place if it is new. -/
def upsert (name : String) (f : Option α → α) : NameMap α → NameMap α
  | [] => [(name, f none)]
  | (n, a) :: rest =>
    if n = name then (n, f (some a)) :: rest
    else if name < n then (name, f none) :: (n, a) :: rest
    else (n, a) :: upsert name f rest

@[simp] theorem get?_nil (name : String) : get? name ([] : NameMap α) = none := rfl

theorem mem_of_get?_eq_some {name : String} {a : α} {entries : NameMap α}
    (h : get? name entries = some a) : (name, a) ∈ entries := by
  induction entries with
  | nil => simp at h
  | cons e rest ih =>
    obtain ⟨n, b⟩ := e
    unfold get? at h
    split at h
    · rename_i heq
      simp_all
    · exact List.mem_cons_of_mem _ (ih h)

theorem exists_get?_of_mem {e : String × α} {entries : NameMap α} (h : e ∈ entries) :
    ∃ a, get? e.1 entries = some a := by
  induction entries with
  | nil => cases h
  | cons e' rest ih =>
    unfold get?
    split
    · exact ⟨_, rfl⟩
    · rename_i hne
      rcases List.mem_cons.1 h with rfl | h
      · exact absurd rfl hne
      · exact ih h

/-- An entry after a change was there before, or it is the changed one. -/
theorem mem_upsert {name : String} {f : Option α → α} {entries : NameMap α} {e : String × α}
    (h : e ∈ upsert name f entries) :
    e ∈ entries ∨ ∃ old : Option α, (∀ a ∈ old, (name, a) ∈ entries) ∧ e = (name, f old) := by
  induction entries with
  | nil => exact .inr ⟨none, by simp, List.mem_singleton.1 h⟩
  | cons e' rest ih =>
    obtain ⟨n, a⟩ := e'
    unfold upsert at h
    split at h
    · rename_i heq
      subst heq
      rcases List.mem_cons.1 h with rfl | h
      · exact .inr ⟨some a, by simp, rfl⟩
      · exact .inl (List.mem_cons_of_mem _ h)
    · split at h
      · rcases List.mem_cons.1 h with rfl | h
        · exact .inr ⟨none, by simp, rfl⟩
        · exact .inl h
      · rcases List.mem_cons.1 h with rfl | h
        · exact .inl (by simp)
        · rcases ih h with h | ⟨old, hold, heq⟩
          · exact .inl (List.mem_cons_of_mem _ h)
          · exact .inr ⟨old, fun a ha => List.mem_cons_of_mem _ (hold a ha), heq⟩

theorem get?_upsert_self {name : String} {f : Option α → α} {entries : NameMap α}
    (h : entries.Pairwise fun a b => a.1 < b.1) :
    get? name (upsert name f entries) = some (f (get? name entries)) := by
  induction entries with
  | nil => simp [upsert, get?]
  | cons e rest ih =>
    obtain ⟨n, a⟩ := e
    obtain ⟨hn, hrest⟩ := List.pairwise_cons.1 h
    unfold upsert
    split
    · rename_i heq
      simp [get?, heq]
    · rename_i hne
      split
      · rename_i hlt
        have habsent : get? name rest = none := by
          clear ih hrest h
          induction rest with
          | nil => rfl
          | cons e' rest' ih' =>
            obtain ⟨n', a'⟩ := e'
            have hn' : n < n' := hn (n', a') (by simp)
            have hne' : n' ≠ name := by
              rintro rfl
              exact String.lt_asymm hlt hn'
            simp only [get?, hne', if_false]
            exact ih' fun b hb => hn b (by simp [hb])
        simp [get?, hne, habsent]
      · simp [get?, hne, ih hrest]

theorem get?_upsert_of_ne {name other : String} {f : Option α → α} {entries : NameMap α}
    (h : other ≠ name) : get? other (upsert name f entries) = get? other entries := by
  induction entries with
  | nil => simp [upsert, get?, Ne.symm h]
  | cons e rest ih =>
    obtain ⟨n, a⟩ := e
    unfold upsert
    split
    · rename_i heq
      subst heq
      simp [get?, Ne.symm h]
    · split
      · simp [get?, Ne.symm h]
      · simp [get?, ih]

end NameMap

end ScriptTypes
