import ScriptTypes.Proofs.Inference.Lookup

/-!
# Registries that include others

One registry includes another if it holds all types of the other as they are there. Registering a
type and adding a member to it are compared here on registries of which one includes the other.
-/

namespace ScriptTypes

namespace Entries

variable {α : Type}

theorem contains_iff {name : String} {entries : Entries α} :
    contains name entries = true ↔ ∃ a, get? name entries = some a := by
  rw [contains, Option.isSome_iff_exists]

theorem contains_eq_false_iff {name : String} {entries : Entries α} :
    contains name entries = false ↔ get? name entries = none := by
  rw [contains, Option.isSome_eq_false_iff, Option.isNone_iff_eq_none]

end Entries

namespace Registry

theorem get?_register (r : Registry) (name : TypeName) (parents : List TypeName) (t : TypeName) :
    Entries.get? t (r.register name parents)
      = (Entries.get? t r).or (if t = name then some ⟨name, parents, []⟩ else none) := by
  rw [register, Entries.get?, List.lookup_append]
  by_cases h : t = name
  · simp [Entries.get?, h]
  · have h' : (t == name) = false := by simpa using h
    simp [Entries.get?, List.lookup_cons, h, h']

theorem get?_addMember (r : Registry) (name : TypeName) (member : String) (e : Element)
    (t : TypeName) :
    Entries.get? t (r.addMember name member e)
      = if t = name then (Entries.get? t r).map fun g =>
          { g with members := Entries.upsert member (fun _ => e) g.members }
        else Entries.get? t r := by
  unfold Entries.get?
  induction r with
  | nil => simp [addMember]
  | cons entry r ih =>
    obtain ⟨n, g⟩ := entry
    simp only [addMember, List.map_cons] at ih ⊢
    by_cases hn : n = name
    · by_cases ht : t = n
      · simp [hn, ht]
      · have ht' : (t == n) = false := by simpa using ht
        simp [List.lookup_cons, hn, hn ▸ ht, hn ▸ ht', ih]
    · by_cases ht : t = n
      · simp [hn, ht]
      · have ht' : (t == n) = false := by simpa using ht
        simp [List.lookup_cons, hn, ht', ih]

theorem contains_register {r : Registry} {name : TypeName} {parents : List TypeName}
    {t : TypeName} :
    Entries.contains t (r.register name parents) = true ↔
      Entries.contains t r = true ∨ t = name := by
  rw [Entries.contains, get?_register, Option.isSome_or, Bool.or_eq_true, ← Entries.contains]
  by_cases h : t = name <;> simp [h]

theorem contains_addMember {r : Registry} {name : TypeName} {member : String} {e : Element}
    {t : TypeName} :
    Entries.contains t (r.addMember name member e) = Entries.contains t r := by
  rw [Entries.contains, get?_addMember]
  split <;> simp [Entries.contains]

/-- A registered type was there before, or it is new and has no members. -/
theorem of_get?_register {r : Registry} {name : TypeName} {parents : List TypeName} {t : TypeName}
    {g : GeneratedType} (h : Entries.get? t (r.register name parents) = some g) :
    Entries.get? t r = some g ∨ g = ⟨name, parents, []⟩ := by
  rw [get?_register, Option.or_eq_some_iff] at h
  rcases h with h | ⟨-, h⟩
  · exact .inl h
  · split at h
    · exact .inr (Option.some.inj h).symm
    · cases h

/-- A type has the members that it had before, and the new one if this belongs to it. -/
theorem of_get?_addMember {r : Registry} {type : TypeName} {member : String} {e : Element}
    {t : TypeName} {g : GeneratedType} (h : Entries.get? t (r.addMember type member e) = some g) :
    ∃ g₀, Entries.get? t r = some g₀ ∧ g.parents = g₀.parents ∧
      ∀ m x, Entries.get? m g.members = some x →
        Entries.get? m g₀.members = some x ∨ t = type ∧ m = member ∧ x = e := by
  rw [get?_addMember] at h
  split at h
  · rename_i ht
    obtain ⟨g₀, hg₀, rfl⟩ := Option.map_eq_some_iff.1 h
    refine ⟨g₀, hg₀, rfl, fun m x hx => ?_⟩
    by_cases hm : m = member
    · subst hm
      rw [Entries.get?_upsert_self] at hx
      exact .inr ⟨ht, rfl, (Option.some.inj hx).symm⟩
    · rw [Entries.get?_upsert_of_ne _ _ hm] at hx
      exact .inl hx
  · exact ⟨g, h, rfl, fun m x hx => .inl hx⟩

/-- The second registry holds what the first one does. -/
def Included (r r' : Registry) : Prop :=
  ∀ t, Entries.contains t r = true → Entries.get? t r' = Entries.get? t r

namespace Included

variable {r r' r'' : Registry} {t : TypeName}

theorem refl (r : Registry) : Included r r := fun _ _ => rfl

theorem contains (h : Included r r') (ht : Entries.contains t r = true) :
    Entries.contains t r' = true := by
  rw [Entries.contains, h t ht]
  exact ht

theorem trans (h : Included r r') (h' : Included r' r'') : Included r r'' :=
  fun t ht => (h' t (h.contains ht)).trans (h t ht)

theorem nil (r : Registry) : Included [] r := fun t ht => by simp [Entries.contains, Entries.get?] at ht

/-- A new type changes none of those that are there. -/
theorem register {name : TypeName} (parents : List TypeName) (h : Included r r') :
    Included r (r'.register name parents) := by
  intro t ht
  obtain ⟨g, hg⟩ := Entries.contains_iff.1 (h.contains ht)
  rw [get?_register, ← h t ht, hg, Option.some_or]

/-- A member changes its own type alone. -/
theorem addMember {name : TypeName} {member : String} {e : Element} (h : Included r r')
    (hname : Entries.contains name r = false) : Included r (r'.addMember name member e) := by
  intro t ht
  have hne : t ≠ name := by
    rintro rfl
    simp [hname] at ht
  rw [get?_addMember, if_neg hne, h t ht]

/-- Both registries get the same new type. -/
theorem register_both {name : TypeName} (parents : List TypeName) (h : Included r r')
    (hname : Entries.contains name r' = false) :
    Included (r.register name parents) (r'.register name parents) := by
  intro t ht
  by_cases hr : Entries.contains t r = true
  · obtain ⟨g, hg⟩ := Entries.contains_iff.1 hr
    rw [get?_register, get?_register, h t hr, hg, Option.some_or]
  · obtain rfl : t = name := (contains_register.1 ht).resolve_left hr
    rw [get?_register, get?_register, Entries.contains_eq_false_iff.1 hname,
      Entries.contains_eq_false_iff.1 (Bool.eq_false_iff.2 hr)]

/-- Both registries get the same member. -/
theorem addMember_both {name : TypeName} (member : String) (e : Element) (h : Included r r') :
    Included (r.addMember name member e) (r'.addMember name member e) := by
  intro t ht
  rw [contains_addMember] at ht
  rw [get?_addMember, get?_addMember, h t ht]

end Included

end Registry

end ScriptTypes
