import ScriptTypes.Proofs.Inference.Apart

/-!
# Paths of properties

A path of properties leads from some types to a member if each property is found on a type of the
member before it. While inference goes on, a registry gets new types, and a type that is being
filled gets new members. A member that is found through a parent may then be found on the type
itself, and have other types; so what lasts is that a path leads on if all its properties but the
last are members of the types themselves.
-/

namespace ScriptTypes.Registry

open ScriptTypes.TypeName.Vocabulary

variable {s : Setting} {hs : s.Apart} {r r' r'' : Registry}

/-! ### Registries with more in them -/

/-- The second registry holds the types of the first one, with the same parents, all their members
and perhaps more. -/
def Filled (r r' : Registry) : Prop :=
  ∀ t g, Entries.get? t r = some g → ∃ g', Entries.get? t r' = some g' ∧ g'.parents = g.parents ∧
    ∀ member e, Entries.get? member g.members = some e → Entries.get? member g'.members = some e

namespace Filled

theorem trans (h : r.Filled r') (h' : r'.Filled r'') : r.Filled r'' := by
  intro t g hg
  obtain ⟨g', hg', hparents, hmembers⟩ := h t g hg
  obtain ⟨g'', hg'', hparents', hmembers'⟩ := h' t g' hg'
  exact ⟨g'', hg'', hparents'.trans hparents, fun member e he => hmembers' _ _ (hmembers _ _ he)⟩

theorem parents (h : r.Filled r') {t p : TypeName} (hp : p ∈ r.parents t) : p ∈ r'.parents t := by
  cases hget : Entries.get? t r with
  | none => simp [Registry.parents, hget] at hp
  | some g =>
    obtain ⟨g', hg', hparents, -⟩ := h t g hget
    rwa [parents_of_get?_eq_some hg', hparents, ← parents_of_get?_eq_some hget]

theorem above (h : r.Filled r') {t u : TypeName} (hu : r.Above t u) : r'.Above t u :=
  Relation.ReflTransGen.mono (fun _ _ hp => h.parents hp) _ _ hu

end Filled

theorem Included.filled (h : r.Included r') : r.Filled r' := by
  intro t g hg
  exact ⟨g, (h t (Entries.contains_iff.2 ⟨g, hg⟩)).trans hg, rfl, fun _ _ he => he⟩

/-- A new member leaves the others as they are. -/
theorem filled_addMember {type : TypeName} {member : String} (e : Element)
    (h : ∀ g, Entries.get? type r = some g → Entries.get? member g.members = none) :
    r.Filled (r.addMember type member e) := by
  intro t g hg
  rw [get?_addMember]
  split
  · rename_i heq
    subst heq
    rw [hg, Option.map_some]
    refine ⟨_, rfl, rfl, fun member' e' he' => ?_⟩
    have hne : member' ≠ member := by
      rintro rfl
      cases (h g hg).symm.trans he'
    exact (Entries.get?_upsert_of_ne _ _ hne).trans he'
  · exact ⟨g, hg, rfl, fun _ _ he => he⟩

/-- What is found for a known type is found in a registry with more in it. -/
theorem Closed.lookup_ne_nil_of_filled (h : r.Closed hs) (h' : r'.Closed hs) (hfilled : r.Filled r')
    {t : TypeName} (ht : (r.vocabulary hs).Knows t) {member : String}
    (hfound : r.lookup s.index t member ≠ []) : r'.lookup s.index t member ≠ [] := by
  obtain ⟨u, hu, hown⟩ := exists_own_of_lookup hfound
  rw [hown] at hfound
  have hknows : (r.vocabulary hs).Knows u := by
    cases hu with
    | refl => exact ht
    | tail _ hp => exact h.knows_parents hp
  refine lookup_ne_nil (hfilled.above hu) ?_
  cases hget : Entries.get? u r with
  | some g =>
    obtain ⟨g', hg', -, hmembers⟩ := hfilled u g hget
    rw [own_of_get?_eq_some hget] at hfound
    obtain ⟨e, he⟩ : ∃ e, Entries.get? member g.members = some e := by
      cases hmember : Entries.get? member g.members with
      | none => simp [hmember] at hfound
      | some e => exact ⟨e, rfl⟩
    rw [own_of_get?_eq_some hg', hmembers member e he]
    exact List.cons_ne_nil e []
  | none =>
    -- a known type that is not there cannot be generated
    have hnone : Entries.get? u r' = none := by
      rw [← Entries.contains_eq_false_iff, Bool.eq_false_iff]
      intro hcontains
      obtain ⟨o, ho, rfl⟩ := s.isGenerated_iff.1 (h'.generated u hcontains)
      obtain ⟨g, hg⟩ := Entries.contains_iff.1 ((knows_type_iff ho).1 hknows)
      cases hget.symm.trans hg
    rw [own_of_get?_eq_none hget] at hfound
    rwa [own_of_get?_eq_none hnone]

/-- A type shows what its parents do. -/
theorem lookup_ne_nil_of_parent {index : Index} {t u : TypeName} (hu : u ∈ r.parents t)
    {member : String} (hfound : r.lookup index u member ≠ []) : r.lookup index t member ≠ [] := by
  obtain ⟨v, hv, hown⟩ := exists_own_of_lookup hfound
  exact lookup_ne_nil (.head hu hv) (hown ▸ hfound)

/-! ### Paths -/

/-- Each property of a path is found, and all but the last are members of the types themselves. -/
inductive Leads (r : Registry) (index : Index) : List TypeName → List String → Prop
  | nil {types : List TypeName} : Leads r index types []
  | last {types : List TypeName} {t : TypeName} {p : String} (mem : t ∈ types)
      (found : r.lookup index t p ≠ []) : Leads r index types [p]
  | step {types : List TypeName} {t : TypeName} {g : GeneratedType} {e : Element} {p q : String}
      {path : List String} (mem : t ∈ types) (get : Entries.get? t r = some g)
      (member : Entries.get? p g.members = some e) (rest : Leads r index e.types (q :: path)) :
      Leads r index types (p :: q :: path)

/-- A path leads on in a registry with more in it. -/
theorem Leads.filled {types : List TypeName} {path : List String}
    (hleads : r.Leads s.index types path) (h : r.Closed hs) (h' : r'.Closed hs)
    (hfilled : r.Filled r') (htypes : (r.vocabulary hs).KnowsAll types) :
    r'.Leads s.index types path := by
  induction hleads with
  | nil => exact .nil
  | last mem found =>
    exact .last mem (h.lookup_ne_nil_of_filled h' hfilled (htypes _ mem) found)
  | step mem get member rest ih =>
    obtain ⟨g', hg', -, hmembers⟩ := hfilled _ _ get
    exact .step mem hg' (hmembers _ _ member) (ih (h.members _ _ get _ _ member).types)

/-- Do lookups find something for each property of a path, on all types of the members found for
the one before? -/
def follow (r : Registry) (index : Index) : (types : List TypeName) → (path : List String) → Bool
  | _, [] => true
  | types, p :: path =>
    let found := types.flatMap fun t => r.lookup index t p
    !found.isEmpty && follow r index (found.flatMap Element.types) path

/-- The own member of a type is what a lookup finds. -/
theorem lookup_of_member {index : Index} {t : TypeName} {g : GeneratedType} {p : String}
    {e : Element} (hg : Entries.get? t r = some g) (he : Entries.get? p g.members = some e) :
    r.lookup index t p = [e] := by
  simp [lookup, lookupWithin, hg, he]

theorem Leads.follow {index : Index} {types types' : List TypeName} {path : List String}
    (hleads : r.Leads index types path) (hsubset : types ⊆ types') :
    r.follow index types' path = true := by
  induction hleads generalizing types' with
  | nil => rfl
  | @last _ t p mem found =>
    rw [Registry.follow, Registry.follow, Bool.and_true, Bool.not_eq_true',
      List.isEmpty_eq_false_iff]
    obtain ⟨e, he⟩ := List.exists_mem_of_ne_nil _ found
    exact List.ne_nil_of_mem (List.mem_flatMap.2 ⟨t, hsubset mem, he⟩)
  | @step _ t g e p q path mem get member rest ih =>
    have hfound : e ∈ types'.flatMap fun t => r.lookup index t p :=
      List.mem_flatMap.2 ⟨t, hsubset mem, by simp [lookup_of_member get member]⟩
    rw [Registry.follow, Bool.and_eq_true, Bool.not_eq_true', List.isEmpty_eq_false_iff]
    refine ⟨List.ne_nil_of_mem hfound, ih ?_⟩
    exact fun t ht => List.mem_flatMap.2 ⟨e, hfound, ht⟩

end ScriptTypes.Registry
