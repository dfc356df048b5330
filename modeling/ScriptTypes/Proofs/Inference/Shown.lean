import ScriptTypes.Proofs.Inference.Lookup

/-!
# What a lookup finds

A lookup visits a type and what is above it in the registry, and stops at the first type that has
the member itself. So it finds a member exactly if some type above the start has one, in whatever
order the types are visited and wherever their parents form cycles.
-/

namespace ScriptTypes.Registry

variable {r : Registry} {index : Index} {member : String}

/-- The members of a name that a type has itself: one of a generated type, or what the index shows
for any other one. -/
def own (r : Registry) (index : Index) (type : TypeName) (member : String) : List Element :=
  match Entries.get? type r with
  | none => index.members type member
  | some g => (Entries.get? member g.members).toList

theorem own_of_get?_eq_none {type : TypeName} (h : Entries.get? type r = none) :
    r.own index type member = index.members type member := by
  rw [own, h]

theorem own_of_get?_eq_some {type : TypeName} {g : GeneratedType}
    (h : Entries.get? type r = some g) :
    r.own index type member = (Entries.get? member g.members).toList := by
  rw [own, h]

theorem parents_of_get?_eq_some {type : TypeName} {g : GeneratedType}
    (h : Entries.get? type r = some g) : r.parents type = g.parents := by
  rw [parents, h]

/-- A type, its parents, their parents and so on. -/
abbrev Above (r : Registry) : TypeName → TypeName → Prop :=
  Relation.ReflTransGen fun t p => p ∈ r.parents t

/-- What a search has found, and which types it has seen, if it began at some types and others had
been seen before: either a type above one of them has what is found, or all of them have been seen,
and neither they nor what is above them have the member. -/
structure Searched (r : Registry) (index : Index) (member : String) (types seen : List TypeName)
    (found : List Element × List TypeName) : Prop where
  subset : seen ⊆ found.2
  some : found.1 ≠ [] → ∃ t ∈ types, ∃ u, r.Above t u ∧ found.1 = r.own index u member
  none : found.1 = [] → types ⊆ found.2 ∧
    ∀ u ∈ found.2, u ∉ seen → r.own index u member = [] ∧ r.parents u ⊆ found.2

theorem searched_firstFound
    {look : List TypeName → TypeName → Option (List Element × List TypeName)}
    (hlook : ∀ seen t found, look seen t = some found → Searched r index member [t] seen found)
    {types seen : List TypeName} {found : List Element × List TypeName}
    (h : firstFound look seen types = some found) :
    Searched r index member types seen found := by
  induction types generalizing seen with
  | nil =>
    cases h
    exact ⟨List.Subset.refl _, fun hne => absurd rfl hne,
      fun _ => ⟨List.nil_subset _, fun u hu hseen => absurd hu hseen⟩⟩
  | cons t types ih =>
    unfold firstFound at h
    split at h
    · cases h
    · rename_i seen' heq
      have hfirst := hlook seen t _ heq
      have hrest := ih h
      refine ⟨List.Subset.trans hfirst.subset hrest.subset, fun hne => ?_, fun hnil => ?_⟩
      · obtain ⟨u, hu, hfound⟩ := hrest.some hne
        exact ⟨u, List.mem_cons_of_mem _ hu, hfound⟩
      · have hsubset := List.Subset.trans (hfirst.none rfl).1 hrest.subset
        refine ⟨List.cons_subset.2 ⟨hsubset List.mem_cons_self, (hrest.none hnil).1⟩, ?_⟩
        intro u hu hseen
        by_cases hu' : u ∈ seen'
        · obtain ⟨hown, hparents⟩ := (hfirst.none rfl).2 u hu' hseen
          exact ⟨hown, List.Subset.trans hparents hrest.subset⟩
        · exact (hrest.none hnil).2 u hu hu'
    · rename_i hne heq
      cases h
      have hfirst := hlook seen t _ heq
      have hfound : found.1 ≠ [] := by
        intro hnil
        exact hne found.2 (by rw [← hnil])
      refine ⟨hfirst.subset, fun _ => ?_, fun hnil => absurd hnil hfound⟩
      obtain ⟨u, hu, hsome⟩ := hfirst.some hfound
      exact ⟨u, List.mem_cons.2 (.inl (List.mem_singleton.1 hu)), hsome⟩

theorem searched_lookupWithin {depth : Nat} {seen : List TypeName} {type : TypeName}
    {found : List Element × List TypeName}
    (h : lookupWithin r index member depth seen type = some found) :
    Searched r index member [type] seen found := by
  induction depth generalizing seen type found with
  | zero => cases h
  | succ depth ih =>
    unfold lookupWithin at h
    split at h
    · rename_i hseen
      cases h
      refine ⟨List.Subset.refl _, fun hne => absurd rfl hne, fun _ => ⟨?_, fun u hu hseen => ?_⟩⟩
      · simpa using hseen
      · exact absurd hu hseen
    · dsimp only at h
      split at h
      · rename_i hget
        cases h
        have hown : index.members type member = r.own index type member :=
          (own_of_get?_eq_none hget).symm
        refine ⟨List.subset_cons_self _ _, fun _ => ⟨type, by simp, type, .refl, hown⟩,
          fun hnil => ?_⟩
        refine ⟨by simp, fun u hu hseen => ?_⟩
        obtain rfl := (List.mem_cons.1 hu).resolve_right hseen
        exact ⟨hown ▸ hnil, by simp [parents, hget]⟩
      · rename_i g hget
        split at h
        · rename_i e hmember
          cases h
          have hown : [e] = r.own index type member := by
            rw [own_of_get?_eq_some hget, hmember]
            rfl
          exact ⟨List.subset_cons_self _ _, fun _ => ⟨type, by simp, type, .refl, hown⟩,
            fun hnil => by cases hnil⟩
        · rename_i hmember
          have hparents := parents_of_get?_eq_some hget
          have hrest := searched_firstFound (fun seen t found => ih) h
          refine ⟨List.Subset.trans (List.subset_cons_self _ _) hrest.subset, fun hne => ?_,
            fun hnil => ⟨?_, fun u hu hseen => ?_⟩⟩
          · obtain ⟨p, hp, u, hu, hfound⟩ := hrest.some hne
            exact ⟨type, by simp, u, .head (hparents ▸ hp) hu, hfound⟩
          · exact List.cons_subset.2 ⟨hrest.subset List.mem_cons_self, List.nil_subset _⟩
          · by_cases hu' : u = type
            · subst hu'
              rw [own_of_get?_eq_some hget, hmember, hparents]
              refine ⟨rfl, ?_⟩
              exact (hrest.none hnil).1
            · exact (hrest.none hnil).2 u hu (by simp [hu', hseen])

variable (r index member) in
theorem exists_searched (type : TypeName) :
    ∃ seen, Searched r index member [type] [] (r.lookup index type member, seen) := by
  obtain ⟨⟨es, seen⟩, hfound, -⟩ : ∃ found, lookupWithin r index member (r.length + 1) [] type
      = some found ∧ [] ⊆ found.2 :=
    exists_lookupWithin type (by simp [unseen_nil, Entries.names])
  refine ⟨seen, ?_⟩
  rw [lookup, hfound]
  exact searched_lookupWithin hfound

/-- What a lookup finds is what some type above the start has itself. -/
theorem exists_own_of_lookup {type : TypeName} (h : r.lookup index type member ≠ []) :
    ∃ u, r.Above type u ∧ r.lookup index type member = r.own index u member := by
  obtain ⟨seen, hsearched⟩ := exists_searched r index member type
  obtain ⟨t, ht, u, hu, hown⟩ := hsearched.some h
  obtain rfl := List.mem_singleton.1 ht
  exact ⟨u, hu, hown⟩

/-- A lookup misses no type above the start. -/
theorem lookup_ne_nil {type u : TypeName} (hu : r.Above type u) (h : r.own index u member ≠ []) :
    r.lookup index type member ≠ [] := by
  intro hnil
  obtain ⟨seen, hsearched⟩ := exists_searched r index member type
  obtain ⟨htype, hseen⟩ := hsearched.none hnil
  have hmem : u ∈ seen := by
    clear h
    induction hu with
    | refl => exact htype List.mem_cons_self
    | tail _ hp ih => exact (hseen _ ih List.not_mem_nil).2 hp
  exact h (hseen u hmem List.not_mem_nil).1

end ScriptTypes.Registry
