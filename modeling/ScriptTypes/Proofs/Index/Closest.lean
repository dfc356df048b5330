import ScriptTypes.Proofs.Inference.Lookup

/-!
# The closest declaration of a member

The ancestors of a type are searched level by level. `Steps parents n t u` says that `u` is reached
from `t` by `n` parent steps, in a graph of parents that may have cycles, diamonds and parents that
are not declared. The search keeps `Front` from level to level: the names seen before level `k` are
those at a distance below `k`, and the new names of the level are those at distance `k`. So it lists
the names that can be reached in the order of their distances.

Main statement: `members_are_closest`.
-/

namespace ScriptTypes.Index

/-! ### Distances -/

/-- `u` is reached from `t` by `n` parent steps. -/
inductive Steps (parents : TypeName → List TypeName) : Nat → TypeName → TypeName → Prop
  | refl (t : TypeName) : Steps parents 0 t t
  | up {n : Nat} {t u p : TypeName} (h : Steps parents n t u) (hp : p ∈ parents u) :
      Steps parents (n + 1) t p

/-- `n` is the least number of parent steps from `t` to `u`. -/
structure Distance (parents : TypeName → List TypeName) (t u : TypeName) (n : Nat) : Prop where
  steps : Steps parents n t u
  least : ∀ k, Steps parents k t u → n ≤ k

section Search

variable {parents : TypeName → List TypeName} {t u : TypeName} {k n : Nat}
  {seen level names : List TypeName}

theorem Steps.distance (h : Steps parents n t u) : ∃ k, Distance parents t u k := by
  classical
  have hreached : ∃ k, Steps parents k t u := ⟨n, h⟩
  refine ⟨Nat.find hreached, Nat.find_spec hreached, ?_⟩
  intro k hk
  exact Nat.find_min' hreached hk

theorem Distance.unique {n' : Nat} (h : Distance parents t u n) (h' : Distance parents t u n') :
    n = n' :=
  Nat.le_antisymm (h.least n' h'.steps) (h'.least n h.steps)

/-- A distance is that of some child and one more step. -/
theorem Distance.exists_child (h : Distance parents t u (k + 1)) :
    ∃ v, Distance parents t v k ∧ u ∈ parents v := by
  obtain ⟨hsteps, hleast⟩ := h
  cases hsteps with
  | @up _ _ v _ hv hu =>
    refine ⟨v, ⟨hv, ?_⟩, hu⟩
    intro j hj
    have := hleast (j + 1) (.up hj hu)
    omega

/-! ### One level -/

/-- The state of the search in front of level `k`. -/
structure Front (parents : TypeName → List TypeName) (t : TypeName) (k : Nat)
    (seen level : List TypeName) : Prop where
  /-- The names seen so far are the nearer ones. -/
  seen_iff : ∀ u, u ∈ seen ↔ ∃ j < k, Distance parents t u j
  steps : ∀ u ∈ level, Steps parents k t u
  mem_level : ∀ u, Distance parents t u k → u ∈ level

namespace Front

theorem start (parents : TypeName → List TypeName) (t : TypeName) :
    Front parents t 1 [t] (parents t) := by
  have hself : Distance parents t t 0 := ⟨.refl t, fun _ _ => Nat.zero_le _⟩
  constructor
  · intro u
    rw [List.mem_singleton]
    constructor
    · rintro rfl
      exact ⟨0, Nat.one_pos, hself⟩
    · rintro ⟨j, hj, hu⟩
      obtain rfl : j = 0 := by omega
      cases hu.steps
      rfl
  · intro u hu
    exact .up (.refl t) hu
  · intro u hu
    obtain ⟨v, hv, huv⟩ := hu.exists_child
    cases hv.steps
    exact huv

/-- The new names of a level are those at its distance. -/
theorem mem_fresh_iff (h : Front parents t k seen level) :
    u ∈ fresh seen level ↔ Distance parents t u k := by
  rw [mem_fresh]
  constructor
  · rintro ⟨hlevel, hseen⟩
    refine ⟨h.steps u hlevel, ?_⟩
    intro j hj
    obtain ⟨i, hi⟩ := hj.distance
    have hle := hi.least j hj
    by_contra hlt
    exact hseen ((h.seen_iff u).2 ⟨i, by omega, hi⟩)
  · intro hu
    refine ⟨h.mem_level u hu, ?_⟩
    intro hseen
    obtain ⟨j, hj, hnear⟩ := (h.seen_iff u).1 hseen
    have := hu.unique hnear
    omega

theorem next (h : Front parents t k seen level) :
    Front parents t (k + 1) (seen ++ fresh seen level) ((fresh seen level).flatMap parents) := by
  constructor
  · intro u
    rw [List.mem_append, h.seen_iff, h.mem_fresh_iff]
    constructor
    · rintro (⟨j, hj, hu⟩ | hu)
      · exact ⟨j, by omega, hu⟩
      · exact ⟨k, by omega, hu⟩
    · rintro ⟨j, hj, hu⟩
      obtain hlt | rfl := Nat.lt_or_eq_of_le (Nat.le_of_lt_succ hj)
      · exact .inl ⟨j, hlt, hu⟩
      · exact .inr hu
  · intro u hu
    obtain ⟨v, hv, huv⟩ := List.mem_flatMap.1 hu
    exact .up (h.mem_fresh_iff.1 hv).steps huv
  · intro u hu
    obtain ⟨v, hv, huv⟩ := hu.exists_child
    exact List.mem_flatMap.2 ⟨v, h.mem_fresh_iff.2 hv, huv⟩

/-- Behind a level without new names there is nothing. -/
theorem lt_of_fresh_eq_nil (h : Front parents t k seen level) (hnil : fresh seen level = [])
    (hu : Distance parents t u n) : n < k := by
  by_contra hle
  -- a name further away has one at distance `k` below it
  induction n generalizing u with
  | zero =>
    obtain rfl : k = 0 := by omega
    exact List.not_mem_nil (hnil ▸ h.mem_fresh_iff.2 hu)
  | succ n ih =>
    by_cases hk : k = n + 1
    · subst hk
      exact List.not_mem_nil (hnil ▸ h.mem_fresh_iff.2 hu)
    · obtain ⟨v, hv, -⟩ := hu.exists_child
      exact ih hv (by omega)

end Front

/-! ### The whole search -/

theorem levels_succ (parents : TypeName → List TypeName) (n : Nat) (seen level : List TypeName) :
    levels parents (n + 1) seen level =
      if fresh seen level = [] then some []
      else (levels parents n (seen ++ fresh seen level) ((fresh seen level).flatMap parents)).map
        (fresh seen level ++ ·) := by
  rw [levels]
  cases fresh seen level <;> rfl

/-- What the search lists, from level `k` on: the names at a distance of at least `k`, those nearer
first. -/
structure Listed (parents : TypeName → List TypeName) (t : TypeName) (k : Nat)
    (names : List TypeName) : Prop where
  mem_iff : ∀ u, u ∈ names ↔ ∃ n, k ≤ n ∧ Distance parents t u n
  sorted : names.Pairwise fun u v => ∀ i j, Distance parents t u i → Distance parents t v j → i ≤ j

theorem Front.listed (h : Front parents t k seen level)
    (hlevels : levels parents n seen level = some names) : Listed parents t k names := by
  induction n generalizing k seen level names with
  | zero => cases hlevels
  | succ n ih =>
    rw [levels_succ] at hlevels
    split at hlevels
    · rename_i hnil
      cases hlevels
      refine ⟨?_, .nil⟩
      intro u
      constructor
      · intro hu
        cases hu
      · rintro ⟨n, hle, hu⟩
        have := h.lt_of_fresh_eq_nil hnil hu
        omega
    · obtain ⟨further, hfurther, rfl⟩ := Option.map_eq_some_iff.1 hlevels
      obtain ⟨hmem, hsorted⟩ := ih h.next hfurther
      constructor
      · intro u
        rw [List.mem_append, h.mem_fresh_iff, hmem]
        constructor
        · rintro (hu | ⟨n, hle, hu⟩)
          · exact ⟨k, Nat.le_refl k, hu⟩
          · exact ⟨n, by omega, hu⟩
        · rintro ⟨n, hle, hu⟩
          obtain hlt | rfl := Nat.lt_or_eq_of_le hle
          · exact .inr ⟨n, hlt, hu⟩
          · exact .inl hu
      · refine List.pairwise_append.2 ⟨?_, hsorted, ?_⟩
        · refine List.pairwise_of_forall_mem_list ?_
          intro u hu v hv i j hi hj
          have := hi.unique (h.mem_fresh_iff.1 hu)
          have := hj.unique (h.mem_fresh_iff.1 hv)
          omega
        · intro u hu v hv i j hi hj
          obtain ⟨n, hle, hn⟩ := (hmem v).1 hv
          have := hi.unique (h.mem_fresh_iff.1 hu)
          have := hj.unique hn
          omega

theorem levels_mono {n' : Nat} (hn : n ≤ n') (h : levels parents n seen level = some names) :
    levels parents n' seen level = some names := by
  induction n generalizing n' seen level names with
  | zero => cases h
  | succ n ih =>
    obtain ⟨n', rfl⟩ : ∃ j, n' = j + 1 := ⟨n' - 1, by omega⟩
    rw [levels_succ] at h ⊢
    split at h
    · rename_i hnil
      rw [if_pos hnil]
      exact h
    · rename_i hnil
      obtain ⟨further, hfurther, rfl⟩ := Option.map_eq_some_iff.1 h
      rw [if_neg hnil, ih (by omega) hfurther, Option.map_some]

end Search

/-- The search for ancestors ends, and with the same names under any larger limit. -/
theorem levels_eq_ancestors (index : Index) (t : TypeName) {n : Nat}
    (hn : index.types.length < n) :
    levels index.parents n [t] (index.parents t) = some (index.ancestors t) :=
  levels_mono hn (levels_eq index t)

/-- A type and its ancestors, in the order of their distances. -/
theorem listed_ancestors (index : Index) (t : TypeName) :
    Listed index.parents t 0 (t :: index.ancestors t) := by
  have hself : Distance index.parents t t 0 := ⟨.refl t, fun _ _ => Nat.zero_le _⟩
  obtain ⟨hmem, hsorted⟩ :=
    (Front.start index.parents t).listed (levels_eq_ancestors index t (Nat.lt_succ_self _))
  constructor
  · intro u
    rw [List.mem_cons, hmem]
    constructor
    · rintro (rfl | ⟨n, -, hu⟩)
      · exact ⟨0, Nat.le_refl 0, hself⟩
      · exact ⟨n, Nat.zero_le n, hu⟩
    · rintro ⟨n, -, hu⟩
      cases n with
      | zero =>
        cases hu.steps
        exact .inl rfl
      | succ n => exact .inr ⟨n + 1, by omega, hu⟩
  · refine List.pairwise_cons.2 ⟨?_, hsorted⟩
    intro u _ i j hi _
    have := hi.unique hself
    omega

/-! ### Members -/

variable {index : Index}

/-- The type declares members of the name itself. -/
def Declares (index : Index) (member : String) (t : TypeName) : Prop :=
  index.ownMembers t member ≠ []

/-- A type upwards from `t` declares members of the name. -/
def Inherits (index : Index) (member : String) (t : TypeName) : Prop :=
  ∃ n u, Steps index.parents n t u ∧ index.Declares member u

/-- `u` declares members of the name, and no type that does is nearer to `t`. -/
def Closest (index : Index) (member : String) (t u : TypeName) : Prop :=
  index.Declares member u ∧ ∃ n, Steps index.parents n t u ∧
    ∀ k v, Steps index.parents k t v → index.Declares member v → n ≤ k

theorem nearestMembers_eq_nil {member : String} {t : TypeName} (h : ¬index.Inherits member t) :
    index.nearestMembers t member = [] := by
  have hnone : ((t :: index.ancestors t).map fun u => index.ownMembers u member).find?
      (fun es => !es.isEmpty) = none := by
    rw [List.find?_eq_none]
    intro es hes
    obtain ⟨u, hu, rfl⟩ := List.mem_map.1 hes
    obtain ⟨n, -, hn⟩ := ((index.listed_ancestors t).mem_iff u).1 hu
    have hempty : index.ownMembers u member = [] := by
      by_contra hne
      exact h ⟨n, u, hn.steps, hne⟩
    simp [hempty]
  rw [nearestMembers, hnone, Option.getD_none]

/-- The search through the ancestors stops at a closest declaration. -/
theorem exists_closest {member : String} {t : TypeName} (h : index.Inherits member t) :
    ∃ u, index.Closest member t u ∧ index.nearestMembers t member = index.ownMembers u member := by
  obtain ⟨hmem, hsorted⟩ := index.listed_ancestors t
  have hlisted {k : Nat} {v : TypeName} (hv : Steps index.parents k t v) :
      v ∈ t :: index.ancestors t := by
    obtain ⟨n, hn⟩ := hv.distance
    exact (hmem v).2 ⟨n, Nat.zero_le n, hn⟩
  obtain ⟨n, v, hv, hdeclares⟩ := h
  have hfound : ∃ u, (t :: index.ancestors t).find?
      (fun u => !(index.ownMembers u member).isEmpty) = some u := by
    rw [← Option.isSome_iff_exists, List.find?_isSome]
    exact ⟨v, hlisted hv, by simpa [Declares] using hdeclares⟩
  obtain ⟨u, hu⟩ := hfound
  obtain ⟨hown, before, after, hlist, hbefore⟩ := List.find?_eq_some_iff_append.1 hu
  have hdistance : ∃ i, 0 ≤ i ∧ Distance index.parents t u i :=
    (hmem u).1 (List.mem_of_find?_eq_some hu)
  obtain ⟨i, -, hi⟩ := hdistance
  refine ⟨u, ⟨by simpa [Declares] using hown, i, hi.steps, ?_⟩, ?_⟩
  · intro k w hw hdeclares
    -- a declaring type does not stand in front of `u` in the list
    have hbehind : w = u ∨ w ∈ after := by
      have hw' := hlisted hw
      rw [hlist, List.mem_append, List.mem_cons] at hw'
      refine hw'.resolve_left ?_
      intro hw'
      exact hdeclares (by simpa using hbefore w hw')
    obtain rfl | hafter := hbehind
    · exact hi.least k hw
    · obtain ⟨j, hj⟩ := hw.distance
      rw [hlist] at hsorted
      have hle := (List.pairwise_cons.1 (List.pairwise_append.1 hsorted).2.1).1 w hafter i j hi hj
      have := hj.least k hw
      omega
  · have hfind : ((t :: index.ancestors t).map fun u => index.ownMembers u member).find?
        (fun es => !es.isEmpty) = some (index.ownMembers u member) := by
      rw [List.find?_map]
      exact congrArg (Option.map _) hu
    rw [nearestMembers, hfind, Option.getD_some]

theorem nearestMembers_ne_nil {member : String} {t : TypeName} (h : index.Inherits member t) :
    index.nearestMembers t member ≠ [] := by
  obtain ⟨u, ⟨hdeclares, -⟩, heq⟩ := exists_closest h
  rw [heq]
  exact hdeclares

theorem base_eq_self {cs : List Char} (h : cs.takeWhile (!TypeName.opensArguments ·) = []) :
    TypeName.base cs = cs := by
  rw [TypeName.base, h]

theorem base_eq_takeWhile {cs : List Char} (h : cs.takeWhile (!TypeName.opensArguments ·) ≠ []) :
    TypeName.base cs = cs.takeWhile (!TypeName.opensArguments ·) := by
  obtain ⟨c, plain, hplain⟩ := List.exists_cons_of_ne_nil h
  rw [TypeName.base, hplain]

/-- A base name is its own base. -/
theorem baseType_baseType (t : TypeName) :
    TypeName.baseType (TypeName.baseType t) = TypeName.baseType t := by
  rw [TypeName.baseType, TypeName.baseType, String.toList_ofList]
  congr 1
  by_cases htake : t.toList.takeWhile (!TypeName.opensArguments ·) = []
  · rw [base_eq_self htake, base_eq_self htake]
  · rw [base_eq_takeWhile htake, base_eq_takeWhile (by rwa [List.takeWhile_idem]),
      List.takeWhile_idem]

/-- The members of a name that a type shows are those of a closest declaring type upwards from it.
If there is none they are those that its base name shows, and for a type that is its own base those
of `Object`. So a type shows none exactly if no type upwards from it or from its base name, nor
`Object`, declares any. The search for the types upwards from a type ends, and finds the same types
under any larger limit. -/
theorem members_are_closest (index : Index) (t : TypeName) (member : String) :
    (∀ n, index.types.length < n →
      levels index.parents n [t] (index.parents t) = some (index.ancestors t)) ∧
    (index.Inherits member t → ∃ u, index.Closest member t u ∧
      index.members t member = index.ownMembers u member) ∧
    (¬index.Inherits member t → TypeName.baseType t ≠ t →
      index.members t member = index.members (TypeName.baseType t) member ∧
      TypeName.baseType (TypeName.baseType t) = TypeName.baseType t) ∧
    (¬index.Inherits member t → TypeName.baseType t = t →
      index.members t member = index.ownMembers TypeName.objectType member) ∧
    (index.members t member = [] ↔ ¬index.Inherits member t ∧
      ¬index.Inherits member (TypeName.baseType t) ∧
      ¬index.Declares member TypeName.objectType) := by
  have horElse {a b : List Element} (h : a ≠ []) : orElse a b = a := by
    rw [orElse, if_neg (by simpa using h)]
  have hnil (b : List Element) : orElse [] b = b := rfl
  refine ⟨fun n hn => levels_eq_ancestors index t hn, ?_, ?_, ?_, ?_⟩
  · intro h
    obtain ⟨u, hclosest, heq⟩ := exists_closest h
    refine ⟨u, hclosest, ?_⟩
    rw [members, horElse (nearestMembers_ne_nil h), heq]
  · intro h _
    refine ⟨?_, baseType_baseType t⟩
    rw [members, nearestMembers_eq_nil h, hnil, members, baseType_baseType]
    by_cases hbase : index.Inherits member (TypeName.baseType t)
    · rw [horElse (nearestMembers_ne_nil hbase), horElse (nearestMembers_ne_nil hbase)]
    · rw [nearestMembers_eq_nil hbase, hnil, hnil]
  · intro h hself
    rw [members, hself, nearestMembers_eq_nil h, hnil, hnil]
  · by_cases h : index.Inherits member t
    · rw [members, horElse (nearestMembers_ne_nil h)]
      simp [h, nearestMembers_ne_nil h]
    · by_cases hbase : index.Inherits member (TypeName.baseType t)
      · rw [members, nearestMembers_eq_nil h, hnil, horElse (nearestMembers_ne_nil hbase)]
        simp [hbase, nearestMembers_ne_nil hbase]
      · rw [members, nearestMembers_eq_nil h, nearestMembers_eq_nil hbase, hnil, hnil]
        simp [h, hbase, Declares]

/-- Parents that form a cycle, one of them not declared: `Middle` is closer than `Base`, also for a
type with arguments. -/
theorem members_of_leaf_are_closest : ∃ index : Index,
    index.parents "Leaf" = ["Gone", "Middle"] ∧ index.parents "Middle" = ["Base"] ∧
    index.parents "Base" = ["Leaf"] ∧ index.Declares "id" "Base" ∧ index.Inherits "id" "Leaf" ∧
    (∃ u, index.Closest "id" "Leaf" u ∧ index.members "Leaf" "id" = index.ownMembers u "id") ∧
    index.members "Leaf<Base>" "id" = [{ name := "id", owner := "Middle" }] := by
  let index : Index := addMember (addMember (addType (addType (addType empty "Leaf"
    ["Gone", "Middle"]) "Middle" ["Base"]) "Base" ["Leaf"]) { name := "id", owner := "Base" })
    { name := "id", owner := "Middle" }
  have hmiddle : "Middle" ∈ index.parents "Leaf" := by decide
  have hdeclares : index.ownMembers "Middle" "id" ≠ [] := by decide
  have hinherits : index.Inherits "id" "Leaf" := ⟨1, "Middle", .up (.refl _) hmiddle, hdeclares⟩
  obtain ⟨-, hclosest, -⟩ := members_are_closest index "Leaf" "id"
  refine ⟨index, by decide, by decide, by decide, ?_, hinherits, hclosest hinherits, by decide⟩
  show index.ownMembers "Base" "id" ≠ []
  decide

end ScriptTypes.Index
