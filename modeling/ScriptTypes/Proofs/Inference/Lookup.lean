import Mathlib
import ScriptTypes.Inference.Registry

/-!
# Lookups end

Parents of types may form cycles, among the generated types and in the index. Looking up a member,
the ancestors of a generated type and those of a type of the index therefore remember what they
have met. Each of the three has an answer within the limit that its caller sets, and a higher limit
gives the same answer.

A lookup reads the types it meets and no others: registries that agree on a set of types which
holds the parents of its members answer alike there.
-/

namespace ScriptTypes

/-- How many of some names are not among those seen. -/
def unseen (names seen : List TypeName) : Nat := (names.filter (· ∉ seen)).length

theorem unseen_le_of_subset {names seen seen' : List TypeName} (h : seen ⊆ seen') :
    unseen names seen' ≤ unseen names seen := by
  apply List.Sublist.length_le
  apply List.monotone_filter_right
  intro t ht
  simp only [decide_eq_true_eq] at ht ⊢
  exact fun hmem => ht (h hmem)

/-- To see a name leaves fewer unseen. -/
theorem unseen_lt {names seen seen' : List TypeName} {t : TypeName} (h : seen ⊆ seen')
    (ht : t ∈ names) (hseen : t ∉ seen) (hseen' : t ∈ seen') :
    unseen names seen' < unseen names seen := by
  have hsplit : names.filter (· ∉ seen') = (names.filter (· ∉ seen)).filter (· ∉ seen') := by
    rw [List.filter_filter]
    refine List.filter_congr fun u _ => ?_
    by_cases hu : u ∈ seen'
    · simp [hu]
    · have hu' : u ∉ seen := fun hmem => hu (h hmem)
      simp [hu, hu']
  rw [unseen, hsplit]
  apply List.length_filter_lt_length_iff_exists.2
  exact ⟨t, by simp [ht, hseen], by simp [hseen']⟩

theorem unseen_nil (names : List TypeName) : unseen names [] = names.length := by
  simp [unseen]

namespace Registry

variable {r : Registry} {index : Index} {member : String}

/-! ### Members -/

theorem exists_firstFound {look : List TypeName → TypeName → Option (List Element × List TypeName)}
    {names : List TypeName} {depth : Nat}
    (hlook : ∀ seen t, unseen names seen < depth →
      ∃ found, look seen t = some found ∧ seen ⊆ found.2)
    (types seen : List TypeName) (h : unseen names seen < depth) :
    ∃ found, firstFound look seen types = some found ∧ seen ⊆ found.2 := by
  induction types generalizing seen with
  | nil => exact ⟨_, rfl, List.Subset.refl _⟩
  | cons t types ih =>
    obtain ⟨⟨es, seen'⟩, heq, hsub⟩ := hlook seen t h
    unfold firstFound
    rw [heq]
    cases es with
    | nil =>
      obtain ⟨found, hfound, hsub'⟩ := ih seen' (Nat.lt_of_le_of_lt (unseen_le_of_subset hsub) h)
      exact ⟨found, hfound, List.Subset.trans hsub hsub'⟩
    | cons e es => exact ⟨_, rfl, hsub⟩

/-- A lookup has an answer if there are fewer unseen generated types than its limit. -/
theorem exists_lookupWithin {depth : Nat} {seen : List TypeName} (type : TypeName)
    (h : unseen (Entries.names r) seen < depth) :
    ∃ found, lookupWithin r index member depth seen type = some found ∧ seen ⊆ found.2 := by
  induction depth generalizing seen type with
  | zero => exact absurd h (Nat.not_lt_zero _)
  | succ depth ih =>
    unfold lookupWithin
    split
    · exact ⟨_, rfl, List.Subset.refl _⟩
    · rename_i hseen
      have hsub := List.subset_cons_self type seen
      dsimp only
      split
      · exact ⟨_, rfl, hsub⟩
      · rename_i t ht
        split
        · exact ⟨_, rfl, hsub⟩
        · have hlt := unseen_lt hsub (Entries.mem_names_of_get? ht) (by simpa using hseen)
            (List.mem_cons_self)
          obtain ⟨found, hfound, hsub'⟩ :=
            exists_firstFound (fun seen t h => ih t h) t.parents (type :: seen) (by omega)
          exact ⟨found, hfound, List.Subset.trans hsub hsub'⟩

theorem firstFound_mono
    {look look' : List TypeName → TypeName → Option (List Element × List TypeName)}
    (h : ∀ seen t found, look seen t = some found → look' seen t = some found)
    {types seen : List TypeName} {found : List Element × List TypeName}
    (hfound : firstFound look seen types = some found) :
    firstFound look' seen types = some found := by
  induction types generalizing seen with
  | nil => exact hfound
  | cons t types ih =>
    unfold firstFound at hfound ⊢
    cases hlook : look seen t with
    | none =>
      rw [hlook] at hfound
      cases hfound
    | some first =>
      rw [h seen t first hlook]
      rw [hlook] at hfound
      obtain ⟨es, seen'⟩ := first
      cases es with
      | nil => exact ih hfound
      | cons e es => exact hfound

/-- A higher limit gives the same answer. -/
theorem lookupWithin_mono {depth depth' : Nat} (hdepth : depth ≤ depth') {seen : List TypeName}
    {type : TypeName} {found : List Element × List TypeName}
    (h : lookupWithin r index member depth seen type = some found) :
    lookupWithin r index member depth' seen type = some found := by
  induction depth generalizing depth' seen type found with
  | zero => cases h
  | succ depth ih =>
    obtain ⟨depth', rfl⟩ : ∃ d, depth' = d + 1 := ⟨depth' - 1, by omega⟩
    unfold lookupWithin at h ⊢
    split at h
    · rename_i hseen
      rw [if_pos hseen]
      exact h
    · rename_i hseen
      rw [if_neg hseen]
      dsimp only at h ⊢
      split at h
      · exact h
      · split at h
        · exact h
        · exact firstFound_mono (fun seen t found => ih (by omega)) h

variable (index member) in
/-- The answer of a lookup under any sufficient limit. -/
theorem lookupWithin_eq {depth : Nat} (hdepth : r.length < depth) (type : TypeName) :
    (lookupWithin r index member depth [] type).map Prod.fst
      = some (r.lookup index type member) := by
  have hnames : unseen (Entries.names r) [] < r.length + 1 := by simp [unseen_nil, Entries.names]
  obtain ⟨found, hfound, -⟩ : ∃ found, lookupWithin r index member (r.length + 1) [] type
      = some found ∧ [] ⊆ found.2 := exists_lookupWithin type hnames
  have hdeeper := lookupWithin_mono (show r.length + 1 ≤ depth from hdepth) hfound
  simp [lookup, hfound, hdeeper]

/-! ### Ancestors -/

/-- The parents of the types other than `type` and those found. -/
def pendingParents (r : Registry) (type : TypeName) (found : List TypeName) : Nat :=
  ((r.filter fun e => e.1 ≠ type ∧ e.1 ∉ found).flatMap fun e => e.2.parents).length

/-- To leave out a type leaves out its parents. -/
theorem length_parents_add_le (p : TypeName) (q : TypeName → Bool) (hq : q p) (r : Registry) :
    (r.parents p).length + ((r.filter fun e => q e.1 && e.1 ≠ p).flatMap fun e => e.2.parents).length
      ≤ ((r.filter fun e => q e.1).flatMap fun e => e.2.parents).length := by
  induction r with
  | nil => simp [parents, Entries.get?]
  | cons e r ih =>
    obtain ⟨n, t⟩ := e
    by_cases hn : p = n
    · subst hn
      have hle : ((r.filter fun e => q e.1 && e.1 ≠ p).flatMap fun e => e.2.parents).length
          ≤ ((r.filter fun e => q e.1).flatMap fun e => e.2.parents).length := by
        apply List.Sublist.length_le
        apply List.Sublist.flatMap
        exact List.monotone_filter_right _ fun e he => by simp_all
      simp [parents, Entries.get?, hq] at hle ⊢
      omega
    · have hne : (p == n) = false := by simpa using hn
      by_cases hqn : q n
      · simp [parents, Entries.get?, List.lookup_cons, hne, hqn, Ne.symm hn] at ih ⊢
        omega
      · simp [parents, Entries.get?, List.lookup_cons, hne, hqn] at ih ⊢
        omega

theorem pendingParents_append_add_le {type p : TypeName} {found : List TypeName} (hp : p ≠ type)
    (hfound : p ∉ found) :
    (r.parents p).length + r.pendingParents type (found ++ [p]) ≤ r.pendingParents type found := by
  have hle := length_parents_add_le p (fun t => t ≠ type ∧ t ∉ found) (by simp [hp, hfound]) r
  have hfilter : (r.filter fun e => e.1 ≠ type ∧ e.1 ∉ found ++ [p])
      = r.filter fun e => (decide (e.1 ≠ type ∧ e.1 ∉ found)) && e.1 ≠ p :=
    List.filter_congr fun e _ => by simp [Bool.and_assoc]
  rw [pendingParents, hfilter]
  exact hle

/-- The search for ancestors has an answer if its limit exceeds what it can still visit. -/
theorem exists_ancestorsWithin {type : TypeName} {n : Nat} {found pending : List TypeName}
    (h : pending.length + r.pendingParents type found < n) :
    ∃ ancestors, ancestorsWithin r type n found pending = some ancestors := by
  induction n generalizing found pending with
  | zero => exact absurd h (Nat.not_lt_zero _)
  | succ n ih =>
    cases pending with
    | nil => exact ⟨found, rfl⟩
    | cons p pending =>
      unfold ancestorsWithin
      simp only [List.length_cons] at h
      split
      · exact ih (by omega)
      · rename_i hnew
        simp only [List.contains_eq_mem, decide_eq_true_eq, not_or] at hnew
        have hle := pendingParents_append_add_le hnew.1 hnew.2 (r := r)
        refine ih ?_
        rw [List.length_append]
        omega

theorem ancestorsWithin_mono {type : TypeName} {n n' : Nat} (hn : n ≤ n')
    {found pending ancestors : List TypeName}
    (h : ancestorsWithin r type n found pending = some ancestors) :
    ancestorsWithin r type n' found pending = some ancestors := by
  induction n generalizing n' found pending with
  | zero => cases h
  | succ n ih =>
    obtain ⟨n', rfl⟩ : ∃ k, n' = k + 1 := ⟨n' - 1, by omega⟩
    cases pending with
    | nil => exact h
    | cons p pending =>
      unfold ancestorsWithin at h ⊢
      split at h
      · rename_i hold
        rw [if_pos hold]
        exact ih (by omega) h
      · rename_i hnew
        rw [if_neg hnew]
        exact ih (by omega) h

/-- The ancestors of a type under any sufficient limit. -/
theorem ancestorsWithin_eq {n : Nat} (hn : r.parentCount < n) (type : TypeName) :
    ancestorsWithin r type n [] (r.parents type) = some (r.ancestors type) := by
  have hcount : (r.parents type).length + r.pendingParents type [] ≤ r.parentCount := by
    have hle := length_parents_add_le type (fun _ => true) rfl r
    simpa [pendingParents, parentCount] using hle
  obtain ⟨ancestors, hsome⟩ : ∃ ancestors,
      ancestorsWithin r type (r.parentCount + 1) [] (r.parents type) = some ancestors :=
    exists_ancestorsWithin (Nat.lt_succ_of_le hcount)
  rw [Registry.ancestors, hsome, Option.getD_some]
  exact ancestorsWithin_mono hn hsome

/-- What is found, with the type itself, has all its parents among what is found or pending. -/
theorem parents_mem_of_ancestorsWithin {type : TypeName} {n : Nat}
    {found pending ancestors : List TypeName}
    (h : ancestorsWithin r type n found pending = some ancestors)
    (hinv : ∀ t ∈ type :: found, ∀ p ∈ r.parents t, p ∈ type :: found ∨ p ∈ pending) :
    ∀ t ∈ type :: ancestors, ∀ p ∈ r.parents t, p ∈ type :: ancestors := by
  induction n generalizing found pending with
  | zero => cases h
  | succ n ih =>
    cases pending with
    | nil =>
      cases h
      intro t ht p hp
      exact (hinv t ht p hp).resolve_right List.not_mem_nil
    | cons q pending =>
      unfold ancestorsWithin at h
      split at h
      · rename_i hold
        simp only [List.contains_eq_mem, decide_eq_true_eq] at hold
        refine ih h fun t ht p hp => ?_
        rcases hinv t ht p hp with hp | hp
        · exact .inl hp
        · rcases List.mem_cons.1 hp with rfl | hp
          · exact .inl (List.mem_cons.2 hold)
          · exact .inr hp
      · refine ih h fun t ht p hp => ?_
        rw [← List.cons_append] at ht ⊢
        rcases List.mem_append.1 ht with ht | ht
        · rcases hinv t ht p hp with hp | hp
          · exact .inl (List.mem_append_left _ hp)
          · rcases List.mem_cons.1 hp with rfl | hp
            · exact .inl (by simp)
            · exact .inr (List.mem_append_right _ hp)
        · rw [List.mem_singleton.1 ht] at hp
          exact .inr (List.mem_append_left _ hp)

/-- A generated type and its ancestors hold the parents of each of them. -/
theorem parents_mem_ancestors {type t p : TypeName} (ht : t ∈ type :: r.ancestors type)
    (hp : p ∈ r.parents t) : p ∈ type :: r.ancestors type := by
  refine parents_mem_of_ancestorsWithin (ancestorsWithin_eq (Nat.lt_succ_self _) type) ?_ t ht p hp
  intro t ht p hp
  rw [List.mem_singleton.1 ht] at hp
  exact .inr hp

/-! ### What a lookup reads -/

/-- Two registries hold the same under some names, and these include the parents they have. -/
structure AgreeOn (names : List TypeName) (r r' : Registry) : Prop where
  get? : ∀ t ∈ names, Entries.get? t r = Entries.get? t r'
  parents : ∀ t ∈ names, r.parents t ⊆ names

variable {r' : Registry} {names : List TypeName}

theorem AgreeOn.parents_eq (h : AgreeOn names r r') {t : TypeName} (ht : t ∈ names) :
    r.parents t = r'.parents t := by
  rw [Registry.parents, Registry.parents, h.get? t ht]

theorem firstFound_congr
    {look look' : List TypeName → TypeName → Option (List Element × List TypeName)}
    {types : List TypeName} (h : ∀ t ∈ types, ∀ seen, look seen t = look' seen t)
    (seen : List TypeName) : firstFound look seen types = firstFound look' seen types := by
  induction types generalizing seen with
  | nil => rfl
  | cons t types ih =>
    have hrest := ih fun u hu => h u (List.mem_cons_of_mem _ hu)
    unfold firstFound
    rw [h t List.mem_cons_self]
    split
    · rfl
    · exact hrest _
    · rfl

theorem AgreeOn.lookupWithin_eq (h : AgreeOn names r r') {type : TypeName} (ht : type ∈ names)
    (depth : Nat) (seen : List TypeName) :
    lookupWithin r index member depth seen type = lookupWithin r' index member depth seen type := by
  induction depth generalizing seen type with
  | zero => rfl
  | succ depth ih =>
    unfold lookupWithin
    rw [h.get? type ht]
    split
    · rfl
    · dsimp only
      split
      · rfl
      · rename_i t hget
        split
        · rfl
        · refine firstFound_congr (fun p hp seen => ih ?_ seen) _
          refine h.parents type ht ?_
          rw [Registry.parents, h.get? type ht, hget]
          exact hp

/-- Registries that agree on a type and its ancestors show the same members of the type. -/
theorem AgreeOn.lookup_eq (h : AgreeOn names r r') {type : TypeName} (ht : type ∈ names) :
    r.lookup index type member = r'.lookup index type member := by
  have hr := Registry.lookupWithin_eq index member
    (Nat.lt_succ_of_le (Nat.le_max_left r.length r'.length)) type
  have hr' := Registry.lookupWithin_eq index member
    (Nat.lt_succ_of_le (Nat.le_max_right r.length r'.length)) type
  rw [h.lookupWithin_eq ht] at hr
  exact Option.some.inj (hr.symm.trans hr')

theorem AgreeOn.ancestorsWithin_eq (h : AgreeOn names r r') (type : TypeName) (n : Nat)
    {found pending : List TypeName} (hpending : pending ⊆ names) :
    ancestorsWithin r type n found pending = ancestorsWithin r' type n found pending := by
  induction n generalizing found pending with
  | zero => rfl
  | succ n ih =>
    cases pending with
    | nil => rfl
    | cons p pending =>
      obtain ⟨hp, hpending⟩ := List.cons_subset.1 hpending
      unfold ancestorsWithin
      rw [ih hpending, ← h.parents_eq hp, ih (List.append_subset.2 ⟨h.parents p hp, hpending⟩)]

theorem AgreeOn.ancestors_eq (h : AgreeOn names r r') {type : TypeName} (ht : type ∈ names) :
    r.ancestors type = r'.ancestors type := by
  have hr := Registry.ancestorsWithin_eq
    (Nat.lt_succ_of_le (Nat.le_max_left r.parentCount r'.parentCount)) type
  have hr' := Registry.ancestorsWithin_eq
    (Nat.lt_succ_of_le (Nat.le_max_right r.parentCount r'.parentCount)) type
  rw [h.ancestorsWithin_eq type _ (h.parents type ht), h.parents_eq ht] at hr
  exact Option.some.inj (hr.symm.trans hr')

end Registry

namespace Index

/-! ### Levels of the index -/

theorem mem_fresh {seen level : List TypeName} {t : TypeName} :
    t ∈ fresh seen level ↔ t ∈ level ∧ t ∉ seen := by
  simp [fresh]

/-- Only a declared type has parents. -/
theorem parents_eq_nil {index : Index} {t : TypeName} (h : t ∉ Entries.names index.types) :
    index.parents t = [] := by
  have hnone : Entries.get? t index.types = none := by
    by_contra hsome
    obtain ⟨record, hrecord⟩ := Option.ne_none_iff_exists'.1 hsome
    exact h (Entries.mem_names_of_get? hrecord)
  simp [parents, record, hnone]

/-- The levels above a type have an end if their limit exceeds the number of declared types not
met, or if there is no next level. -/
theorem exists_levels {index : Index} {n : Nat} {seen level : List TypeName}
    (h : unseen (Entries.names index.types) seen + 1 < n ∨ level = [] ∧ 0 < n) :
    ∃ ancestors, levels index.parents n seen level = some ancestors := by
  induction n generalizing seen level with
  | zero => simp at h
  | succ n ih =>
    unfold levels
    split
    · exact ⟨[], rfl⟩
    · rename_i new hnew
      have hlimit : unseen (Entries.names index.types) seen + 1 < n + 1 := by
        refine h.resolve_right fun hlevel => hnew ?_
        simp [fresh, hlevel.1]
      obtain ⟨above, habove⟩ : ∃ above, levels index.parents n (seen ++ fresh seen level)
          ((fresh seen level).flatMap index.parents) = some above := by
        by_cases hdeclared : ∃ t ∈ fresh seen level, t ∈ Entries.names index.types
        · -- a declared type is met for the first time
          obtain ⟨t, ht, hnames⟩ := hdeclared
          have hlt : unseen (Entries.names index.types) (seen ++ fresh seen level)
              < unseen (Entries.names index.types) seen :=
            unseen_lt (List.subset_append_left _ _) hnames (mem_fresh.1 ht).2
              (List.mem_append_right _ ht)
          exact ih (.inl (by omega))
        · refine ih (.inr ⟨?_, by omega⟩)
          refine List.flatMap_eq_nil_iff.2 fun t ht => parents_eq_nil fun hnames => ?_
          exact hdeclared ⟨t, ht, hnames⟩
      exact ⟨_, by rw [habove]; rfl⟩

/-- The ancestors of a type are all levels above it. -/
theorem levels_eq (index : Index) (type : TypeName) :
    levels index.parents (index.types.length + 1) [type] (index.parents type)
      = some (index.ancestors type) := by
  obtain ⟨ancestors, h⟩ : ∃ ancestors,
      levels index.parents (index.types.length + 1) [type] (index.parents type)
        = some ancestors := by
    apply exists_levels
    by_cases htype : type ∈ Entries.names index.types
    · have hlt := unseen_lt (List.nil_subset [type]) htype List.not_mem_nil (List.mem_singleton_self _)
      rw [unseen_nil, Entries.names, List.length_map] at hlt
      rw [Entries.names]
      exact .inl (by omega)
    · exact .inr ⟨parents_eq_nil htype, Nat.succ_pos _⟩
  rw [Index.ancestors, h, Option.getD_some]

end Index

end ScriptTypes
