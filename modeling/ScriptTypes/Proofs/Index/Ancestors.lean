import ScriptTypes.Proofs.Index.Closest

/-!
# Ancestors from a work list

Another way to find the ancestors of a type is to keep a list of names that are still to be looked
at. The name in front is taken off; if it was seen before, nothing else happens, and otherwise it is
an ancestor and its parents are put at the end of the list. A name may be on the list many times, so
the list may grow while less and less is new in it. `Drains` says that the list runs empty, and which
names were new.

The list of the whole search is one level of ancestors after the other. Taking off a level puts the
next one behind it, so that the list runs empty where the search by levels ends.

Main statement: `ancestors_are_listed_by_distance`.
-/

namespace ScriptTypes.Index

/-- From the names `seen`, taking names off `queue` until it is empty finds the new ones `found`. -/
inductive Drains (parents : TypeName → List TypeName) :
    (seen queue found : List TypeName) → Prop
  | done {seen : List TypeName} : Drains parents seen [] []
  | skip {seen queue found : List TypeName} {t : TypeName} (ht : t ∈ seen)
      (h : Drains parents seen queue found) : Drains parents seen (t :: queue) found
  | take {seen queue found : List TypeName} {t : TypeName} (ht : t ∉ seen)
      (h : Drains parents (seen ++ [t]) (queue ++ parents t) found) :
      Drains parents seen (t :: queue) (t :: found)

variable {parents : TypeName → List TypeName} {seen queue level found : List TypeName}

namespace Drains

theorem unique {found' : List TypeName} (h : Drains parents seen queue found)
    (h' : Drains parents seen queue found') : found = found' := by
  induction h generalizing found' with
  | done =>
    cases h'
    rfl
  | skip ht _ ih =>
    cases h' with
    | skip _ h' => exact ih h'
    | take ht' _ => exact absurd ht ht'
  | take ht _ ih =>
    cases h' with
    | skip ht' _ => exact absurd ht' ht
    | take _ h' => rw [ih h']

/-- What is found was not seen before, and is found once. -/
theorem nodup (h : Drains parents seen queue found) : found.Nodup ∧ ∀ t ∈ found, t ∉ seen := by
  induction h with
  | done => exact ⟨.nil, by simp⟩
  | skip _ _ ih => exact ih
  | @take seen _ found t ht _ ih =>
    obtain ⟨hnodup, hnew⟩ := ih
    have hapart (u : TypeName) (hu : u ∈ found) : u ∉ seen ∧ u ≠ t := by
      simpa using hnew u hu
    refine ⟨List.nodup_cons.2 ⟨?_, hnodup⟩, ?_⟩
    · intro hmem
      exact (hapart t hmem).2 rfl
    · intro u hu
      obtain rfl | hu := List.mem_cons.1 hu
      · exact ht
      · exact (hapart u hu).1

end Drains

theorem fresh_cons_of_mem {t : TypeName} (ht : t ∈ seen) :
    fresh seen (t :: level) = fresh seen level := by
  simp [fresh, ht]

theorem fresh_cons_of_notMem {t : TypeName} (ht : t ∉ seen) :
    fresh seen (t :: level) = t :: fresh (seen ++ [t]) level := by
  have hkeep : (t :: level).filter (fun u => !seen.contains u)
      = t :: level.filter fun u => !seen.contains u := by
    simp [ht]
  rw [fresh, hkeep, List.eraseDups_cons, List.filter_filter, fresh]
  refine congrArg (fun us => t :: us.eraseDups) (List.filter_congr fun u _ => ?_)
  by_cases hu : u = t
  · simp [hu]
  · simp [hu]

/-- A level in front of the list is taken off as a whole; the parents of its new names are then at
the end. -/
theorem Drains.append_level {rest : List TypeName}
    (h : Drains parents (seen ++ fresh seen level) (rest ++ (fresh seen level).flatMap parents)
      found) :
    Drains parents seen (level ++ rest) (fresh seen level ++ found) := by
  induction level generalizing seen rest with
  | nil => simpa [fresh] using h
  | cons t level ih =>
    by_cases ht : t ∈ seen
    · rw [fresh_cons_of_mem ht] at h ⊢
      exact .skip ht (ih h)
    · rw [fresh_cons_of_notMem ht] at h ⊢
      have htaken : Drains parents (seen ++ [t]) (level ++ (rest ++ parents t))
          (fresh (seen ++ [t]) level ++ found) := ih (by simpa using h)
      rw [← List.append_assoc] at htaken
      exact .take ht htaken

/-- The list runs empty with what the search by levels finds. -/
theorem drains_of_levels {n : Nat} (h : levels parents n seen level = some found) :
    Drains parents seen level found := by
  induction n generalizing seen level found with
  | zero => cases h
  | succ n ih =>
    rw [levels_succ] at h
    split at h
    · rename_i hnil
      cases h
      have hlevel : Drains parents seen (level ++ []) (fresh seen level ++ []) := by
        apply Drains.append_level
        rw [hnil]
        exact .done
      simpa [hnil] using hlevel
    · obtain ⟨further, hfurther, rfl⟩ := Option.map_eq_some_iff.1 h
      have hlevel : Drains parents seen (level ++ []) (fresh seen level ++ further) :=
        Drains.append_level (ih hfurther)
      rwa [List.append_nil] at hlevel

/-- **The ancestors of a type, nearest first.** The work list runs empty whatever the parents are,
with the ancestors and nothing else. They are the names other than the type itself that one or more
parent steps lead to, each once, in the order of their distances. -/
theorem ancestors_are_listed_by_distance (index : Index) (t : TypeName) :
    (∀ names, Drains index.parents [t] (index.parents t) names ↔ names = index.ancestors t) ∧
    (index.ancestors t).Nodup ∧
    (∀ u, u ∈ index.ancestors t ↔ u ≠ t ∧ ∃ n, Steps index.parents (n + 1) t u) ∧
    (index.ancestors t).Pairwise fun u v => ∃ i j,
      Distance index.parents t u i ∧ Distance index.parents t v j ∧ i ≤ j := by
  have hself : Distance index.parents t t 0 := ⟨.refl t, fun _ _ => Nat.zero_le _⟩
  have hlevels := levels_eq_ancestors index t (Nat.lt_succ_self _)
  have hdrains := drains_of_levels hlevels
  obtain ⟨hmem, hsorted⟩ := (Front.start index.parents t).listed hlevels
  refine ⟨?_, hdrains.nodup.1, ?_, ?_⟩
  · intro names
    constructor
    · intro h
      exact h.unique hdrains
    · rintro rfl
      exact hdrains
  · intro u
    rw [hmem]
    constructor
    · rintro ⟨n, hn, hu⟩
      obtain ⟨n, rfl⟩ : ∃ k, n = k + 1 := ⟨n - 1, by omega⟩
      refine ⟨?_, n, hu.steps⟩
      rintro rfl
      exact absurd (hu.unique hself) (Nat.succ_ne_zero n)
    · rintro ⟨hne, n, hsteps⟩
      obtain ⟨k, hk⟩ := hsteps.distance
      refine ⟨k, ?_, hk⟩
      by_contra hlt
      obtain rfl : k = 0 := by omega
      cases hk.steps
      exact hne rfl
  · refine hsorted.imp_of_mem fun {u v} hu hv hle => ?_
    obtain ⟨i, -, hi⟩ := (hmem u).1 hu
    obtain ⟨j, -, hj⟩ := (hmem v).1 hv
    exact ⟨i, j, hi, hj, hle i j hi hj⟩

end ScriptTypes.Index
