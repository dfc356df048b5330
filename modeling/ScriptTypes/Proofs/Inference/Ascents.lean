import ScriptTypes.Proofs.Index.Closest
import ScriptTypes.Proofs.Inference.Owners
import ScriptTypes.Proofs.Inference.History

/-!
# The order of the ancestors of a generated type

The ancestors of a generated type are found with a stack: the name on top is taken off, and if it is
new its parents are put on top of what is left. So all that a parent leads to is listed before the
parent beside it is looked at. `Tour` says this without a stack.

An `Ascent` is a list of places, one in each list of parents, that lead from a type to an ancestor
without meeting a name twice. The ancestors are listed in the order of their first ascents, where
lists of places are compared like words. For a name that the search has seen is either still on the
way to the present one, and then no ascent meets it again, or it is done with, and then so is
everything that an ascent goes on to from there.

This is the order of their distances as long as only the last parent of a type has parents itself.
In general it is not: what the first of two parents inherits comes before the second one.

Main statement: `ancestors_are_listed_by_first_ascents`.
-/

namespace ScriptTypes

namespace Index.Steps

variable {parents : TypeName → List TypeName} {t u v : TypeName} {k n : Nat}

theorem trans (h : Steps parents k t u) (h' : Steps parents n u v) :
    Steps parents (k + n) t v := by
  induction h' with
  | refl => exact h
  | up _ hp ih => exact .up (ih h) hp

/-- The first of some steps leads to a parent. -/
theorem exists_parent (h : Steps parents (n + 1) t u) :
    ∃ p ∈ parents t, Steps parents n p u := by
  induction n generalizing u with
  | zero =>
    obtain _ | ⟨h, hu⟩ := h
    cases h
    exact ⟨u, hu, .refl u⟩
  | succ n ih =>
    obtain _ | ⟨h, hu⟩ := h
    obtain ⟨p, hp, hsteps⟩ := ih h
    exact ⟨p, hp, .up hsteps hu⟩

end Index.Steps

namespace Registry

open Index (Steps Distance)

variable {parents : TypeName → List TypeName} {seen met ps found names : List TypeName}
  {t u v p : TypeName} {places : List Nat} {k n : Nat}

/-! ### Tours -/

/-- From the names `seen`, going through `ps`, and from each new name through its parents before the
next one, finds the new names `found`. -/
inductive Tour (parents : TypeName → List TypeName) : (seen ps found : List TypeName) → Prop
  | done {seen : List TypeName} : Tour parents seen [] []
  | skip {seen ps found : List TypeName} {p : TypeName} (hp : p ∈ seen)
      (h : Tour parents seen ps found) : Tour parents seen (p :: ps) found
  | visit {seen ps above later : List TypeName} {p : TypeName} (hp : p ∉ seen)
      (habove : Tour parents (seen ++ [p]) (parents p) above)
      (hlater : Tour parents (seen ++ p :: above) ps later) :
      Tour parents seen (p :: ps) (p :: above ++ later)

/-- A search that ends makes a tour through the names on top of its stack and goes on with the
others. -/
theorem exists_tour {r : Registry} {rest : List TypeName}
    (h : ancestorsWithin r t n found (ps ++ rest) = some names) :
    ∃ above, Tour r.parents (t :: found) ps above ∧
      ∃ k ≤ n, ancestorsWithin r t k (found ++ above) rest = some names := by
  induction n using Nat.strong_induction_on generalizing found ps rest with
  | _ n ih =>
    match ps, n with
    | [], n => exact ⟨[], .done, n, Nat.le_refl n, by simpa using h⟩
    | p :: ps, 0 => cases h
    | p :: ps, n + 1 =>
      rw [List.cons_append, ancestorsWithin] at h
      split at h
      · rename_i hseen
        obtain ⟨above, htour, k, hk, hrest⟩ := ih n (Nat.lt_succ_self n) h
        exact ⟨above, .skip (by simpa using hseen) htour, k, by omega, hrest⟩
      · rename_i hnew
        obtain ⟨above, habove, k, hk, h⟩ := ih n (Nat.lt_succ_self n) h
        obtain ⟨later, hlater, k', hk', hrest⟩ := ih k (by omega) h
        refine ⟨p :: above ++ later, .visit (by simpa using hnew) habove ?_, k', by omega, ?_⟩
        · simpa using hlater
        · simpa using hrest

theorem tour_ancestors (r : Registry) (t : TypeName) :
    Tour r.parents [t] (r.parents t) (r.ancestors t) := by
  have hends := ancestorsWithin_eq (Nat.lt_succ_self r.parentCount) t
  rw [← List.append_nil (r.parents t)] at hends
  obtain ⟨above, htour, k, -, hrest⟩ := exists_tour hends
  cases k with
  | zero => cases hrest
  | succ k =>
    cases hrest
    exact htour

namespace Tour

/-- What is found was not seen before, and is found once. -/
theorem nodup (h : Tour parents seen ps found) : found.Nodup ∧ ∀ u ∈ found, u ∉ seen := by
  induction h with
  | done => exact ⟨.nil, by simp⟩
  | skip _ _ ih => exact ih
  | @visit seen ps above later p hp _ _ ihabove ihlater =>
    obtain ⟨hnodup, hnew⟩ := ihabove
    obtain ⟨hnodup', hnew'⟩ := ihlater
    have habove (u : TypeName) (hu : u ∈ above) : u ∉ seen ∧ u ≠ p := by simpa using hnew u hu
    have hlater (u : TypeName) (hu : u ∈ later) : u ∉ seen ∧ u ≠ p ∧ u ∉ above := by
      simpa using hnew' u hu
    constructor
    · refine List.nodup_append.2 ⟨List.nodup_cons.2 ⟨?_, hnodup⟩, hnodup', ?_⟩
      · intro hmem
        exact (habove p hmem).2 rfl
      · rintro u hu w hw rfl
        obtain rfl | hu := List.mem_cons.1 hu
        · exact (hlater u hw).2.1 rfl
        · exact (hlater u hw).2.2 hu
    · intro u hu
      obtain hu | hu := List.mem_append.1 hu
      · obtain rfl | hu := List.mem_cons.1 hu
        · exact hp
        · exact (habove u hu).1
      · exact (hlater u hu).1

/-- Nothing is passed over. -/
theorem subset (h : Tour parents seen ps found) : ps ⊆ seen ++ found := by
  induction h with
  | done => exact List.nil_subset _
  | skip hp _ ih => exact List.cons_subset.2 ⟨List.mem_append_left _ hp, ih⟩
  | visit _ _ _ _ ihlater =>
    refine List.cons_subset.2 ⟨by simp, ?_⟩
    simpa using ihlater

/-- Nor is any parent of what is found. -/
theorem parents_subset (h : Tour parents seen ps found) (hu : u ∈ found) :
    parents u ⊆ seen ++ found := by
  induction h with
  | done => cases hu
  | skip _ _ ih => exact ih hu
  | @visit seen ps above later p _ habove _ ihabove ihlater =>
    have happend : seen ++ (p :: above ++ later) = seen ++ [p] ++ above ++ later := by simp
    have hsub := List.subset_append_left (seen ++ [p] ++ above) later
    rw [happend]
    obtain hu | hu := List.mem_append.1 hu
    · obtain rfl | hu := List.mem_cons.1 hu
      · exact List.Subset.trans habove.subset hsub
      · exact List.Subset.trans (ihabove hu) hsub
    · simpa using ihlater hu

end Tour

/-! ### Ascents -/

/-- Taking the name at the first place in `ps`, that at the second place among its parents, and so
on, leads to `u`. The names on the way are new to `met` and to each other. -/
inductive Ascent (parents : TypeName → List TypeName) :
    (met ps : List TypeName) → (places : List Nat) → (u : TypeName) → Prop
  | stop {met ps : List TypeName} {i : Nat} {u : TypeName} (hu : ps[i]? = some u) (hnew : u ∉ met) :
      Ascent parents met ps [i] u
  | climb {met ps : List TypeName} {i : Nat} {places : List Nat} {p u : TypeName}
      (hp : ps[i]? = some p) (hnew : p ∉ met) (h : Ascent parents (p :: met) (parents p) places u) :
      Ascent parents met ps (i :: places) u

namespace Ascent

theorem notMem (h : Ascent parents met ps places u) : u ∉ met := by
  induction h with
  | stop _ hnew => exact hnew
  | climb _ _ _ ih => exact fun hmem => ih (List.mem_cons_of_mem _ hmem)

theorem places_ne_nil (h : Ascent parents met ps places u) : places ≠ [] := by
  cases h <;> exact List.cons_ne_nil _ _

theorem ps_ne_nil (h : Ascent parents met ps places u) : ps ≠ [] := by
  rintro rfl
  cases h with
  | stop hu _ => simp at hu
  | climb hp _ _ => simp at hp

theorem steps_add (h : Ascent parents met ps places u)
    (hps : ∀ p ∈ ps, Steps parents (k + 1) t p) : Steps parents (k + places.length) t u := by
  induction h generalizing k with
  | stop hu _ => exact hps _ (List.mem_of_getElem? hu)
  | @climb met ps i places p u hp _ _ ih =>
    have hsteps := ih (k := k + 1) fun q hq => .up (hps p (List.mem_of_getElem? hp)) hq
    rwa [List.length_cons, Nat.add_comm places.length, ← Nat.add_assoc]

/-- One place is one step. -/
theorem steps (h : Ascent parents met (parents t) places u) :
    Steps parents places.length t u := by
  rw [← Nat.zero_add places.length]
  exact h.steps_add fun p hp => .up (.refl t) hp

/-- Ascents through the first of some names end there or go on with its parents. -/
theorem cons_cases (h : Ascent parents met (p :: ps) places u) :
    (p ∉ met ∧ places = [0] ∧ u = p) ∨
    (p ∉ met ∧ ∃ above, places = 0 :: above ∧ Ascent parents (p :: met) (parents p) above u) ∨
    ∃ beside, places = beside.modifyHead Nat.succ ∧ Ascent parents met ps beside u := by
  cases h with
  | @stop _ _ i _ hu hnew =>
    cases i with
    | zero =>
      cases hu
      exact .inl ⟨hnew, rfl, rfl⟩
    | succ i => exact .inr (.inr ⟨[i], rfl, .stop hu hnew⟩)
  | @climb _ _ i above q _ hq hnew h =>
    cases i with
    | zero =>
      cases hq
      exact .inr (.inl ⟨hnew, above, rfl, h⟩)
    | succ i => exact .inr (.inr ⟨i :: above, rfl, .climb hq hnew h⟩)

theorem beside (h : Ascent parents met ps places u) :
    Ascent parents met (p :: ps) (places.modifyHead Nat.succ) u := by
  cases h with
  | stop hu hnew => exact .stop hu hnew
  | climb hq hnew h => exact .climb hq hnew h

end Ascent

/-! ### The order of places -/

theorem strictMono_modifyHead_succ :
    StrictMono (List.modifyHead Nat.succ : List Nat → List Nat) := by
  intro as bs h
  cases bs with
  | nil => exact absurd h (List.not_lt_nil as)
  | cons b bs =>
    cases as with
    | nil => exact List.nil_lt_cons _ _
    | cons a as =>
      rw [List.cons_lt_cons_iff] at h
      simpa [List.cons_lt_cons_iff] using h

theorem zero_cons_lt_modifyHead_succ {as bs : List Nat} (hbs : bs ≠ []) :
    0 :: as < bs.modifyHead Nat.succ := by
  obtain ⟨b, bs, rfl⟩ := List.exists_cons_of_ne_nil hbs
  exact List.cons_lt_cons_iff.2 (.inl (Nat.succ_pos b))

/-- Of the ascents to `u`, the one that comes first. -/
structure FirstAscent (parents : TypeName → List TypeName) (met ps : List TypeName)
    (u : TypeName) (places : List Nat) : Prop where
  ascent : Ascent parents met ps places u
  first : ∀ places', Ascent parents met ps places' u → places ≤ places'

namespace FirstAscent

theorem unique {places' : List Nat} (h : FirstAscent parents met ps u places)
    (h' : FirstAscent parents met ps u places') : places = places' :=
  le_antisymm (h.first _ h'.ascent) (h'.first _ h.ascent)

theorem head (hp : p ∉ met) : FirstAscent parents met (p :: ps) p [0] := by
  refine ⟨.stop rfl hp, ?_⟩
  intro places' h
  obtain ⟨-, rfl, -⟩ | ⟨-, above, rfl, habove⟩ | ⟨beside, rfl, hbeside⟩ := h.cons_cases
  · exact le_rfl
  · exact absurd List.mem_cons_self habove.notMem
  · exact (zero_cons_lt_modifyHead_succ hbeside.places_ne_nil).le

/-- An ascent through the first of some names comes before all that do not go through it. -/
theorem above (hp : p ∉ met) (h : FirstAscent parents (p :: met) (parents p) u places) :
    FirstAscent parents met (p :: ps) u (0 :: places) := by
  refine ⟨.climb rfl hp h.ascent, ?_⟩
  intro places' h'
  obtain ⟨-, -, rfl⟩ | ⟨-, above, rfl, habove⟩ | ⟨beside, rfl, hbeside⟩ := h'.cons_cases
  · exact absurd List.mem_cons_self h.ascent.notMem
  · have hle := h.first above habove
    simpa [← not_lt] using hle
  · exact (zero_cons_lt_modifyHead_succ hbeside.places_ne_nil).le

theorem beside (hp : ∀ places', ¬Ascent parents met [p] places' u)
    (h : FirstAscent parents met ps u places) :
    FirstAscent parents met (p :: ps) u (places.modifyHead Nat.succ) := by
  refine ⟨h.ascent.beside, ?_⟩
  intro places' h'
  obtain ⟨hnew, -, rfl⟩ | ⟨hnew, above, -, habove⟩ | ⟨beside, rfl, hbeside⟩ := h'.cons_cases
  · exact absurd (.stop rfl hnew) (hp [0])
  · exact absurd (.climb rfl hnew habove) (hp (0 :: above))
  · exact strictMono_modifyHead_succ.monotone (h.first beside hbeside)

end FirstAscent

/-! ### Tours follow first ascents -/

/-- What is seen and not on the way has all its parents among what is seen. -/
def Finished (parents : TypeName → List TypeName) (met seen : List TypeName) : Prop :=
  ∀ u ∈ seen, u ∉ met → parents u ⊆ seen

namespace Finished

/-- No ascent leaves what is finished. -/
theorem mem (h : Finished parents met seen) (hps : ps ⊆ seen)
    (hascent : Ascent parents met ps places u) : u ∈ seen := by
  induction hascent with
  | stop hu _ => exact hps (List.mem_of_getElem? hu)
  | @climb _ _ _ _ p _ hp hnew _ ih =>
    have hfinished : Finished parents (p :: _) seen := fun w hw hmet =>
      h w hw fun hmem => hmet (List.mem_cons_of_mem _ hmem)
    exact ih hfinished (h p (hps (List.mem_of_getElem? hp)) hnew)

/-- A name that is new comes to be on the way. -/
theorem enter (h : Finished parents met seen) : Finished parents (p :: met) (seen ++ [p]) := by
  intro u hu hmet
  obtain ⟨hne, hmet⟩ := not_or.1 (mt List.mem_cons.2 hmet)
  have hseen : u ∈ seen := by simpa [hne] using hu
  exact List.Subset.trans (h u hseen hmet) (List.subset_append_left _ _)

/-- After the tour through its parents it is done with. -/
theorem leave {above : List TypeName} (h : Finished parents met seen)
    (habove : Tour parents (seen ++ [p]) (parents p) above) :
    Finished parents met (seen ++ p :: above) := by
  have happend : seen ++ p :: above = seen ++ [p] ++ above := by simp
  rw [happend]
  intro u hu hmet
  obtain hu | hu := List.mem_append.1 hu
  · obtain hu | hu := List.mem_append.1 hu
    · refine List.Subset.trans (h u hu hmet) ?_
      rw [List.append_assoc]
      exact List.subset_append_left _ _
    · rw [List.mem_singleton.1 hu]
      exact habove.subset
  · exact habove.parents_subset hu

end Finished

/-- The names come in the order of their first ascents. -/
structure Ascending (parents : TypeName → List TypeName) (met ps names : List TypeName) : Prop where
  ascends : ∀ u ∈ names, ∃ places, FirstAscent parents met ps u places
  sorted : names.Pairwise fun u v => ∃ as bs,
    FirstAscent parents met ps u as ∧ FirstAscent parents met ps v bs ∧ as < bs

namespace Ascending

theorem beside (h : Ascending parents met ps names)
    (hp : ∀ u ∈ names, ∀ places, ¬Ascent parents met [p] places u) :
    Ascending parents met (p :: ps) names := by
  constructor
  · intro u hu
    obtain ⟨places, hplaces⟩ := h.ascends u hu
    exact ⟨_, hplaces.beside (hp u hu)⟩
  · refine h.sorted.imp_of_mem fun {u v} hu hv hlt => ?_
    obtain ⟨as, bs, has, hbs, hlt⟩ := hlt
    exact ⟨_, _, has.beside (hp u hu), hbs.beside (hp v hv), strictMono_modifyHead_succ hlt⟩

/-- A new name is followed by what its parents lead to, and then by what the names beside it do. -/
theorem visit {above later : List TypeName} (hp : p ∉ met)
    (habove : Ascending parents (p :: met) (parents p) above)
    (hlater : Ascending parents met ps later)
    (hold : ∀ u ∈ later, ∀ places, ¬Ascent parents met [p] places u) :
    Ascending parents met (p :: ps) (p :: above ++ later) := by
  have hbeside := hlater.beside hold
  have hfront (u : TypeName) (hu : u ∈ p :: above) :
      ∃ as, FirstAscent parents met (p :: ps) u (0 :: as) := by
    obtain rfl | hu := List.mem_cons.1 hu
    · exact ⟨[], .head hp⟩
    · obtain ⟨places, hplaces⟩ := habove.ascends u hu
      exact ⟨places, hplaces.above hp⟩
  constructor
  · intro u hu
    obtain hu | hu := List.mem_append.1 hu
    · obtain ⟨as, has⟩ := hfront u hu
      exact ⟨0 :: as, has⟩
    · exact hbeside.ascends u hu
  · refine List.pairwise_append.2 ⟨List.pairwise_cons.2 ⟨?_, ?_⟩, hbeside.sorted, ?_⟩
    · intro u hu
      obtain ⟨places, hplaces⟩ := habove.ascends u hu
      obtain ⟨i, as, rfl⟩ := List.exists_cons_of_ne_nil hplaces.ascent.places_ne_nil
      exact ⟨[0], 0 :: i :: as, .head hp, hplaces.above hp, by simp⟩
    · refine habove.sorted.imp ?_
      rintro u v ⟨as, bs, has, hbs, hlt⟩
      exact ⟨0 :: as, 0 :: bs, has.above hp, hbs.above hp,
        List.cons_lt_cons_iff.2 (.inr ⟨rfl, hlt⟩)⟩
    · intro u hu v hv
      obtain ⟨as, has⟩ := hfront u hu
      obtain ⟨places, hplaces⟩ := hlater.ascends v hv
      exact ⟨0 :: as, _, has, hplaces.beside (hold v hv),
        zero_cons_lt_modifyHead_succ hplaces.ascent.places_ne_nil⟩

end Ascending

/-- A tour finds names in the order of their first ascents, if what is on the way was seen and all
else that was seen is finished. -/
theorem Tour.ascending (h : Tour parents seen ps found) (hmet : met ⊆ seen)
    (hfinished : Finished parents met seen) : Ascending parents met ps found := by
  induction h generalizing met with
  | done => exact ⟨by simp, .nil⟩
  | @skip seen ps found p hp h ih =>
    apply (ih hmet hfinished).beside
    intro u hu places hascent
    exact h.nodup.2 u hu (hfinished.mem (by simpa using hp) hascent)
  | @visit seen ps above later p hp habove hlater ihabove ihlater =>
    have hfinished' := hfinished.leave habove
    apply Ascending.visit
    · exact fun hmem => hp (hmet hmem)
    · apply ihabove _ hfinished.enter
      exact List.cons_subset.2 ⟨by simp, List.Subset.trans hmet (List.subset_append_left _ _)⟩
    · exact ihlater (List.Subset.trans hmet (List.subset_append_left _ _)) hfinished'
    · intro u hu places hascent
      exact hlater.nodup.2 u hu (hfinished'.mem (by simp) hascent)

/-! ### Distances -/

/-- On a shortest way from `t` the next name is one step further away, and so a new one. -/
theorem exists_next_place (hsteps : Steps parents (n + 1) v u)
    (hv : Distance parents t v k) (hu : Distance parents t u (k + n + 1))
    (hmet : ∀ w ∈ met, ∃ j ≤ k, Distance parents t w j) :
    ∃ (i : Nat) (p : TypeName), (parents v)[i]? = some p ∧ p ∉ met ∧ Steps parents n p u ∧
      Distance parents t p (k + 1) := by
  obtain ⟨p, hp, hsteps⟩ := hsteps.exists_parent
  have hdistance : Distance parents t p (k + 1) := by
    refine ⟨.up hv.steps hp, ?_⟩
    intro j hj
    have := hu.least _ (hj.trans hsteps)
    omega
  have hnew : p ∉ met := by
    intro hmem
    obtain ⟨j, hj, hnear⟩ := hmet p hmem
    have := hnear.unique hdistance
    omega
  obtain ⟨i, hi⟩ := List.mem_iff_getElem?.1 hp
  exact ⟨i, p, hi, hnew, hsteps, hdistance⟩

theorem exists_shortest_ascent (hsteps : Steps parents (n + 1) v u)
    (hv : Distance parents t v k) (hu : Distance parents t u (k + n + 1))
    (hmet : ∀ w ∈ met, ∃ j ≤ k, Distance parents t w j) :
    ∃ places, places.length = n + 1 ∧ Ascent parents met (parents v) places u := by
  induction n generalizing v k met with
  | zero =>
    obtain ⟨i, p, hi, hnew, hsteps, -⟩ := exists_next_place hsteps hv hu hmet
    cases hsteps
    exact ⟨[i], rfl, .stop hi hnew⟩
  | succ n ih =>
    obtain ⟨i, p, hi, hnew, hsteps, hdistance⟩ := exists_next_place hsteps hv hu hmet
    have hmet' : ∀ w ∈ p :: met, ∃ j ≤ k + 1, Distance parents t w j := by
      intro w hw
      obtain rfl | hw := List.mem_cons.1 hw
      · exact ⟨k + 1, Nat.le_refl _, hdistance⟩
      · obtain ⟨j, hj, hnear⟩ := hmet w hw
        exact ⟨j, by omega, hnear⟩
    have hu' : Distance parents t u (k + 1 + n + 1) := by
      rwa [Nat.add_right_comm k 1 n]
    obtain ⟨places, hlength, hascent⟩ := ih hsteps hdistance hu' hmet'
    exact ⟨i :: places, by simp [hlength], .climb hi hnew hascent⟩

/-- If only last parents have parents, short ascents come before long ones. -/
theorem Ascent.lt_of_length_lt {as bs : List Nat} (hparents : ∀ w ∈ names, parents w ⊆ names)
    (hlast : ∀ w ∈ names, ∀ p ∈ (parents w).dropLast, parents p = []) (ht : t ∈ names)
    (ha : Ascent parents met (parents t) as u) (hb : Ascent parents met (parents t) bs v)
    (hlt : as.length < bs.length) : as < bs := by
  induction as generalizing met t bs with
  | nil => exact absurd rfl ha.places_ne_nil
  | cons i as ih =>
    cases hb with
    | stop => simp at hlt
    | @climb _ _ j bs p _ hp _ hb =>
      rw [List.cons_lt_cons_iff]
      obtain hij | rfl | hji := Nat.lt_trichotomy i j
      · exact .inl hij
      · refine .inr ⟨rfl, ?_⟩
        cases ha with
        | stop =>
          obtain ⟨b, bs, rfl⟩ := List.exists_cons_of_ne_nil hb.places_ne_nil
          exact List.nil_lt_cons b bs
        | climb hp' _ ha =>
          cases hp.symm.trans hp'
          have hpnames : p ∈ names := hparents t ht (List.mem_of_getElem? hp)
          exact ih hpnames ha hb (by simpa using hlt)
      · -- the longer ascent goes on from a name that is not the last one
        have hi : i < (parents t).length := by
          cases ha with
          | stop hu _ => exact (List.getElem?_eq_some_iff.1 hu).1
          | climb hq _ _ => exact (List.getElem?_eq_some_iff.1 hq).1
        have hdrop : p ∈ (parents t).dropLast := by
          refine List.mem_of_getElem? (i := j) ?_
          rw [List.getElem?_dropLast, if_pos (by omega), hp]
        exact absurd (hlast t ht p hdrop) hb.ps_ne_nil

/-- The names come in the order of their distances from `t`. -/
def NearestFirst (parents : TypeName → List TypeName) (t : TypeName) (names : List TypeName) :
    Prop :=
  names.Pairwise fun u v => ∃ i j, Distance parents t u i ∧ Distance parents t v j ∧ i ≤ j

/-- In the order of distances the parents of a type come before its other ancestors. -/
theorem NearestFirst.mem_parents (h : NearestFirst parents t names) (huv : [u, v].Sublist names)
    (hv : v ∈ parents t) : u = t ∨ u ∈ parents t := by
  obtain ⟨i, j, hi, hj, hle⟩ := List.pairwise_pair.1 (List.Pairwise.sublist huv h)
  have hnear := hj.least 1 (.up (.refl t) hv)
  match i, hi.steps with
  | 0, .refl _ => exact .inl rfl
  | 1, .up (.refl _) hu => exact .inr hu
  | i + 2, _ => omega

section Ancestors

variable (r : Registry)

theorem ascending_ancestors (t : TypeName) :
    Ascending r.parents [t] (r.parents t) (r.ancestors t) := by
  refine (tour_ancestors r t).ascending (List.Subset.refl _) ?_
  intro u hu hmet
  exact absurd hu hmet

theorem mem_of_steps (h : Steps r.parents n t u) : u ∈ t :: r.ancestors t := by
  induction h with
  | refl => exact List.mem_cons_self
  | up _ hp ih => exact parents_mem_ancestors ih hp

/-- Exactly the ancestors have first ascents. -/
theorem exists_firstAscent_iff :
    (∃ places, FirstAscent r.parents [t] (r.parents t) u places) ↔ u ∈ r.ancestors t := by
  constructor
  · rintro ⟨places, hplaces⟩
    have hmem := mem_of_steps r hplaces.ascent.steps
    exact (List.mem_cons.1 hmem).resolve_left (by simpa using hplaces.ascent.notMem)
  · intro hu
    exact (ascending_ancestors r t).ascends u hu

theorem mem_ancestors_iff :
    u ∈ r.ancestors t ↔ u ≠ t ∧ ∃ n, Steps r.parents (n + 1) t u := by
  constructor
  · intro hu
    obtain ⟨places, hplaces⟩ := (exists_firstAscent_iff r).2 hu
    obtain ⟨i, places, rfl⟩ := List.exists_cons_of_ne_nil hplaces.ascent.places_ne_nil
    exact ⟨by simpa using hplaces.ascent.notMem, places.length, hplaces.ascent.steps⟩
  · rintro ⟨hne, n, hsteps⟩
    exact (List.mem_cons.1 (mem_of_steps r hsteps)).resolve_left hne

/-- Ancestors come in the order of their distances exactly if of two of them the nearer one always
has the earlier first ascent. -/
theorem nearestFirst_ancestors_iff :
    NearestFirst r.parents t (r.ancestors t) ↔ ∀ u v as bs i j,
      FirstAscent r.parents [t] (r.parents t) u as → FirstAscent r.parents [t] (r.parents t) v bs →
      Distance r.parents t u i → Distance r.parents t v j → i < j → as < bs := by
  have hascending := (ascending_ancestors r t).sorted
  constructor
  · intro hnearest u v as bs i j hu hv hi hj hij
    have hmem {w : TypeName} {places : List Nat}
        (h : FirstAscent r.parents [t] (r.parents t) w places) : w ∈ r.ancestors t :=
      (exists_firstAscent_iff r).1 ⟨places, h⟩
    have hne : v ≠ u := by
      rintro rfl
      have := hi.unique hj
      omega
    obtain ⟨before, after, hlist⟩ := List.append_of_mem (hmem hu)
    have hplace : v ∈ before ∨ v ∈ after := by simpa [hlist, hne] using hmem hv
    rw [NearestFirst, hlist, List.pairwise_append] at hnearest
    rw [hlist, List.pairwise_append, List.pairwise_cons] at hascending
    obtain hbefore | hafter := hplace
    · obtain ⟨j', i', hj', hi', hle⟩ := hnearest.2.2 v hbefore u List.mem_cons_self
      have := hi.unique hi'
      have := hj.unique hj'
      omega
    · obtain ⟨as', bs', hu', hv', hlt⟩ := hascending.2.1.1 v hafter
      rwa [hu.unique hu', hv.unique hv']
  · intro hagree
    refine hascending.imp ?_
    rintro u v ⟨as, bs, hu, hv, hlt⟩
    obtain ⟨i, hi⟩ := hu.ascent.steps.distance
    obtain ⟨j, hj⟩ := hv.ascent.steps.distance
    refine ⟨i, j, hi, hj, ?_⟩
    by_contra hji
    exact lt_asymm hlt (hagree v u bs as j i hv hu hj hi (by omega))

/-- They do if only last parents have parents. -/
theorem nearestFirst_ancestors_of_last
    (hlast : ∀ u ∈ t :: r.ancestors t, ∀ p ∈ (r.parents u).dropLast, r.parents p = []) :
    NearestFirst r.parents t (r.ancestors t) := by
  rw [nearestFirst_ancestors_iff]
  intro u v as bs i j hu hv hi hj hij
  have hself : Distance r.parents t t 0 := ⟨.refl t, fun _ _ => Nat.zero_le _⟩
  have hne : u ≠ t := by simpa using hu.ascent.notMem
  obtain ⟨n, rfl⟩ : ∃ n, i = n + 1 := by
    refine Nat.exists_eq_succ_of_ne_zero ?_
    rintro rfl
    cases hi.steps
    exact hne rfl
  obtain ⟨short, hlength, hshort⟩ : ∃ short, short.length = n + 1 ∧
      Ascent r.parents [t] (r.parents t) short u := by
    refine exists_shortest_ascent hi.steps hself (by simpa using hi) ?_
    intro w hw
    rw [List.mem_singleton.1 hw]
    exact ⟨0, Nat.le_refl 0, hself⟩
  have hlong : j ≤ bs.length := hj.least _ hv.ascent.steps
  have hparents (w : TypeName) (hw : w ∈ t :: r.ancestors t) : r.parents w ⊆ t :: r.ancestors t :=
    fun p hp => parents_mem_ancestors hw hp
  calc as ≤ short := hu.first short hshort
    _ < bs := hshort.lt_of_length_lt hparents hlast List.mem_cons_self hv.ascent (by omega)

/-- **The ancestors of a generated type, depth first.** In every registry the search ends, after at
most as many visits as there are parents of all types. It finds the names other than the type itself
that one or more parent steps lead to, each once, in the order of their first ascents. This is the
order of their distances exactly if of two ancestors the nearer one always has the earlier first
ascent, and so it is if only last parents have parents. -/
theorem ancestors_are_listed_by_first_ascents (r : Registry) (t : TypeName) :
    (∀ n, r.parentCount < n →
      ancestorsWithin r t n [] (r.parents t) = some (r.ancestors t)) ∧
    (r.ancestors t).Nodup ∧
    (∀ u, u ∈ r.ancestors t ↔ u ≠ t ∧ ∃ n, Steps r.parents (n + 1) t u) ∧
    ((r.ancestors t).Pairwise fun u v => ∃ as bs, FirstAscent r.parents [t] (r.parents t) u as ∧
      FirstAscent r.parents [t] (r.parents t) v bs ∧ as < bs) ∧
    (NearestFirst r.parents t (r.ancestors t) ↔ ∀ u v as bs i j,
      FirstAscent r.parents [t] (r.parents t) u as → FirstAscent r.parents [t] (r.parents t) v bs →
      Distance r.parents t u i → Distance r.parents t v j → i < j → as < bs) ∧
    ((∀ u ∈ t :: r.ancestors t, ∀ p ∈ (r.parents u).dropLast, r.parents p = []) →
      NearestFirst r.parents t (r.ancestors t)) := by
  refine ⟨?_, (tour_ancestors r t).nodup.1, ?_, (ascending_ancestors r t).sorted,
    nearestFirst_ancestors_iff r, nearestFirst_ancestors_of_last r⟩
  · intro n hn
    exact ancestorsWithin_eq hn t
  · intro u
    exact mem_ancestors_iff r

end Ancestors

/-! ### Types of scripts -/

open Inference (Query after afterWithin within after_eq_of_afterWithin answer_eq_of_within)

theorem after_of_afterWithin {s : Setting} {history : List Query} {P : Registry → Prop}
    [DecidablePred P] (depth : Nat)
    (h : (afterWithin s depth history).any (fun r => decide (P r)) = true) :
    P (after s history) := by
  cases hr : afterWithin s depth history with
  | none =>
    rw [hr] at h
    cases h
  | some r =>
    rw [hr] at h
    rw [after_eq_of_afterWithin hr]
    simpa using h

/-- Types whose last parents are generated ones, over three levels. -/
theorem ancestors_of_alternatives_are_nearest_first : ∃ m : Script.Module,
    Script.Module.ofText ("var a = \x7bx: 1\x7d; var b = 1 || a; b.y = 1; " ++
      "var c = '' || b; c.z = 1;").toList = .ok m ∧
    (after (.ofScript .empty m) [.symbol 0 "c"]).ancestors "main$0.c"
      = ["String", "main$0.b", "Number", "main$8", "Object"] ∧
    (∀ u ∈ "main$0.c" :: (after (.ofScript .empty m) [.symbol 0 "c"]).ancestors "main$0.c",
      ∀ p ∈ ((after (.ofScript .empty m) [.symbol 0 "c"]).parents u).dropLast,
        (after (.ofScript .empty m) [.symbol 0 "c"]).parents p = []) ∧
    NearestFirst (after (.ofScript .empty m) [.symbol 0 "c"]).parents "main$0.c"
      ((after (.ofScript .empty m) [.symbol 0 "c"]).ancestors "main$0.c") := by
  obtain ⟨m, hm, hafter⟩ := Script.Module.exists_ofText
    ("var a = \x7bx: 1\x7d; var b = 1 || a; b.y = 1; " ++ "var c = '' || b; c.z = 1;")
    (fun m => (afterWithin (.ofScript .empty m) 20 [.symbol 0 "c"]).any (fun r => decide
      (r.ancestors "main$0.c" = ["String", "main$0.b", "Number", "main$8", "Object"] ∧
        ∀ u ∈ "main$0.c" :: r.ancestors "main$0.c", ∀ p ∈ (r.parents u).dropLast,
          r.parents p = [])) = true) (by decide +kernel)
  obtain ⟨hancestors, hlast⟩ := after_of_afterWithin 20 hafter
  obtain ⟨-, -, -, -, -, hnearest⟩ := ancestors_are_listed_by_first_ascents
    (after (.ofScript .empty m) [.symbol 0 "c"]) "main$0.c"
  exact ⟨m, hm, hancestors, hlast, hnearest hlast⟩

/-- The type of `g` has the type of `f` as its first parent, and what `f` returns comes before what
the other function does. -/
theorem inherited_function_comes_before_parent : ∃ m : Script.Module,
    Script.Module.ofText ("var f = (function () \x7b return 1; \x7d); f.x = 1; " ++
      "var g = f || function () \x7b return ''; \x7d; g.y = 1; g();").toList = .ok m ∧
    (after (.ofScript .empty m) [.symbol 0 "g"]).parents "main$0.g"
      = ["main$0.f", "Function<String>"] ∧
    (after (.ofScript .empty m) [.symbol 0 "g"]).ancestors "main$0.g"
      = ["main$0.f", "Function<Number>", "Function<String>"] ∧
    ¬NearestFirst (after (.ofScript .empty m) [.symbol 0 "g"]).parents "main$0.g"
      ((after (.ofScript .empty m) [.symbol 0 "g"]).ancestors "main$0.g") ∧
    ((Query.offset 97).answer (.ofScript .empty m) []).1 = ["Number", "String"] := by
  obtain ⟨m, hm, hafter, htypes⟩ := Script.Module.exists_ofText
    ("var f = (function () \x7b return 1; \x7d); f.x = 1; " ++
      "var g = f || function () \x7b return ''; \x7d; g.y = 1; g();")
    (fun m => (afterWithin (.ofScript .empty m) 20 [.symbol 0 "g"]).any (fun r => decide
      (r.parents "main$0.g" = ["main$0.f", "Function<String>"] ∧
        r.ancestors "main$0.g" = ["main$0.f", "Function<Number>", "Function<String>"])) = true ∧
      ((afterWithin (.ofScript .empty m) 20 []).bind ((Query.offset 97).run (.ofScript .empty m)
        (within (.ofScript .empty m) 20 []))).map Prod.fst = some ["Number", "String"])
    (by decide +kernel)
  obtain ⟨hparents, hancestors⟩ := after_of_afterWithin 20 hafter
  refine ⟨m, hm, hparents, hancestors, ?_, answer_eq_of_within 20 htypes⟩
  intro hnearest
  rw [hancestors] at hnearest
  have hmem := hnearest.mem_parents (u := "Function<Number>") (v := "Function<String>")
    (by decide) (by rw [hparents]; decide)
  rw [hparents] at hmem
  exact absurd hmem (by decide)

end Registry

end ScriptTypes
