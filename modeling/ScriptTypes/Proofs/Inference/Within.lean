import ScriptTypes.Proofs.Inference.Respects

/-!
# Inference with a limit on nesting

`within s depth` answers as inference does, but gives up where calls are nested more than `depth`
deep. It recurs on the limit alone, so it says nothing about how calls are nested; what it answers
is what inference answers, and for every call there is a limit within which it answers, whatever
the registry holds.
-/

namespace ScriptTypes.Inference

variable {s : Setting}

/-- The answer to a call, unless calls are nested more than `depth` deep. -/
def within (s : Setting) :
    (depth : Nat) → (entered : List Symbol) → (a : Call) → StateT Registry Option a.Answer
  | 0, _, _ => fun _ => none
  | depth + 1, entered, a =>
    match enter entered a with
    | none => return a.unknown
    | some entered => answerCall s (currently s) a fun b _ => within s depth entered b

section Unfolding

variable {entered entered' : List Symbol} {a : Call}

theorem answer_of_enter_eq_none (h : enter entered a = none) :
    answer s entered a = pure a.unknown := by
  rw [answer]
  split
  · rfl
  · simp_all

theorem answer_of_enter_eq_some (h : enter entered a = some entered') :
    answer s entered a = answerCall s (currently s) a fun b _ => answer s entered' b := by
  rw [answer]
  split
  · simp_all
  · rename_i h'
    cases h.symm.trans h'
    rfl

theorem within_of_enter_eq_none (h : enter entered a = none) (depth : Nat) :
    within s (depth + 1) entered a = pure a.unknown := by
  rw [within, h]

theorem within_of_enter_eq_some (h : enter entered a = some entered') (depth : Nat) :
    within s (depth + 1) entered a
      = answerCall s (currently s) a fun b _ => within s depth entered' b := by
  rw [within, h]

end Unfolding

/-- Induction over the calls that are made in the course of a call. -/
theorem nested_induction (s : Setting) {motive : List Symbol → Call → Prop}
    (step : ∀ entered a,
      (∀ entered', enter entered a = some entered' → ∀ b ∈ s.callees a, motive entered' b) →
        motive entered a)
    (entered : List Symbol) (a : Call) : motive entered a := by
  induction entered, a using answer.induct s with
  | case1 entered a hnone =>
    refine step entered a fun entered' hsome => ?_
    cases hnone.symm.trans hsome
  | case2 entered a entered' hsome ih =>
    refine step entered a fun next hnext => ?_
    cases hsome.symm.trans hnext
    exact ih

/-! ### What is answered within a limit is the answer -/

/-- What the first computation results in, if it has a result, the second one results in too. -/
def Refines {α : Type} (f : StateT Registry Option α) (g : Infer α) : Prop :=
  ∀ r x, f r = some x → g r = x

theorem respects_refines (type : TypeName) :
    Respects type (fun {α} (f : StateT Registry Option α) (g : Infer α) => Refines f g) where
  pure x r y h := Option.some.inj h
  bind {α β f f' g g'} hf hg r y h := by
    obtain ⟨⟨x, r'⟩, hx, hy⟩ := Option.bind_eq_some_iff.1 h
    show g' (f' r).1 (f' r).2 = y
    rw [hf r _ hx]
    exact hg x r' y hy
  get r y h := Option.some.inj h
  register parents r y h := Option.some.inj h
  addMember member e r y h := Option.some.inj h

theorem refines_currently (q : Question) : Refines (currently s q) (currently s q) :=
  fun _ _ h => Option.some.inj h

theorem refines_within (depth : Nat) (entered : List Symbol) (a : Call) :
    Refines (within s depth entered a) (answer s entered a) := by
  induction depth generalizing entered a with
  | zero => exact fun r x h => nomatch h
  | succ depth ih =>
    cases h : enter entered a with
    | none =>
      rw [within_of_enter_eq_none h, answer_of_enter_eq_none h]
      exact (respects_refines "").pure a.unknown
    | some entered' =>
      rw [within_of_enter_eq_some h, answer_of_enter_eq_some h]
      exact Respects.answerCall respects_refines refines_currently fun b _ => ih entered' b

/-! ### Some limit suffices -/

/-- The first computation always results in what the second one does. -/
def Matches {α : Type} (f : StateT Registry Option α) (g : Infer α) : Prop :=
  ∀ r, f r = some (g r)

theorem respects_matches (type : TypeName) :
    Respects type (fun {α} (f : StateT Registry Option α) (g : Infer α) => Matches f g) where
  pure x r := rfl
  bind {α β f f' g g'} hf hg r := by
    show (f r).bind _ = some (g' (f' r).1 (f' r).2)
    rw [hf r]
    exact hg (f' r).1 (f' r).2
  get r := rfl
  register parents r := rfl
  addMember member e r := rfl

/-- What holds of a call within a limit, if it holds of the calls made on the way within the limit
below, holds of every call within all limits from some limit on. -/
theorem exists_limit (s : Setting) {P : Nat → List Symbol → Call → Prop}
    (hstep : ∀ depth entered a,
      (∀ entered', enter entered a = some entered' → ∀ b ∈ s.callees a, P depth entered' b) →
        P (depth + 1) entered a)
    (entered : List Symbol) (a : Call) : ∃ limit, ∀ depth, limit ≤ depth → P depth entered a := by
  induction entered, a using nested_induction s with
  | step entered a ih =>
    obtain ⟨limit, hlimit⟩ : ∃ limit, ∀ depth, limit ≤ depth → ∀ entered',
        enter entered a = some entered' → ∀ b ∈ s.callees a, P depth entered' b := by
      cases henter : enter entered a with
      | none => exact ⟨0, nofun⟩
      | some entered' =>
        -- a call makes finitely many calls, so there is a limit for all of them
        have hcallees := ih entered' henter
        simp only [← Filter.eventually_atTop] at hcallees
        obtain ⟨limit, hlimit⟩ :=
          Filter.eventually_atTop.1 ((List.finite_toSet (s.callees a)).eventually_all.2 hcallees)
        refine ⟨limit, fun depth hdepth next hnext => ?_⟩
        cases hnext
        exact hlimit depth hdepth
    refine ⟨limit + 1, fun depth hdepth => ?_⟩
    obtain ⟨depth, rfl⟩ : ∃ d, depth = d + 1 := ⟨depth - 1, by omega⟩
    exact hstep depth entered a (hlimit depth (by omega))

/-- For every call there is a limit that suffices in every registry, and so does any higher one. -/
theorem exists_matches_within (s : Setting) (entered : List Symbol) (a : Call) :
    ∃ limit, ∀ depth, limit ≤ depth → Matches (within s depth entered a) (answer s entered a) := by
  revert entered a
  refine exists_limit s fun depth entered a hcallees => ?_
  cases h : enter entered a with
  | none =>
    rw [within_of_enter_eq_none h, answer_of_enter_eq_none h]
    exact (respects_matches "").pure a.unknown
  | some entered' =>
    rw [within_of_enter_eq_some h, answer_of_enter_eq_some h]
    exact Respects.answerCall respects_matches (fun q r => rfl) (hcallees entered' h)

end ScriptTypes.Inference
