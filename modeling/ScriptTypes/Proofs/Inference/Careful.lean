import ScriptTypes.Proofs.Inference.Included
import ScriptTypes.Proofs.Inference.Reach

/-!
# Careful inference

A question about a type visits the type and its ancestors. If one of these is the name of a type
that can be generated but is not there yet, the answer depends on when the question is asked.
`carefully s depth` infers within a limit and gives up at such a question, where it asks it itself;
the owners with properties that it calls infer as they do.

Registries of which one includes the other answer a question alike that is ready in the smaller
one, if the larger one holds generated types only.
-/

namespace ScriptTypes.Inference

variable {s : Setting}

namespace Question

/-- The types that a question is about, and their ancestors. -/
def visits (r : Registry) : Question → List TypeName
  | members type _ | ancestors type => type :: r.ancestors type
  | shows types _ => types.flatMap fun t => t :: r.ancestors t

/-- Are all types registered that can be generated for the names which a question visits? -/
def isReady (s : Setting) (r : Registry) (q : Question) : Bool :=
  (q.visits r).all fun t => !s.isGenerated t || Entries.contains t r

theorem parents_subset_visits {r : Registry} {q : Question} {t : TypeName} (ht : t ∈ q.visits r) :
    r.parents t ⊆ q.visits r := by
  intro p hp
  cases q with
  | members type member => exact Registry.parents_mem_ancestors ht hp
  | ancestors type => exact Registry.parents_mem_ancestors ht hp
  | shows types member =>
    obtain ⟨u, hu, ht⟩ := List.mem_flatMap.1 ht
    exact List.mem_flatMap.2 ⟨u, hu, Registry.parents_mem_ancestors ht hp⟩

/-- A question is answered alike where its types are the same. -/
theorem answer_eq_of_agreeOn {index : Index} {r r' : Registry} {q : Question}
    (h : Registry.AgreeOn (q.visits r) r r') : q.answer index r = q.answer index r' := by
  cases q with
  | members type member => exact h.lookup_eq List.mem_cons_self
  | ancestors type => exact h.ancestors_eq List.mem_cons_self
  | shows types member =>
    show types.any _ = types.any _
    rw [Bool.eq_iff_iff, List.any_eq_true, List.any_eq_true]
    refine exists_congr fun t => and_congr_right fun ht => ?_
    rw [h.lookup_eq (List.mem_flatMap.2 ⟨t, ht, List.mem_cons_self⟩)]

/-- A question that is ready in a registry has the same answer in a larger one. -/
theorem answer_eq_of_included {r r' : Registry} {q : Question} (hready : q.isReady s r = true)
    (h : r.Included r') (hr' : ∀ t, Entries.contains t r' = true → s.isGenerated t = true) :
    q.answer s.index r = q.answer s.index r' := by
  refine answer_eq_of_agreeOn ⟨fun t ht => ?_, fun t ht => parents_subset_visits ht⟩
  by_cases hmem : Entries.contains t r = true
  · exact (h t hmem).symm
  · have hnot : s.isGenerated t ≠ true := by
      have hvisit := List.all_eq_true.1 hready t ht
      simpa [hmem] using hvisit
    have hmem' : Entries.contains t r' ≠ true := fun hcontains => hnot (hr' t hcontains)
    rw [Entries.contains_eq_false_iff.1 (Bool.eq_false_iff.2 hmem),
      Entries.contains_eq_false_iff.1 (Bool.eq_false_iff.2 hmem')]

end Question

/-- The answer to a question that is ready. -/
def cautiously (s : Setting) (q : Question) : StateT Registry Option q.Answer := fun r =>
  if q.isReady s r then some (q.answer s.index r, r) else none

/-- Can a type be generated by a call itself? -/
def Call.generates (s : Setting) : Call → Bool
  | .node _ _ => false
  | .owner o => o.hasProperties s

section Owners

variable {m m' : Type → Type} [Monad m] [Monad m'] [LawfulMonad m] [LawfulMonad m']
  {R : Related m m'} {o : Owner} {questions : (q : Question) → StateT Registry m q.Answer}
  {questions' : (q : Question) → StateT Registry m' q.Answer}
  {calls : (b : Call) → b ∈ s.callees (.owner o) → StateT Registry m b.Answer}
  {calls' : (b : Call) → b ∈ s.callees (.owner o) → StateT Registry m' b.Answer}

/-- A relation that sequencing keeps extends from the calls of an owner to its element; the work on
a generated type matters if the owner has properties. -/
theorem Sequential.ownerElement_of_hasProperties (h : Sequential R)
    (hgenerate : o.hasProperties s = true →
      ∀ e properties, R (generate calls e properties) (generate calls' e properties))
    (hq : ∀ q, R (questions q) (questions' q)) (hc : ∀ b hb, R (calls b hb) (calls' b hb)) :
    R (Inference.ownerElement questions calls) (Inference.ownerElement questions' calls') := by
  by_cases hproperties : o.hasProperties s = true
  · exact h.ownerElement (hgenerate hproperties) hq hc
  · have hempty := Owner.properties_eq_nil hproperties
    rw [ownerElement_of_isEmpty hempty, ownerElement_of_isEmpty hempty]
    exact h.run hq hc (element s o)

end Owners

/-- A relation that sequencing keeps extends from nested calls to a call; the work on a generated
type matters if a type can be generated. -/
theorem Sequential.answerCall {m m' : Type → Type} [Monad m] [Monad m'] [LawfulMonad m]
    [LawfulMonad m'] {R : Related m m'} (h : Sequential R) {a : Call}
    (hown : ∀ o, a = .owner o → o.hasProperties s = true → Extends s o R)
    {questions : (q : Question) → StateT Registry m q.Answer}
    {questions' : (q : Question) → StateT Registry m' q.Answer}
    {calls : (b : Call) → b ∈ s.callees a → StateT Registry m b.Answer}
    {calls' : (b : Call) → b ∈ s.callees a → StateT Registry m' b.Answer}
    (hq : ∀ q, R (questions q) (questions' q)) (hc : ∀ b hb, R (calls b hb) (calls' b hb)) :
    R (answerCall s questions a calls) (answerCall s questions' a calls') := by
  match a with
  | .node scope n => exact h.run hq hc (nodeTypes s scope n)
  | .owner o =>
    refine h.ownerElement_of_hasProperties (fun hproperties => ?_) hq hc
    exact hown o rfl hproperties calls calls' hc

/-- A property of computations that sequencing keeps is one of inference, if it is one of nested
calls and of the work on a generated type. -/
theorem Sequential.answer_of_generate {R : Related Id Id} (h : Sequential R) {a : Call}
    (hown : ∀ o, a = .owner o → o.hasProperties s = true → ∀ entered',
      (∀ b ∈ s.callees (.owner o), R (Inference.answer s entered' b) (Inference.answer s entered' b)) →
      ∀ e (properties : List (PropertyName s o)),
        R (generate (fun b _ => Inference.answer s entered' b) e properties)
          (generate (fun b _ => Inference.answer s entered' b) e properties))
    (hq : ∀ q, R (currently s q) (currently s q)) {entered : List Symbol}
    (hc : ∀ entered', enter entered a = some entered' → ∀ b ∈ s.callees a,
      R (Inference.answer s entered' b) (Inference.answer s entered' b)) :
    R (Inference.answer s entered a) (Inference.answer s entered a) := by
  cases ha : enter entered a with
  | none =>
    rw [answer_of_enter_eq_none ha]
    exact h.pure a.unknown
  | some entered' =>
    have hcalls := hc entered' ha
    rw [answer_of_enter_eq_some ha]
    match a with
    | .node scope n => exact h.run hq hcalls (nodeTypes s scope n)
    | .owner o =>
      refine h.ownerElement_of_hasProperties (fun hproperties => ?_) hq hcalls
      exact hown o rfl hproperties entered' hcalls

theorem Sequential.answer {R : Related Id Id} (h : Sequential R) {a : Call}
    (hown : ∀ o, a = .owner o → o.hasProperties s = true → Extends s o R)
    (hq : ∀ q, R (currently s q) (currently s q)) {entered : List Symbol}
    (hc : ∀ entered', enter entered a = some entered' → ∀ b ∈ s.callees a,
      R (Inference.answer s entered' b) (Inference.answer s entered' b)) :
    R (Inference.answer s entered a) (Inference.answer s entered a) :=
  h.answer_of_generate (fun o ho hproperties _ => hown o ho hproperties _ _) hq hc

/-- The answer to a call within a limit, if all questions are ready that are asked outside of
owners with properties. -/
def carefully (s : Setting) :
    (depth : Nat) → (entered : List Symbol) → (a : Call) → StateT Registry Option a.Answer
  | 0, _, _ => fun _ => none
  | depth + 1, entered, a =>
    match enter entered a with
    | none => return a.unknown
    | some entered => answerCall s (cautiously s) a fun b _ =>
      if Call.generates s b then within s depth entered b else carefully s depth entered b

section Unfolding

variable {entered entered' : List Symbol} {a : Call}

theorem carefully_of_enter_eq_none (h : enter entered a = none) (depth : Nat) :
    carefully s (depth + 1) entered a = pure a.unknown := by
  rw [carefully, h]

theorem carefully_of_enter_eq_some (h : enter entered a = some entered') (depth : Nat) :
    carefully s (depth + 1) entered a = answerCall s (cautiously s) a fun b _ =>
      if Call.generates s b then within s depth entered' b else carefully s depth entered' b := by
  rw [carefully, h]

end Unfolding

theorem refines_cautiously (q : Question) : Refines (cautiously s q) (currently s q) := by
  intro r x h
  unfold cautiously at h
  split at h
  · exact Option.some.inj h
  · cases h

/-- What is answered carefully is the answer. -/
theorem refines_carefully (depth : Nat) (entered : List Symbol) (a : Call) :
    Refines (carefully s depth entered a) (answer s entered a) := by
  induction depth generalizing entered a with
  | zero => exact fun r x h => nomatch h
  | succ depth ih =>
    cases h : enter entered a with
    | none =>
      rw [carefully_of_enter_eq_none h, answer_of_enter_eq_none h]
      exact (respects_refines "").pure a.unknown
    | some entered' =>
      rw [carefully_of_enter_eq_some h, answer_of_enter_eq_some h]
      refine Respects.answerCall respects_refines refines_cautiously fun b _ => ?_
      split
      · exact refines_within depth entered' b
      · exact ih entered' b

theorem carefully_congr (depth : Nat) {a : Call} {entered entered' : List Symbol}
    (h : SameFor s a entered entered') :
    carefully s depth entered a = carefully s depth entered' a := by
  induction depth generalizing a entered entered' with
  | zero => rfl
  | succ depth ih =>
    rcases h.enter with ⟨hnone, hnone'⟩ | ⟨next, next', hsome, hsome', hnext⟩
    · rw [carefully_of_enter_eq_none hnone, carefully_of_enter_eq_none hnone']
    · rw [carefully_of_enter_eq_some hsome, carefully_of_enter_eq_some hsome']
      congr 1
      funext b hb
      rw [within_congr depth (hnext b hb), ih (hnext b hb)]

end ScriptTypes.Inference
