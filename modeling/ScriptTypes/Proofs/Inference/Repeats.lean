import ScriptTypes.Proofs.Inference.Apart
import ScriptTypes.Proofs.Inference.History
import ScriptTypes.Proofs.Inference.Owners

/-!
# Repeated queries

The first run of a query may generate types, and reads them while they are being filled; a second
run finds all of them. Where generated names stand apart, both give the same answer: what the first
run asked about was registered when it asked or can never be generated, so it is asked about the
same types again, and an owner whose type is registered is not inferred from its properties.
-/

namespace ScriptTypes.Inference

open Script (Module)
open ScriptTypes.TypeName (Vocabulary)
open ScriptTypes.TypeName.Vocabulary

variable {s : Setting} {hs : s.Apart}

/-- From a registry on, a computation keeps what is there and ends with a known result; once more,
it does nothing and ends with the same result. -/
structure Repeatable (hs : s.Apart) {α : Type} (K : Vocabulary → α → Prop) (f : Infer α)
    (r : Registry) : Prop where
  closed : (f r).2.Closed hs
  included : r.Included (f r).2
  known : K ((f r).2.vocabulary hs) (f r).1
  again : ∀ r', (f r).2.Included r' → r'.Closed hs → f r' = ((f r).1, r')

/-- A computation is repeatable from every closed registry. -/
def Repeats (hs : s.Apart) {α : Type} (K : Vocabulary → α → Prop) (f : Infer α) : Prop :=
  ∀ r, r.Closed hs → Repeatable hs K f r

section Sequencing

variable {α β : Type} {K : Vocabulary → α → Prop} {K' : Vocabulary → β → Prop} {r : Registry}

theorem repeatable_pure (hr : r.Closed hs) {x : α} (h : K (r.vocabulary hs) x) :
    Repeatable hs K (pure x) r :=
  ⟨hr, .refl r, h, fun _ _ _ => rfl⟩

theorem Repeatable.bind {f : Infer α} {g : α → Infer β} (hf : Repeatable hs K f r)
    (hg : Repeatable hs K' (g (f r).1) (f r).2) : Repeatable hs K' (f >>= g) r := by
  refine ⟨hg.closed, hf.included.trans hg.included, hg.known, fun r' h hr' => ?_⟩
  show g (f r').1 (f r').2 = _
  rw [hf.again r' (hg.included.trans h) hr']
  exact hg.again r' h hr'

theorem repeatable_currently (hr : r.Closed hs) {q : Question}
    (hq : q.Known (r.vocabulary hs)) :
    Repeatable hs (fun V => q.AnswerKnown V) (currently s q) r := by
  refine ⟨hr, .refl r, hr.answerKnown hq, fun r' h hr' => ?_⟩
  show (q.answer s.index r', r') = (q.answer s.index r, r')
  rw [Question.answer_eq_of_included (hr.isReady hq) h hr'.generated]

variable {a : Call} {calls : (b : Call) → b ∈ s.callees a → Infer b.Answer}

/-- A program that knows what it talks about is repeatable if its calls are. -/
theorem repeatable_run (hcalls : ∀ b hb, Repeats hs (fun V => b.Known V) (calls b hb))
    {p : Program s a α} (hr : r.Closed hs) (hp : p.Speaks K (r.vocabulary hs)) :
    Repeatable hs K (p.run (currently s) calls) r := by
  induction p generalizing r with
  | done x => exact repeatable_pure hr hp
  | call b hb rest ih =>
    have hcall := hcalls b hb r hr
    refine hcall.bind (ih _ hcall.closed ?_)
    exact hp _ hcall.included.vocabulary_le _ hcall.known
  | ask q rest ih =>
    have hask := repeatable_currently hr hp.1
    exact hask.bind (ih _ hask.closed (hp.2 _ hask.known))

end Sequencing

theorem knowsAll_parentsFor {V : Vocabulary} {e : Element} (he : V.KnowsElement e) :
    V.KnowsAll (parentsFor e) := by
  unfold parentsFor
  split
  · exact knowsAll_common (by decide)
  · exact he.types

section Owners

variable {o : Owner} {calls : (b : Call) → b ∈ s.callees (.owner o) → Infer b.Answer}
  (hcalls : ∀ b hb, Repeats hs (fun V => b.Known V) (calls b hb))
include hcalls

/-- Members are added to their own type alone. -/
theorem closed_addMembers (properties : List (PropertyName s o)) {r : Registry}
    (hr : r.Closed hs) (hmem : Entries.contains (o.type s) r = true) :
    (addMembers calls properties r).2.Closed hs ∧
      Entries.contains (o.type s) (addMembers calls properties r).2 = true ∧
      ∀ r₀ : Registry, r₀.Included r → Entries.contains (o.type s) r₀ = false →
        r₀.Included (addMembers calls properties r).2 := by
  induction properties generalizing r with
  | nil => exact ⟨hr, hmem, fun r₀ h _ => h⟩
  | cons p properties ih =>
    have hcall := hcalls _ p.2 r hr
    let r₁ : Registry := (calls _ p.2 r).2.addMember (o.type s) p.1 (calls _ p.2 r).1
    have hclosed : r₁.Closed hs := hcall.closed.addMember hcall.known
    have htype : Entries.contains (o.type s) r₁ = true :=
      Registry.contains_addMember.trans (hcall.included.contains hmem)
    obtain ⟨hend, htype, hkept⟩ := ih hclosed htype
    refine ⟨hend, htype, fun r₀ h hnew => hkept r₀ ?_ hnew⟩
    exact (h.trans hcall.included).addMember hnew

/-- A generated type is there when the owner is inferred again. -/
theorem repeatable_generate (ho : o ∈ s.owners) {e : Element}
    (properties : List (PropertyName s o)) {r : Registry} (hr : r.Closed hs)
    (he : (r.vocabulary hs).KnowsElement e) :
    Repeatable hs (fun V => V.KnowsElement) (generate calls e properties) r := by
  by_cases hne : properties = []
  · subst hne
    exact repeatable_pure hr he
  have hknown {r' : Registry} (hle : r.vocabulary hs ≤ r'.vocabulary hs)
      (hmem : Entries.contains (o.type s) r' = true) :
      (r'.vocabulary hs).KnowsElement { e with types := [o.type s] } := by
    refine knowsAll_append.2 ⟨knowsAll_singleton.2 ((Registry.knows_type_iff ho).2 hmem), ?_⟩
    exact (knowsAll_append.1 he).2.mono hle
  by_cases hmem : Entries.contains (o.type s) r = true
  · have heq : generate calls e properties r = ({ e with types := [o.type s] }, r) :=
      generate_of_contains hne hmem
    refine ⟨heq ▸ hr, heq ▸ .refl r, heq ▸ hknown le_rfl hmem, fun r' h hr' => ?_⟩
    rw [heq] at h ⊢
    exact generate_of_contains hne (h.contains hmem)
  · have hnew := Bool.eq_false_iff.2 hmem
    obtain ⟨hclosed, htype, hkept⟩ := closed_addMembers hcalls properties
      (hr.register ho (knowsAll_parentsFor he)) (Registry.contains_register.2 (.inr rfl))
    have hincluded := hkept r ((Registry.Included.refl r).register _) hnew
    have heq : generate calls e properties r = ({ e with types := [o.type s] },
        (addMembers calls properties (r.register (o.type s) (parentsFor e))).2) :=
      generate_of_not_contains hne hnew
    refine ⟨heq ▸ hclosed, heq ▸ hincluded, ?_, fun r' h hr' => ?_⟩
    · rw [heq]
      exact hknown hincluded.vocabulary_le htype
    · rw [heq] at h ⊢
      exact generate_of_contains hne (h.contains htype)

theorem repeats_ownerElement (ho : o ∈ s.owners) :
    Repeats hs (fun V => V.KnowsElement) (ownerElement (currently s) calls) := by
  intro r hr
  have helement := repeatable_run hcalls hr (speaks_element Registry.covers_vocabulary (o := o))
  have hmissing := repeatable_run hcalls helement.closed
    (speaks_missing (o := o) helement.known.types)
  refine helement.bind (hmissing.bind (repeatable_generate hcalls ho _ hmissing.closed ?_))
  exact helement.known.mono hmissing.included.vocabulary_le

end Owners

variable (hs) in
/-- Inference is repeatable. -/
theorem repeats_answer (entered : List Symbol) (a : Call) (ha : s.InModule a) :
    Repeats hs (fun V => a.Known V) (answer s entered a) := by
  induction entered, a using answer.induct s with
  | case1 entered a hnone =>
    intro r hr
    rw [answer_of_enter_eq_none hnone]
    refine repeatable_pure hr ?_
    cases a <;> exact fun t ht => absurd ht List.not_mem_nil
  | case2 entered a entered' hsome ih =>
    have hcalls (b : Call) (hb : b ∈ s.callees a) :
        Repeats hs (fun V => b.Known V) (answer s entered' b) :=
      ih b hb (s.inModule_of_mem_callees ha hb)
    rw [answer_of_enter_eq_some hsome]
    cases a with
    | node scope n =>
      exact fun r hr => repeatable_run hcalls hr (speaks_nodeTypes Registry.covers_vocabulary)
    | owner o =>
      by_cases hproperties : o.hasProperties s = true
      · exact repeats_ownerElement hcalls (s.mem_owners.2 ⟨ha, hproperties⟩)
      · intro r hr
        show Repeatable hs _ (ownerElement (currently s) _) r
        rw [ownerElement_of_isEmpty (Owner.properties_eq_nil hproperties)]
        exact repeatable_run hcalls hr (speaks_element Registry.covers_vocabulary)

variable (hs) in
theorem Query.repeats (q : Query) : Repeats hs (fun _ _ => True) (q.answer s) := by
  intro r hr
  unfold Query.answer Query.run
  cases hq : q.subject s with
  | call a =>
    have hcall := repeats_answer hs [] a (Query.inModule_of_subject hq).1 r hr
    exact hcall.bind (repeatable_pure hcall.closed trivial)
  | globals name => exact repeatable_pure hr trivial
  | nothing => exact repeatable_pure hr trivial

theorem closed_after (hs : s.Apart) (history : List Query) : (after s history).Closed hs := by
  refine after_of_invariant (I := Registry.Closed hs) (.nil hs) (fun a hmodule _ r hr => ?_) history
  exact (repeats_answer hs [] a hmodule r hr).closed

/-- A query that is run twice in a row gives the same answer, and the second run leaves the registry
as it is. This holds after any queries, for a script whose file has no character of type names in
its stem, if the names from outside do not contain the beginning of generated names and no bracket
or separator stands in the path to a property, with properties of its own, of an object literal. -/
theorem repeated_queries_agree {cs : List Char} {m : Module} (hm : Module.ofText cs = .ok m)
    (index : Index) (renames : TypeRenaming) (location : Path) (resolve : String → Option Path)
    {s : Setting} (hsetting : s = .ofModule m index renames location resolve)
    (hstem : ∀ c ∈ s.fileStem.toList, Setting.isInert c = true)
    (hforeign : ∀ t ∈ s.foreignNames, ¬ s.mark <:+: TypeName.compact t.toList)
    (hliterals : ∀ o ∈ s.owners, o.home = none →
      ∀ c ∈ (o.collection s).path.toList, TypeName.separates c = false)
    (history : List Query) (q : Query) :
    q.answer s (q.answer s (after s history)).2 = q.answer s (after s history) := by
  have hscripted : s.Scripted :=
    hsetting ▸ Setting.scripted_ofModule hm index renames location resolve
  have hs := hscripted.apart hstem hforeign hliterals
  have hquery := q.repeats hs (after s history) (closed_after hs history)
  exact hquery.again _ (.refl _) hquery.closed

/-- The types of `b.z`, where the literals and the symbol get types with members. -/
theorem repeated_queries_agree_array : ∃ m : Module,
    Module.ofText "var b = \x7bk: \x7bc: 1\x7d\x7d; b.z = [\x7by: 1\x7d]; b.z;".toList = .ok m ∧
    ((Query.offset 39).answer (.ofScript .empty m) (after (.ofScript .empty m) [.symbol 0 "b"])).1
      = ["Array<main$28>"] ∧
    (Query.offset 39).answer (.ofScript .empty m)
        ((Query.offset 39).answer (.ofScript .empty m)
          (after (.ofScript .empty m) [.symbol 0 "b"])).2
      = (Query.offset 39).answer (.ofScript .empty m)
          (after (.ofScript .empty m) [.symbol 0 "b"]) := by
  obtain ⟨m, hm, hforeign, hliterals, htypes⟩ := Module.exists_ofText
    "var b = \x7bk: \x7bc: 1\x7d\x7d; b.z = [\x7by: 1\x7d]; b.z;"
    (fun m => (∀ t ∈ (Setting.ofScript .empty m).foreignNames,
        ¬ (Setting.ofScript .empty m).mark <:+: TypeName.compact t.toList) ∧
      (Setting.ofScript .empty m).hasPlainLiterals = true ∧
      ((afterWithin (.ofScript .empty m) 20 [.symbol 0 "b"]).bind
        ((Query.offset 39).run (.ofScript .empty m)
          (within (.ofScript .empty m) 20 []))).map Prod.fst
        = some ["Array<main$28>"]) (by decide +kernel)
  refine ⟨m, hm, answer_eq_of_within 20 htypes, ?_⟩
  exact repeated_queries_agree hm .empty .empty "main.js" (fun _ => none) rfl
    (Setting.isInert_ofScript .empty m) hforeign (Setting.of_hasPlainLiterals hliterals)
    [.symbol 0 "b"] (.offset 39)

/-- A key that is written like an array gives a literal's property the name of an array type. The
sum is a number at first, when nothing is known about the array, and a string once the literal has
a type. -/
theorem repeated_sum_changes : ∃ m : Module,
    Module.ofText ("\x7b\"f[]\": \x7bg: \"s\", k: \x7bh: 1\x7d\x7d\x7d + [f].g; " ++
      "var f = \x7b\x7d; if (1) f.x = 1;").toList = .ok m ∧
    (∀ c ∈ (Setting.ofScript .empty m).fileStem.toList, Setting.isInert c = true) ∧
    (Setting.ofScript .empty m).foreignNames = [] ∧
    ((Query.offset 29).answer (.ofScript .empty m) (after (.ofScript .empty m) [])).1 = ["Number"] ∧
    ((Query.offset 29).answer (.ofScript .empty m) (after (.ofScript .empty m) [.offset 29])).1
      = ["String"] := by
  obtain ⟨m, hm, hforeign, hfirst, hsecond⟩ := Module.exists_ofText
    ("\x7b\"f[]\": \x7bg: \"s\", k: \x7bh: 1\x7d\x7d\x7d + [f].g; " ++
      "var f = \x7b\x7d; if (1) f.x = 1;")
    (fun m => (Setting.ofScript .empty m).foreignNames = [] ∧
      ((afterWithin (.ofScript .empty m) 20 []).bind
        ((Query.offset 29).run (.ofScript .empty m)
          (within (.ofScript .empty m) 20 []))).map Prod.fst
        = some ["Number"] ∧
      ((afterWithin (.ofScript .empty m) 20 [.offset 29]).bind
        ((Query.offset 29).run (.ofScript .empty m)
          (within (.ofScript .empty m) 20 []))).map Prod.fst
        = some ["String"]) (by decide +kernel)
  exact ⟨m, hm, Setting.isInert_ofScript .empty m, hforeign, answer_eq_of_within 20 hfirst,
    answer_eq_of_within 20 hsecond⟩

end ScriptTypes.Inference
