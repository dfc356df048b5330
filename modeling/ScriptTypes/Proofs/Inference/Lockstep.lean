import ScriptTypes.Proofs.Inference.Faithful

/-!
# Inference in lockstep

A careful inference that starts with nothing and the inference in a faithful registry give the same
answers, and what the first registers the second has registered too. The two differ where the type
of an owner is there already for the second one; the registry then holds what the first one goes
on to generate, since it is faithful.

Main statements: `settles_and_follows`, which says this of all calls that a steady call reaches,
and `keepsFaithful_answer`: any call keeps a registry faithful.
-/

namespace ScriptTypes.Inference

variable {s : Setting} {start : Call}

/-- What the inference of a reached owner does to a faithful registry: it gives what it gives alone,
and adds what it adds alone. -/
structure Answered (s : Setting) (start : Call) (opened : List Owner) (o : Owner) (r : Registry)
    (result : Element × Registry) : Prop where
  element : result.1 = (alone s o).1
  faithful : Faithful s start opened result.2
  included : (alone s o).2.Included result.2
  kept : r.Included result.2
  only : ∀ t, Entries.contains t result.2 = true →
    Entries.contains t r = true ∨ Entries.contains t (alone s o).2 = true
  avoids : ∀ o' ∈ opened, Entries.contains (o'.type s) (alone s o).2 = false

/-- The registry `r` of an inference that began with `r₀`, and the registry `r'` of a careful one
that began with nothing. Each has its open owners; the types of those in `hidden` are not in `r'`. -/
structure Lockstep (s : Setting) (start : Call) (opened opened' hidden : List Owner)
    (r₀ r r' : Registry) : Prop where
  faithful : Faithful s start opened r
  faithful' : Faithful s start opened' r'
  included : r'.Included r
  kept : r₀.Included r
  only : ∀ t, Entries.contains t r = true →
    Entries.contains t r₀ = true ∨ Entries.contains t r' = true
  avoids : ∀ o ∈ hidden, Entries.contains (o.type s) r' = false

/-- Two computations stay in lockstep and have the same result. -/
def InLockstep (s : Setting) (start : Call) (opened opened' hidden : List Owner) (r₀ : Registry)
    {α : Type} (g : StateT Registry Option α) (f : Infer α) : Prop :=
  ∀ r r' x next, Lockstep s start opened opened' hidden r₀ r r' → g r' = some (x, next) →
    (f r).1 = x ∧ Lockstep s start opened opened' hidden r₀ (f r).2 next

variable {opened opened' hidden : List Owner} {r₀ : Registry}

theorem sequential_inLockstep :
    Sequential (fun {α} (g : StateT Registry Option α) (f : Infer α) =>
      InLockstep s start opened opened' hidden r₀ g f) where
  pure x r r' y next h heq := by
    cases heq
    exact ⟨rfl, h⟩
  bind {α β g f g' f'} hg hg' r r' y next h heq := by
    obtain ⟨⟨x, r''⟩, hx, hy⟩ := Option.bind_eq_some_iff.1 heq
    obtain ⟨hfst, hnext⟩ := hg r r' x r'' h hx
    subst hfst
    exact hg' (f r).1 (f r).2 r'' y next hnext hy

theorem inLockstep_question (q : Question) :
    InLockstep s start opened opened' hidden r₀ (cautiously s q) (currently s q) := by
  intro r r' x next h heq
  unfold cautiously at heq
  split at heq
  · rename_i hready
    cases heq
    exact ⟨(Question.answer_eq_of_included hready h.included h.faithful.generated).symm, h⟩
  · cases heq

/-- Both computations add the same member to a type that is open in both. -/
theorem inLockstep_addMember {o : Owner} (ho : o ∈ opened) (ho' : o ∈ opened')
    (hnew : Entries.contains (o.type s) r₀ = false) (member : String) (e : Element) :
    InLockstep s start opened opened' hidden r₀
      (modify fun r => r.addMember (o.type s) member e)
      (modify fun r => r.addMember (o.type s) member e) := by
  intro r r' x next h heq
  cases heq
  refine ⟨rfl, h.faithful.addMember ho member e, h.faithful'.addMember ho' member e,
    h.included.addMember_both member e, h.kept.addMember hnew, fun t ht => ?_, fun o' hmem => ?_⟩
  · have hr := h.only t (Registry.contains_addMember ▸ ht)
    exact hr.imp_right fun hr' => Registry.contains_addMember.trans hr'
  · exact Registry.contains_addMember.trans (h.avoids o' hmem)

/-- A reached owner that both computations call. -/
theorem inLockstep_owner {o : Owner} {entered : List Symbol} {depth : Nat}
    (hhidden : ∀ o ∈ hidden, o ∈ opened ∨ o ∈ opened')
    (h : ∀ r, Faithful s start opened r → Answered s start opened o r (answer s entered (.owner o) r))
    (h' : ∀ r, Faithful s start opened' r →
      Answered s start opened' o r (answer s entered (.owner o) r)) :
    InLockstep s start opened opened' hidden r₀ (within s depth entered (.owner o))
      (answer s entered (.owner o)) := by
  intro r r' x next hstep heq
  have hanswer := h r hstep.faithful
  have hanswer' := h' r' hstep.faithful'
  rw [refines_within depth entered (.owner o) r' _ heq] at hanswer'
  refine ⟨hanswer.element.trans hanswer'.element.symm, hanswer.faithful, hanswer'.faithful,
    fun t ht => ?_, hstep.kept.trans hanswer.kept, fun t ht => ?_, fun o' ho' => ?_⟩
  · rcases hanswer'.only t ht with ht | ht
    · rw [hanswer.kept t (hstep.included.contains ht), hstep.included t ht, hanswer'.kept t ht]
    · rw [hanswer.included t ht, hanswer'.included t ht]
  · rcases hanswer.only t ht with ht | ht
    · exact (hstep.only t ht).imp_right hanswer'.kept.contains
    · exact .inr (hanswer'.included.contains ht)
  · rw [Bool.eq_false_iff]
    intro hmem
    rcases hanswer'.only _ hmem with hmem | hmem
    · simp [hstep.avoids o' ho'] at hmem
    · rcases hhidden o' ho' with ho' | ho'
      · simp [hanswer.avoids o' ho'] at hmem
      · simp [hanswer'.avoids o' ho'] at hmem

/-! ### All calls that a steady call reaches -/

/-- The owner that a call is of, if it has properties, is answered as it is alone. -/
def Settles (s : Setting) (start : Call) (entered : List Symbol) (a : Call) : Prop :=
  ∀ o, a = .owner o → o.hasProperties s = true → ∀ entered', enter entered a = some entered' →
    ∀ opened r, Stack s start entered opened a → Faithful s start opened r →
      Answered s start opened o r (answer s entered (.owner o) r)

/-- A call that generates no type itself is in lockstep with a careful one. -/
def Follows (s : Setting) (start : Call) (entered : List Symbol) (a : Call) : Prop :=
  Call.generates s a = false → ∀ depth opened opened' hidden r₀,
    (∀ o ∈ hidden, o ∈ opened ∨ o ∈ opened') → Stack s start entered opened a →
      Stack s start entered opened' a →
        InLockstep s start opened opened' hidden r₀ (carefully s depth entered a)
          (answer s entered a)

/-- A nested call, of either kind. -/
theorem inLockstep_call {entered : List Symbol} {b : Call} (hsettles : Settles s start entered b)
    (hfollows : Follows s start entered b) (hhidden : ∀ o ∈ hidden, o ∈ opened ∨ o ∈ opened')
    (hstack : Stack s start entered opened b) (hstack' : Stack s start entered opened' b)
    (depth : Nat) :
    InLockstep s start opened opened' hidden r₀
      (if Call.generates s b then within s depth entered b else carefully s depth entered b)
      (answer s entered b) := by
  split
  · rename_i hgenerates
    match b with
    | .owner o =>
      cases ha : enter entered (.owner o) with
      | some entered' =>
        exact inLockstep_owner hhidden
          (fun r => hsettles o rfl hgenerates entered' ha opened r hstack)
          (fun r => hsettles o rfl hgenerates entered' ha opened' r hstack')
      | none =>
        match depth with
        | 0 => exact fun r r' x next h heq => nomatch heq
        | depth + 1 =>
          rw [within_of_enter_eq_none ha, answer_of_enter_eq_none ha]
          exact sequential_inLockstep.pure _
  · rename_i hgenerates
    exact hfollows (Bool.eq_false_iff.2 hgenerates) depth opened opened' hidden r₀ hhidden hstack
      hstack'

/-- A call follows if its callees settle and follow. -/
theorem follows_of_callees (hsteady : Steady s start) {entered : List Symbol} {a : Call}
    (hcallees : ∀ entered', enter entered a = some entered' → ∀ b ∈ s.callees a,
      Settles s start entered' b ∧ Follows s start entered' b) :
    Follows s start entered a := by
  intro hgenerates depth opened opened' hidden r₀ hhidden hstack hstack'
  match depth with
  | 0 => exact fun r r' x next h heq => nomatch heq
  | depth + 1 =>
    cases ha : enter entered a with
    | none =>
      rw [carefully_of_enter_eq_none ha, answer_of_enter_eq_none ha]
      exact sequential_inLockstep.pure _
    | some entered' =>
      rw [carefully_of_enter_eq_some ha, answer_of_enter_eq_some ha]
      refine sequential_inLockstep.answerCall ?_ inLockstep_question fun b hb => ?_
      · rintro o rfl hproperties
        simp [Call.generates, hproperties] at hgenerates
      · obtain ⟨hsettles, hfollows⟩ := hcallees entered' ha b hb
        exact inLockstep_call hsettles hfollows hhidden (hstack.nested hsteady ha hb)
          (hstack'.nested hsteady ha hb) depth

/-! ### Generating a type in lockstep -/

section Generating

variable {o : Owner} {r r' : Registry}

/-- Where a new type is registered, both registries get it. -/
theorem Lockstep.register (hsteady : Steady s start) (ho : o ∈ s.owners) (hopen : o ∉ opened)
    (hreached : ∀ o' ∈ opened, Reached s start o')
    (h : Lockstep s start opened [o] (o :: opened) r₀ r r')
    (hnew : Entries.contains (o.type s) r = false) (parents : List TypeName) :
    Lockstep s start (o :: opened) [o] opened r₀ (r.register (o.type s) parents)
      (r'.register (o.type s) parents) := by
  have hnew' : Entries.contains (o.type s) r' = false := h.avoids o List.mem_cons_self
  refine ⟨h.faithful.register hsteady ho hnew parents,
    (h.faithful'.register hsteady ho hnew' parents).of_mem_iff (by simp),
    h.included.register_both parents hnew, h.kept.register parents, fun t ht => ?_, fun o' ho' => ?_⟩
  · rcases Registry.contains_register.1 ht with ht | rfl
    · exact (h.only t ht).imp_right fun ht => Registry.contains_register.2 (.inl ht)
    · exact .inr (Registry.contains_register.2 (.inr rfl))
  · rw [Bool.eq_false_iff]
    intro hmem
    rcases Registry.contains_register.1 hmem with hmem | heq
    · simp [h.avoids o' (List.mem_cons_of_mem _ ho')] at hmem
    · have := hsteady.named o' (hreached o' ho') o ho heq.symm
      exact hopen (this ▸ ho')

/-- The careful registry alone, before and after a type is registered. -/
theorem Lockstep.register_self (hsteady : Steady s start) (ho : o ∈ s.owners)
    (h : Faithful s start [o] r') (hnew : Entries.contains (o.type s) r' = false)
    (parents : List TypeName) :
    Lockstep s start [o] [o] [] r' (r'.register (o.type s) parents)
      (r'.register (o.type s) parents) := by
  have hregister : Faithful s start [o] (r'.register (o.type s) parents) :=
    (h.register hsteady ho hnew parents).of_mem_iff (by simp)
  exact ⟨hregister, hregister, .refl _, (Registry.Included.refl r').register parents,
    fun t ht => .inr ht, by simp⟩

variable {calls : (b : Call) → b ∈ s.callees (.owner o) → Infer b.Answer}
  {calls' : (b : Call) → b ∈ s.callees (.owner o) → StateT Registry Option b.Answer}
  {e : Element} {properties : List (PropertyName s o)}

/-- The careful registry keeps what it holds while members are added to a new type. -/
theorem included_of_addMembers (hsteady : Steady s start) (howner : o ∈ s.owners)
    (h : Faithful s start [o] r') (hnew : Entries.contains (o.type s) r' = false)
    (hself : ∀ b hb, InLockstep s start [o] [o] [] r' (calls' b hb) (calls b hb))
    (hrefines : ∀ b hb, Refines (calls' b hb) (calls b hb)) {parents : List TypeName} {u : Unit}
    {next : Registry}
    (hadd : addMembers calls' properties (r'.register (o.type s) parents) = some (u, next)) :
    r'.Included next := by
  have hstep := Lockstep.register_self hsteady howner h hnew parents
  obtain ⟨-, hend⟩ := sequential_inLockstep.addMembers
    (inLockstep_addMember List.mem_cons_self List.mem_cons_self hnew) hself properties _ _ _ _
    hstep hadd
  have hrespects := respects_refines (o.type s)
  have hsame := hrespects.addMembers hrespects.addMember hrefines properties _ _ hadd
  rw [hsame] at hend
  exact hend.kept

/-- The end of an owner's inference. If the type is there already, the registry includes what the
careful inference goes on to generate; else both generate it. -/
theorem answered_generate (hsteady : Steady s start) (ho : Reached s start o) (howner : o ∈ s.owners)
    (hopen : o ∉ opened) (hreached : ∀ o' ∈ opened, Reached s start o')
    (hfaithful : Faithful s start opened r₀)
    (h : Lockstep s start opened [o] (o :: opened) r₀ r r')
    (hmembers : ∀ b hb, InLockstep s start (o :: opened) [o] opened r₀ (calls' b hb) (calls b hb))
    (hself : ∀ b hb, InLockstep s start [o] [o] [] r' (calls' b hb) (calls b hb))
    (hrefines : ∀ b hb, Refines (calls' b hb) (calls b hb))
    (halone : generate calls' e properties r' = some (alone s o)) :
    Answered s start opened o r₀ (generate calls e properties r) := by
  by_cases hne : properties = []
  · subst hne
    obtain ⟨hfst, hsnd⟩ : e = (alone s o).1 ∧ r' = (alone s o).2 :=
      Prod.ext_iff.1 (Option.some.inj halone)
    rw [hsnd] at h
    exact ⟨hfst, h.faithful, h.included, h.kept, h.only,
      fun o' ho' => h.avoids o' (List.mem_cons_of_mem _ ho')⟩
  have hnew' : Entries.contains (o.type s) r' = false := h.avoids o List.mem_cons_self
  rw [generate_of_not_contains hne hnew'] at halone
  obtain ⟨⟨u, next'⟩, hadd, heq⟩ := Option.bind_eq_some_iff.1 halone
  obtain ⟨hfst, hsnd⟩ : { e with types := [o.type s] } = (alone s o).1 ∧ next' = (alone s o).2 :=
    Prod.ext_iff.1 (Option.some.inj heq)
  by_cases hmem : Entries.contains (o.type s) r = true
  · -- the registry was faithful when the inference began
    have hmem₀ : Entries.contains (o.type s) r₀ = true :=
      (h.only _ hmem).resolve_right (by simp [hnew'])
    have hgrows := included_of_addMembers hsteady howner h.faithful' hnew' hself hrefines hadd
    rw [generate_of_contains hne hmem]
    refine ⟨hfst, h.faithful, ?_, h.kept, fun t ht => ?_, ?_⟩
    · exact (hfaithful.included o ho hopen hmem₀).trans h.kept
    · rw [← hsnd]
      exact (h.only t ht).imp_right hgrows.contains
    · exact hfaithful.avoids o ho hopen hmem₀
  · have hnew := Bool.eq_false_iff.2 hmem
    have hnew₀ : Entries.contains (o.type s) r₀ = false :=
      Bool.eq_false_iff.2 fun hmem₀ => hmem (h.kept.contains hmem₀)
    have hstep := h.register hsteady howner hopen hreached hnew (parentsFor e)
    obtain ⟨-, hend⟩ := sequential_inLockstep.addMembers
      (inLockstep_addMember List.mem_cons_self List.mem_cons_self hnew₀) hmembers properties
      _ _ _ _ hstep hadd
    rw [generate_of_not_contains hne hnew]
    rw [hsnd] at hend
    exact ⟨hfst, hend.faithful.close hend.included hend.avoids, hend.included,
      hend.kept, hend.only, hend.avoids⟩

end Generating

/-- An owner settles if its callees settle and follow. -/
theorem settles_of_callees (hsteady : Steady s start) {entered : List Symbol} {a : Call}
    (hreaches : Reaches s start a)
    (hcallees : ∀ entered', enter entered a = some entered' → ∀ b ∈ s.callees a,
      Settles s start entered' b ∧ Follows s start entered' b) :
    Settles s start entered a := by
  rintro o rfl hproperties entered' ha opened r hstack hfaithful
  have ho : Reached s start o := ⟨hreaches, hproperties⟩
  have howner : o ∈ s.owners := s.mem_owners.2 ⟨hstack.inModule, hproperties⟩
  -- the careful inference that starts with nothing, seen from where the owner is called
  obtain ⟨depth, hsome⟩ := hsteady.ready (.owner o) (.inr ⟨o, rfl, ho⟩)
  obtain ⟨result, hrun⟩ := Option.isSome_iff_exists.1 hsome
  obtain rfl : alone s o = result := refines_carefully depth o.around (.owner o) [] _ hrun
  rw [show Call.around (.owner o) = o.around from rfl,
    carefully_congr depth (hstack.sameFor hsteady ho ha)] at hrun
  match depth with
  | 0 => exact nomatch hrun
  | depth + 1 =>
    rw [carefully_of_enter_eq_some ha] at hrun
    obtain ⟨⟨e, r₁'⟩, helement, hrun⟩ := Option.bind_eq_some_iff.1 hrun
    obtain ⟨⟨properties, r₂'⟩, hmissing, hgenerate⟩ := Option.bind_eq_some_iff.1 hrun
    have hcalls (opened₁ opened₁' hidden : List Owner) (r₀ : Registry)
        (hhidden : ∀ o ∈ hidden, o ∈ opened₁ ∨ o ∈ opened₁')
        (h : ∀ b ∈ s.callees (.owner o), Stack s start entered' opened₁ b)
        (h' : ∀ b ∈ s.callees (.owner o), Stack s start entered' opened₁' b)
        (b : Call) (hb : b ∈ s.callees (.owner o)) :
        InLockstep s start opened₁ opened₁' hidden r₀
          (if Call.generates s b then within s depth entered' b else carefully s depth entered' b)
          (answer s entered' b) :=
      inLockstep_call (hcallees entered' ha b hb).1 (hcallees entered' ha b hb).2 hhidden
        (h b hb) (h' b hb) depth
    have hopening (b : Call) (hb : b ∈ s.callees (.owner o)) := hstack.opening hsteady ho ha hb
    have hlast (b : Call) (hb : b ∈ s.callees (.owner o)) : Stack s start entered' [o] b :=
      (hopening b hb).of_subset (by simp)
    have hvalues := hcalls opened [o] (o :: opened) r (by simp [or_comm])
      (fun b hb => hstack.nested hsteady ha hb) hlast
    have hbegin : Lockstep s start opened [o] (o :: opened) r r [] :=
      ⟨hfaithful, .nil s start [o], .nil r, .refl r, fun t ht => .inl ht, fun _ _ => rfl⟩
    obtain ⟨rfl, hstep₁⟩ := sequential_inLockstep.run inLockstep_question hvalues (element s o)
      r [] e r₁' hbegin helement
    obtain ⟨rfl, hstep₂⟩ := sequential_inLockstep.run inLockstep_question hvalues (missing s o _)
      _ r₁' properties r₂' hstep₁ hmissing
    rw [answer_of_enter_eq_some ha]
    refine answered_generate hsteady ho howner (hstack.not_mem_opened ha)
      (fun o' ho' => (hstack.owners o' ho').1) hfaithful hstep₂
      (hcalls _ _ _ _ (fun o' ho' => .inl (List.mem_cons_of_mem _ ho')) hopening hlast)
      (hcalls _ _ _ _ (by simp) hlast hlast) (fun b hb => ?_) hgenerate
    split
    · exact refines_within depth entered' b
    · exact refines_carefully depth entered' b

/-- Reached owners are answered as they are alone, and all other calls in lockstep with careful
ones. -/
theorem settles_and_follows (hsteady : Steady s start) (entered : List Symbol) (a : Call)
    (hreaches : Reaches s start a) :
    Settles s start entered a ∧ Follows s start entered a := by
  induction entered, a using nested_induction s with
  | step entered a ih =>
    have hcallees (entered' : List Symbol) (ha : enter entered a = some entered') :
        ∀ b ∈ s.callees a, Settles s start entered' b ∧ Follows s start entered' b :=
      fun b hb => ih entered' ha b hb (hreaches.tail hb)
    exact ⟨settles_of_callees hsteady hreaches hcallees, follows_of_callees hsteady hcallees⟩

/-! ### Any call keeps a registry faithful -/

/-- A computation keeps registries faithful in which no owner is open. -/
def KeepsFaithful (s : Setting) (start : Call) {α : Type} (f : Infer α) : Prop :=
  ∀ r, Faithful s start [] r → Faithful s start [] (f r).2

theorem sequential_keepsFaithful (s : Setting) (start : Call) :
    Sequential (fun {α} (f _ : Infer α) => KeepsFaithful s start f) :=
  sequential_of_invariant (Faithful s start [])

/-- So does the work on the type of an owner that is not reached. -/
theorem respects_keepsFaithful (hsteady : Steady s start) {o : Owner} (ho : o ∈ s.owners)
    (hreached : ¬ Reached s start o) :
    Respects (o.type s) (fun {α} (f _ : Infer α) => KeepsFaithful s start f) where
  toSequential := sequential_keepsFaithful s start
  get _ h := h
  register parents r h := by
    show Faithful s start [] (r.register (o.type s) parents)
    refine ⟨fun t ht => ?_, fun o' ho' _ hmem => ?_, by simp⟩
    · rcases Registry.contains_register.1 ht with ht | rfl
      · exact h.generated t ht
      · exact s.isGenerated_iff.2 ⟨o, ho, rfl⟩
    · rcases Registry.contains_register.1 hmem with hmem | heq
      · exact (h.included o' ho' List.not_mem_nil hmem).register parents
      · exact absurd (hsteady.named o' ho' o ho heq.symm ▸ ho') hreached
  addMember member e r h := by
    show Faithful s start [] (r.addMember (o.type s) member e)
    refine ⟨fun t ht => h.generated t (Registry.contains_addMember ▸ ht), fun o' ho' _ hmem => ?_,
      by simp⟩
    rw [Registry.contains_addMember] at hmem
    refine (h.included o' ho' List.not_mem_nil hmem).addMember (Bool.eq_false_iff.2 fun halone => ?_)
    obtain ⟨o'', ho'', heq⟩ := reached_of_contains_alone ho' halone
    exact hreached (hsteady.named o'' ho'' o ho heq.symm ▸ ho'')

/-- Inference keeps a registry faithful, whatever it is asked for. -/
theorem keepsFaithful_answer (hsteady : Steady s start) (entered : List Symbol) (a : Call)
    (hstack : Stack s start entered [] a) : KeepsFaithful s start (answer s entered a) := by
  induction entered, a using answer.induct s with
  | case1 entered a hnone =>
    rw [answer_of_enter_eq_none hnone]
    exact (sequential_keepsFaithful s start).pure a.unknown
  | case2 entered a entered' hsome ih =>
    by_cases hreached : ∃ o, a = .owner o ∧ Reached s start o
    · obtain ⟨o, rfl, ho⟩ := hreached
      have hsettles := (settles_and_follows hsteady entered (.owner o) ho.reaches).1
      exact fun r h => (hsettles o rfl ho.hasProperties entered' hsome [] r hstack h).faithful
    · refine (sequential_keepsFaithful s start).answer ?_ (fun q r h => h) ?_
      · rintro o rfl hproperties
        have howner := s.mem_owners.2 ⟨hstack.inModule, hproperties⟩
        exact (respects_keepsFaithful hsteady howner fun ho => hreached ⟨o, rfl, ho⟩).generate
      · intro next hnext b hb
        cases hsome.symm.trans hnext
        exact ih b hb (hstack.nested hsteady hsome hb)

end ScriptTypes.Inference
