import ScriptTypes.Proofs.Inference.Careful
import ScriptTypes.Proofs.Inference.Included

/-!
# Registries grow

Inference forgets no generated type. Where it changes the registry at all, it registers the type of
an owner that had none, so the registry can change once for each owner at most.
-/

namespace ScriptTypes.Inference

variable {s : Setting}

/-- The owners whose types a registry holds. -/
def registered (s : Setting) (r : Registry) : Finset Owner :=
  s.owners.toFinset.filter fun o => Entries.contains (o.type s) r = true

theorem mem_registered {r : Registry} {o : Owner} :
    o ∈ registered s r ↔ o ∈ s.owners ∧ Entries.contains (o.type s) r = true := by
  simp [registered]

theorem card_registered_le (s : Setting) (r : Registry) :
    (registered s r).card ≤ s.owners.length :=
  (Finset.card_filter_le _ _).trans (List.toFinset_card_le _)

theorem registered_addMember (s : Setting) (r : Registry) (type : TypeName) (member : String)
    (e : Element) : registered s (r.addMember type member e) = registered s r := by
  simp [registered, Registry.contains_addMember]

/-- A new type adds its owner. -/
theorem registered_ssubset_register {r : Registry} {o : Owner} (ho : o ∈ s.owners)
    (hnew : Entries.contains (o.type s) r = false) (parents : List TypeName) :
    registered s r ⊂ registered s (r.register (o.type s) parents) := by
  refine Finset.ssubset_iff_exists_cons_subset.2 ⟨o, ?_, ?_⟩
  · simp [mem_registered, hnew]
  · intro o' ho'
    rw [mem_registered, Registry.contains_register]
    rcases Finset.mem_cons.1 ho' with rfl | ho'
    · exact ⟨ho, .inr rfl⟩
    · exact (mem_registered.1 ho').imp_right .inl

/-- A computation leaves the registry as it is, or registers a type and forgets none. -/
def Grows (s : Setting) {α : Type} (f : Infer α) : Prop :=
  ∀ r, (f r).2 = r ∨ registered s r ⊂ registered s (f r).2

theorem Grows.subset {α : Type} {f : Infer α} (h : Grows s f) (r : Registry) :
    registered s r ⊆ registered s (f r).2 := by
  rcases h r with hsame | hlt
  · rw [hsame]
  · exact hlt.subset

theorem sequential_grows (s : Setting) : Sequential (fun {α} (f _ : Infer α) => Grows s f) where
  pure x r := .inl rfl
  bind {α β f _ g _} hf hg r := by
    show (g (f r).1 (f r).2).2 = r ∨ registered s r ⊂ registered s (g (f r).1 (f r).2).2
    rcases hf r with hsame | hlt
    · have hrest := hg (f r).1 (f r).2
      rwa [hsame] at hrest ⊢
    · exact .inr (hlt.trans_subset ((hg (f r).1).subset (f r).2))

section Owners

variable {o : Owner} {calls : (b : Call) → b ∈ s.callees (.owner o) → Infer b.Answer}

theorem subset_addMembers (hcalls : ∀ b hb, Grows s (calls b hb))
    (properties : List (PropertyName s o)) (r : Registry) :
    registered s r ⊆ registered s (addMembers calls properties r).2 := by
  induction properties generalizing r with
  | nil => exact Finset.Subset.refl _
  | cons p properties ih =>
    have hmember := (registered_addMember s (calls _ p.2 r).2 (o.type s) p.1 (calls _ p.2 r).1).ge
    exact ((hcalls _ p.2).subset r).trans (hmember.trans (ih _))

theorem extends_grows (ho : o ∈ s.owners) :
    Extends s o (fun {α} (f _ : Infer α) => Grows s f) := by
  intro calls _ hcalls e properties r
  by_cases hne : properties = []
  · subst hne
    exact .inl rfl
  by_cases hmem : Entries.contains (o.type s) r = true
  · rw [generate_of_contains hne hmem]
    exact .inl rfl
  · have hnew := Bool.eq_false_iff.2 hmem
    rw [generate_of_not_contains hne hnew]
    refine .inr ((registered_ssubset_register ho hnew (parentsFor e)).trans_subset ?_)
    exact subset_addMembers hcalls properties _

end Owners

/-- Where inference changes the registry, it registers a new type. -/
theorem grows_answer (entered : List Symbol) (a : Call) (ha : s.InModule a) :
    Grows s (answer s entered a) := by
  induction entered, a using nested_induction s with
  | step entered a ih =>
    refine (sequential_grows s).answer ?_ (fun q r => .inl rfl) ?_
    · rintro o rfl hproperties
      exact extends_grows (s.mem_owners.2 ⟨ha, hproperties⟩)
    · exact fun entered' hsome b hb => ih entered' hsome b hb (s.inModule_of_mem_callees ha hb)

end ScriptTypes.Inference
