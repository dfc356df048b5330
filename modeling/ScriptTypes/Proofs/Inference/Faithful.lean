import ScriptTypes.Proofs.Inference.Steady

/-!
# Faithful registries

A registry is faithful if it holds the types of the owners that a steady call reaches, with all
that came with them, as the inference of such an owner alone would leave them. Inference keeps
registries faithful. In a faithful registry the inference of a reached owner gives what it gives
alone; a careful inference that starts with nothing runs in lockstep with the one in the registry.
-/

namespace ScriptTypes.Inference

variable {s : Setting} {start : Call}

/-- What the inference of an owner gives if it starts with nothing. -/
def alone (s : Setting) (o : Owner) : Element × Registry := answer s o.around (.owner o) []

/-! ### Names come from the owners that are reached -/

/-- All types that a computation registers have a property. -/
def RegistersOnly (P : TypeName → Prop) {α : Type} (f : Infer α) : Prop :=
  ∀ r t, Entries.contains t (f r).2 = true → Entries.contains t r = true ∨ P t

theorem sequential_registersOnly (P : TypeName → Prop) :
    Sequential (fun {α} (f _ : Infer α) => RegistersOnly P f) where
  pure _ _ _ h := .inl h
  bind hf hg r t h := (hg _ _ t h).elim (hf r t) .inr

theorem respects_registersOnly {P : TypeName → Prop} {type : TypeName} (hP : P type) :
    Respects type (fun {α} (f _ : Infer α) => RegistersOnly P f) where
  toSequential := sequential_registersOnly P
  get _ _ h := .inl h
  register parents r t h := by
    rcases Registry.contains_register.1 h with h | rfl
    · exact .inl h
    · exact .inr hP
  addMember _ _ _ _ h := .inl (Registry.contains_addMember ▸ h)

/-- The types that inference registers are those of owners that the call reaches. -/
theorem registersOnly_answer (s : Setting) (entered : List Symbol) (a : Call) :
    RegistersOnly (fun t => ∃ o, Reached s a o ∧ o.type s = t) (answer s entered a) := by
  induction entered, a using nested_induction s with
  | step entered a ih =>
    refine (sequential_registersOnly _).answer ?_ (fun q r t h => .inl h) ?_
    · rintro o rfl hproperties
      exact (respects_registersOnly ⟨o, ⟨.refl, hproperties⟩, rfl⟩).generate
    · intro entered' hsome b hb r t h
      refine (ih entered' hsome b hb r t h).imp_right ?_
      rintro ⟨o, ho, heq⟩
      exact ⟨o, ⟨.head hb ho.reaches, ho.hasProperties⟩, heq⟩

/-- An owner alone registers types of owners that it reaches. -/
theorem reached_of_contains_alone {o : Owner} (ho : Reached s start o) {t : TypeName}
    (h : Entries.contains t (alone s o).2 = true) : ∃ o', Reached s start o' ∧ o'.type s = t := by
  rcases registersOnly_answer s o.around (.owner o) [] t h with hnil | ⟨o', ho', heq⟩
  · simp [Entries.contains, Entries.get?] at hnil
  · exact ⟨o', ho.of_reaches ho'.reaches ho'.hasProperties, heq⟩

/-! ### Faithful registries -/

/-- The registry holds only generated types, and those of reached owners as they are if generated
alone, the owners in `opened` aside: these are being generated, and nothing that is complete
depends on them. -/
structure Faithful (s : Setting) (start : Call) (opened : List Owner) (r : Registry) : Prop where
  generated : ∀ t, Entries.contains t r = true → s.isGenerated t = true
  included : ∀ o, Reached s start o → o ∉ opened → Entries.contains (o.type s) r = true →
    (alone s o).2.Included r
  avoids : ∀ o, Reached s start o → o ∉ opened → Entries.contains (o.type s) r = true →
    ∀ o' ∈ opened, Entries.contains (o'.type s) (alone s o).2 = false

namespace Faithful

variable {opened : List Owner} {r : Registry} {o : Owner}

theorem nil (s : Setting) (start : Call) (opened : List Owner) : Faithful s start opened [] where
  generated t h := by simp [Entries.contains, Entries.get?] at h
  included o _ _ h := by simp [Entries.contains, Entries.get?] at h
  avoids o _ _ h := by simp [Entries.contains, Entries.get?] at h

/-- The generation of a type begins. -/
theorem register (hsteady : Steady s start) (ho : o ∈ s.owners)
    (hnew : Entries.contains (o.type s) r = false) (h : Faithful s start opened r)
    (parents : List TypeName) :
    Faithful s start (o :: opened) (r.register (o.type s) parents) := by
  have hold {o' : Owner} (ho' : Reached s start o') (hopen : o' ∉ o :: opened)
      (hmem : Entries.contains (o'.type s) (r.register (o.type s) parents) = true) :
      o' ∉ opened ∧ Entries.contains (o'.type s) r = true := by
    obtain ⟨hne, hopen⟩ : o' ≠ o ∧ o' ∉ opened := by simpa using hopen
    refine ⟨hopen, (Registry.contains_register.1 hmem).resolve_right fun heq => hne ?_⟩
    exact (hsteady.named o' ho' o ho heq.symm).symm
  refine ⟨fun t ht => ?_, fun o' ho' hopen hmem => ?_, fun o' ho' hopen hmem => ?_⟩
  · rcases Registry.contains_register.1 ht with ht | rfl
    · exact h.generated t ht
    · exact s.isGenerated_iff.2 ⟨o, ho, rfl⟩
  · obtain ⟨hopen, hmem⟩ := hold ho' hopen hmem
    exact (h.included o' ho' hopen hmem).register parents
  · obtain ⟨hopen, hmem⟩ := hold ho' hopen hmem
    refine List.forall_mem_cons.2 ⟨?_, h.avoids o' ho' hopen hmem⟩
    rw [Bool.eq_false_iff]
    intro hcontains
    have := (h.included o' ho' hopen hmem).contains hcontains
    simp [hnew] at this

theorem of_mem_iff {opened' : List Owner} (h : Faithful s start opened r)
    (hmem : ∀ o, o ∈ opened ↔ o ∈ opened') : Faithful s start opened' r where
  generated := h.generated
  included o ho hopen := h.included o ho (mt (hmem o).1 hopen)
  avoids o ho hopen hcontains o' ho' := h.avoids o ho (mt (hmem o).1 hopen) hcontains o' ((hmem o').2 ho')

/-- The type of an open owner gets a member. -/
theorem addMember (ho : o ∈ opened) (h : Faithful s start opened r) (member : String)
    (e : Element) : Faithful s start opened (r.addMember (o.type s) member e) where
  generated t ht := h.generated t (Registry.contains_addMember ▸ ht)
  included o' ho' hopen hmem := by
    rw [Registry.contains_addMember] at hmem
    exact (h.included o' ho' hopen hmem).addMember (h.avoids o' ho' hopen hmem o ho)
  avoids o' ho' hopen hmem := by
    rw [Registry.contains_addMember] at hmem
    exact h.avoids o' ho' hopen hmem

/-- The generation of a type ends. -/
theorem close (h : Faithful s start (o :: opened) r) (hincluded : (alone s o).2.Included r)
    (havoids : ∀ o' ∈ opened, Entries.contains (o'.type s) (alone s o).2 = false) :
    Faithful s start opened r := by
  refine ⟨h.generated, fun o' ho' hopen hmem => ?_, fun o' ho' hopen hmem => ?_⟩
  · by_cases heq : o' = o
    · exact heq ▸ hincluded
    · exact h.included o' ho' (by simp [heq, hopen]) hmem
  · by_cases heq : o' = o
    · exact heq ▸ havoids
    · have hcons := h.avoids o' ho' (by simp [heq, hopen]) hmem
      exact fun o'' ho'' => hcons o'' (List.mem_cons_of_mem _ ho'')

end Faithful

end ScriptTypes.Inference
