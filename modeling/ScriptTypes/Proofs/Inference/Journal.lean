import ScriptTypes.Proofs.Inference.Included
import ScriptTypes.Proofs.Inference.Within

/-!
# A journal of inference

Inference can keep the symbols in progress as state: a symbol is put there when it is entered and
taken away again when its inference ends. `tracked s depth` infers in this way, gives up where calls
are nested more than `depth` deep, and writes a journal of all calls: when they begin and when they
return, each time with the symbols in progress and the registry of that moment.

A call leaves the types alone that are registered when it begins. Those it registers itself get
their members before it returns. So the journal of any queries shows a registry that only grows.

Main statement: `sessions_restore_progress_and_settle_types`.
-/

namespace ScriptTypes

/-- A type has parents, and its members belong to it and are stored under their own names. -/
structure GeneratedType.WellFormed (g : GeneratedType) : Prop where
  parents : g.parents ≠ []
  members : ∀ member e, (member, e) ∈ g.members → e.name = member ∧ e.owner = g.name

namespace Registry

/-- Every type is registered once, under its own name. -/
structure WellFormed (r : Registry) : Prop where
  nodup : (Entries.names r).Nodup
  key : ∀ name g, (name, g) ∈ r → g.name = name
  type : ∀ name g, (name, g) ∈ r → g.WellFormed

theorem WellFormed.nil : WellFormed [] where
  nodup := List.nodup_nil
  key _ _ h := nomatch h
  type _ _ h := nomatch h

theorem WellFormed.register {r : Registry} (h : r.WellFormed) {name : TypeName}
    (hname : Entries.contains name r = false) {parents : List TypeName} (hparents : parents ≠ []) :
    (r.register name parents).WellFormed where
  nodup := by
    have hfresh : name ∉ Entries.names r := by
      intro hmem
      simp [Entries.contains_of_mem_names hmem] at hname
    rw [Registry.register, Entries.names, List.map_append]
    exact List.nodup_append.2 ⟨h.nodup, List.nodup_singleton _, by
      rintro n hn _ hm rfl
      obtain rfl := List.mem_singleton.1 hm
      exact hfresh hn⟩
  key n g hg := by
    rcases List.mem_append.1 hg with hg | hg
    · exact h.key n g hg
    · cases List.mem_singleton.1 hg
      rfl
  type n g hg := by
    rcases List.mem_append.1 hg with hg | hg
    · exact h.type n g hg
    · cases List.mem_singleton.1 hg
      exact ⟨hparents, fun _ _ he => absurd he List.not_mem_nil⟩

theorem WellFormed.addMember {r : Registry} (h : r.WellFormed) {type : TypeName} {member : String}
    {e : Element} (hname : e.name = member) (howner : e.owner = type) :
    (r.addMember type member e).WellFormed := by
  have hmem {n : TypeName} {g : GeneratedType} (hg : (n, g) ∈ r.addMember type member e) :
      (n, g) ∈ r ∨ n = type ∧ ∃ g', (n, g') ∈ r ∧
        g = { g' with members := Entries.upsert member (fun _ => e) g'.members } := by
    obtain ⟨⟨n', g'⟩, hg', heq⟩ := List.mem_map.1 hg
    dsimp only at heq
    split at heq
    · rename_i hn
      cases heq
      exact .inr ⟨hn, g', hg', rfl⟩
    · cases heq
      exact .inl hg'
  refine ⟨?_, fun n g hg => ?_, fun n g hg => ?_⟩
  · have hnames : Entries.names (r.addMember type member e) = Entries.names r := by
      rw [Entries.names, Registry.addMember, List.map_map]
      refine List.map_congr_left fun p _ => ?_
      dsimp only [Function.comp]
      split <;> rfl
    rw [hnames]
    exact h.nodup
  · rcases hmem hg with hg | ⟨-, g', hg', rfl⟩
    · exact h.key n g hg
    · exact h.key n g' hg'
  · rcases hmem hg with hg | ⟨rfl, g', hg', rfl⟩
    · exact h.type n g hg
    · refine ⟨(h.type n g' hg').parents, fun m x hx => ?_⟩
      rcases Entries.mem_upsert hx with hx | hx
      · exact (h.type n g' hg').members m x hx
      · obtain ⟨rfl, rfl⟩ := Prod.mk.inj hx
        exact ⟨hname, howner.trans (h.key n g' hg').symm⟩

/-- The second registry holds the types of the first one, under the same names and with the same
parents. -/
def Kept (r r' : Registry) : Prop :=
  ∀ t g, Entries.get? t r = some g → ∃ members, Entries.get? t r' = some { g with members }

theorem Kept.contains {r r' : Registry} (h : r.Kept r') {t : TypeName}
    (ht : Entries.contains t r = true) : Entries.contains t r' = true := by
  obtain ⟨g, hg⟩ := Entries.contains_iff.1 ht
  obtain ⟨members, hmembers⟩ := h t g hg
  exact Entries.contains_iff.2 ⟨_, hmembers⟩

theorem Kept.trans {r r' r'' : Registry} (h : r.Kept r') (h' : r'.Kept r'') : r.Kept r'' := by
  intro t g hg
  obtain ⟨members, hmembers⟩ := h t g hg
  obtain ⟨members', hmembers'⟩ := h' t _ hmembers
  exact ⟨members', hmembers'⟩

theorem Included.kept {r r' : Registry} (h : r.Included r') : r.Kept r' := by
  intro t g hg
  exact ⟨g.members, (h t (Entries.contains_iff.2 ⟨g, hg⟩)).trans hg⟩

/-- Types are kept as they are, except for the one that is being filled with members. -/
structure KeptBut (filling : Option TypeName) (r r' : Registry) : Prop where
  kept : r.Kept r'
  foreign : ∀ t, Entries.contains t r = true → filling ≠ some t →
    Entries.get? t r' = Entries.get? t r

namespace KeptBut

variable {filling : Option TypeName} {r r' r'' : Registry}

theorem refl (filling : Option TypeName) (r : Registry) : KeptBut filling r r :=
  ⟨(Included.refl r).kept, fun _ _ _ => rfl⟩

theorem trans (h : KeptBut filling r r') (h' : KeptBut filling r' r'') :
    KeptBut filling r r'' where
  kept := h.kept.trans h'.kept
  foreign t ht hne := (h'.foreign t (h.kept.contains ht) hne).trans (h.foreign t ht hne)

theorem of_none (h : KeptBut none r r') : KeptBut filling r r' :=
  ⟨h.kept, fun t ht _ => h.foreign t ht (by simp)⟩

/-- The type that is being filled is not there before it is registered. -/
theorem of_register {type : TypeName} {parents : List TypeName}
    (htype : Entries.contains type r = false)
    (h : KeptBut (some type) (r.register type parents) r') : KeptBut none r r' := by
  have hincluded : r.Included r' := by
    intro t ht
    have hne : some type ≠ some t := by
      rintro ⟨⟩
      simp [htype] at ht
    rw [h.foreign t (contains_register.2 (.inl ht)) hne]
    exact (Included.refl r).register parents t ht
  exact ⟨hincluded.kept, fun t ht _ => hincluded t ht⟩

theorem addMember (type : TypeName) (member : String) (e : Element) :
    KeptBut (some type) r (r.addMember type member e) where
  kept t g hg := by
    rw [get?_addMember, hg]
    split
    · exact ⟨_, rfl⟩
    · exact ⟨g.members, rfl⟩
  foreign t _ hne := by
    rw [get?_addMember, if_neg fun heq => hne (congrArg some heq.symm)]

end KeptBut

end Registry

namespace Inference

variable {s : Setting}

/-! ### Inference with symbols in progress as state -/

structure Moment where
  /-- The symbols in progress. -/
  entered : List Symbol
  registry : Registry

inductive Event where
  | begins (a : Call) (now : Moment)
  | returns (a : Call) (began now : Moment)

namespace Event

def registry : Event → Registry
  | begins _ now | returns _ _ now => now.registry

/-- A call returns with the symbols in progress as it found them. -/
def Restores : Event → Prop
  | begins _ _ => True
  | returns _ began now => now.entered = began.entered

/-- Was a type registered during a call that returns? -/
def Settles : Event → TypeName → Prop
  | begins _ _, _ => False
  | returns _ began now, t =>
    Entries.contains t now.registry = true ∧ Entries.contains t began.registry = false

/-- What holds at an event lasts in a later registry: all types are kept, and those that are settled
do not change any more. -/
structure Lasts (e : Event) (r : Registry) : Prop where
  kept : e.registry.Kept r
  settled : ∀ t, e.Settles t → Entries.get? t r = Entries.get? t e.registry

theorem Settles.contains {e : Event} {t : TypeName} (h : e.Settles t) :
    Entries.contains t e.registry = true := by
  match e with
  | returns _ _ _ => exact h.1

end Event

/-- The state of a run beside the registry. -/
structure Track where
  /-- The symbols in progress. -/
  entered : List Symbol
  journal : List Event

abbrev Tracked := StateT Registry (StateT Track Option)

def now : Tracked Moment := do
  return ⟨(← getThe Track).entered, ← getThe Registry⟩

def record (e : Event) : Tracked Unit :=
  modifyThe Track fun t => { t with journal := t.journal ++ [e] }

/-- Change which symbols are in progress. -/
def progress (f : List Symbol → List Symbol) : Tracked Unit :=
  modifyThe Track fun t => { t with entered := f t.entered }

/-- The symbols in progress when a call ends: its own one is taken away. -/
def leave : Call → List Symbol → List Symbol
  | .owner (.symbol key), entered => entered.erase key
  | _, entered => entered

theorem leave_of_enter {entered entered' : List Symbol} {a : Call}
    (h : enter entered a = some entered') : leave a entered' = entered := by
  match a with
  | .node _ _ | .owner (.literal _) | .owner (.property _ _) => exact (Option.some.inj h).symm
  | .owner (.symbol key) =>
    obtain ⟨-, rfl⟩ : key ∉ entered ∧ key :: entered = entered' := by simpa [enter] using h
    exact List.erase_cons_head key entered

/-- The body of a call, with the given symbols in progress; a symbol that is in progress already has
no body. -/
def bracketed (a : Call) (body : Tracked a.Answer) : Option (List Symbol) → Tracked a.Answer
  | none => return a.unknown
  | some entered => do
    progress fun _ => entered
    let x ← body
    progress (leave a)
    return x

/-- The answer to a call, unless calls are nested more than `depth` deep. -/
def tracked (s : Setting) : (depth : Nat) → (a : Call) → Tracked a.Answer
  | 0, _ => failure
  | depth + 1, a => do
    let began ← now
    record (.begins a began)
    let x ← bracketed a (answerCall s (currently s) a fun b _ => tracked s depth b)
      (enter began.entered a)
    record (.returns a began (← now))
    return x

/-! ### What a journal shows -/

/-- The events between two registries of a run, while a type is being filled with members. -/
structure Journey (filling : Option TypeName) (r : Registry) (events : List Event)
    (r' : Registry) : Prop where
  keeps : Registry.KeptBut filling r r'
  wellFormed : r'.WellFormed
  keeps_event : ∀ e ∈ events, Registry.KeptBut filling r e.registry
  wellFormed_event : ∀ e ∈ events, e.registry.WellFormed
  restores : ∀ e ∈ events, e.Restores
  fresh : ∀ e ∈ events, ∀ t, e.Settles t → Entries.contains t r = false
  lasts : ∀ e ∈ events, e.Lasts r'
  ordered : events.Pairwise fun e e' => e.Lasts e'.registry

/-- What lasts in a registry lasts in a later one. -/
theorem Event.Lasts.trans {filling : Option TypeName} {e : Event} {r r' : Registry}
    (h : e.Lasts r) (hkeeps : Registry.KeptBut filling r r')
    (hne : ∀ t, e.Settles t → filling ≠ some t) : e.Lasts r' where
  kept := h.kept.trans hkeeps.kept
  settled t ht :=
    (hkeeps.foreign t (h.kept.contains ht.contains) (hne t ht)).trans (h.settled t ht)

namespace Journey

variable {filling : Option TypeName} {r r' r'' : Registry} {events events' : List Event}

/-- No event happens in a single change. -/
theorem silent (hkeeps : Registry.KeptBut filling r r') (h : r'.WellFormed) :
    Journey filling r [] r' :=
  ⟨hkeeps, h, by simp, by simp, by simp, by simp, by simp, .nil⟩

theorem append (hfilling : ∀ t, filling = some t → Entries.contains t r = true)
    (h : Journey filling r events r') (h' : Journey filling r' events' r'') :
    Journey filling r (events ++ events') r'' := by
  -- A type that is settled in the first part is not the one that is being filled.
  have lasts_later {e : Event} (he : e ∈ events) {next : Registry}
      (hnext : Registry.KeptBut filling r' next) : e.Lasts next := by
    refine (h.lasts e he).trans hnext fun t ht heq => ?_
    exact Bool.false_ne_true ((h.fresh e he t ht).symm.trans (hfilling t heq))
  have fresh_later {e : Event} (he : e ∈ events') (t : TypeName) (ht : e.Settles t) :
      Entries.contains t r = false := by
    refine Bool.eq_false_iff.2 fun hr => ?_
    exact Bool.false_ne_true ((h'.fresh e he t ht).symm.trans (h.keeps.kept.contains hr))
  constructor
  · exact h.keeps.trans h'.keeps
  · exact h'.wellFormed
  · exact List.forall_mem_append.2
      ⟨h.keeps_event, fun e he => h.keeps.trans (h'.keeps_event e he)⟩
  · exact List.forall_mem_append.2 ⟨h.wellFormed_event, h'.wellFormed_event⟩
  · exact List.forall_mem_append.2 ⟨h.restores, h'.restores⟩
  · exact List.forall_mem_append.2 ⟨h.fresh, fun e he => fresh_later he⟩
  · exact List.forall_mem_append.2 ⟨fun e he => lasts_later he h'.keeps, h'.lasts⟩
  · refine List.pairwise_append.2 ⟨h.ordered, h'.ordered, fun e he e' he' => ?_⟩
    exact lasts_later he (h'.keeps_event e' he')

theorem of_none (h : Journey none r events r') : Journey filling r events r' :=
  { h with
    keeps := h.keeps.of_none
    keeps_event := fun e he => (h.keeps_event e he).of_none }

/-- The work on a new type changes no other. -/
theorem of_register {type : TypeName} {parents : List TypeName}
    (htype : Entries.contains type r = false)
    (h : Journey (some type) (r.register type parents) events r') : Journey none r events r' where
  keeps := h.keeps.of_register htype
  wellFormed := h.wellFormed
  keeps_event e he := (h.keeps_event e he).of_register htype
  wellFormed_event := h.wellFormed_event
  restores := h.restores
  fresh e he t ht := by
    refine Bool.eq_false_iff.2 fun hr => ?_
    exact Bool.false_ne_true
      ((h.fresh e he t ht).symm.trans (Registry.contains_register.2 (.inl hr)))
  lasts := h.lasts
  ordered := h.ordered

/-- An event is added at the end. -/
theorem concat (h : Journey filling r events r') {e : Event} (hlast : e.registry = r')
    (hrestores : e.Restores) (hfresh : ∀ t, e.Settles t → Entries.contains t r = false) :
    Journey filling r (events ++ [e]) r' := by
  subst hlast
  constructor
  · exact h.keeps
  · exact h.wellFormed
  · exact List.forall_mem_append.2 ⟨h.keeps_event, List.forall_mem_singleton.2 h.keeps⟩
  · exact List.forall_mem_append.2 ⟨h.wellFormed_event, List.forall_mem_singleton.2 h.wellFormed⟩
  · exact List.forall_mem_append.2 ⟨h.restores, List.forall_mem_singleton.2 hrestores⟩
  · exact List.forall_mem_append.2 ⟨h.fresh, List.forall_mem_singleton.2 hfresh⟩
  · refine List.forall_mem_append.2 ⟨h.lasts, List.forall_mem_singleton.2 ?_⟩
    exact ⟨(Registry.Included.refl _).kept, fun t _ => rfl⟩
  · refine List.pairwise_append.2 ⟨h.ordered, List.pairwise_singleton _ _, fun e' he' => ?_⟩
    exact List.forall_mem_singleton.2 (h.lasts e' he')

/-- What happens in a call, from its beginning to its return. -/
theorem call (h : Journey none r events r') (hr : r.WellFormed) (a : Call)
    (entered : List Symbol) :
    Journey none r ([.begins a ⟨entered, r⟩] ++ events
      ++ [.returns a ⟨entered, r⟩ ⟨entered, r'⟩]) r' := by
  have hbegin : Journey none r ([] ++ [.begins a ⟨entered, r⟩]) r :=
    (silent (.refl none r) hr).concat rfl trivial fun t ht => ht.elim
  exact (hbegin.append (by simp) h).concat rfl rfl fun t ht => ht.2

end Journey

/-! ### Runs and their journals -/

/-- With the given symbols in progress, the first computation does what the second one does and
writes what happens into the journal. -/
def Journals (entered : List Symbol) (filling : Option TypeName) {α : Type} (f : Tracked α)
    (g : Infer α) : Prop :=
  ∀ r : Registry, r.WellFormed → (∀ t, filling = some t → Entries.contains t r = true) →
    ∃ events, (∀ journal, f r ⟨entered, journal⟩ = some (g r, ⟨entered, journal ++ events⟩)) ∧
      Journey filling r events (g r).2

section Computations

variable {entered : List Symbol} {filling : Option TypeName} {α β : Type}

theorem Journals.bind {f : Tracked α} {f' : Infer α} {g : α → Tracked β} {g' : α → Infer β}
    (hf : Journals entered filling f f')
    (hg : ∀ r, Journals entered filling (g (f' r).1) (g' (f' r).1)) :
    Journals entered filling (f >>= g) (f' >>= g') := by
  intro r hr hfilling
  obtain ⟨events, hrun, hjourney⟩ := hf r hr hfilling
  obtain ⟨events', hrun', hjourney'⟩ := hg r (f' r).2 hjourney.wellFormed
    fun t ht => hjourney.keeps.kept.contains (hfilling t ht)
  refine ⟨events ++ events', fun journal => ?_, hjourney.append hfilling hjourney'⟩
  show (f r ⟨entered, journal⟩).bind _ = _
  rw [hrun journal, ← List.append_assoc]
  exact hrun' (journal ++ events)

theorem Journals.pure (x : α) : Journals entered filling (pure x) (pure x) := by
  intro r hr _
  refine ⟨[], fun journal => ?_, .silent (.refl filling r) hr⟩
  rw [List.append_nil]
  rfl

theorem sequential_journals (entered : List Symbol) (filling : Option TypeName) :
    Sequential (fun {α} (f : Tracked α) (g : Infer α) => Journals entered filling f g) where
  pure x := .pure x
  bind hf hg := hf.bind fun _ => hg _

theorem journals_currently (q : Question) :
    Journals entered filling (currently s q) (currently s q) := by
  intro r hr _
  refine ⟨[], fun journal => ?_, .silent (.refl filling r) hr⟩
  rw [List.append_nil]
  rfl

theorem Journals.of_none {f : Tracked α} {g : Infer α} (h : Journals entered none f g) :
    Journals entered filling f g := by
  intro r hr _
  obtain ⟨events, hrun, hjourney⟩ := h r hr (by simp)
  exact ⟨events, hrun, hjourney.of_none⟩

end Computations

section Owners

variable {o : Owner} {entered : List Symbol}
  {calls : (b : Call) → b ∈ s.callees (.owner o) → Tracked b.Answer}
  {calls' : (b : Call) → b ∈ s.callees (.owner o) → Infer b.Answer}

theorem journals_addMember {type : TypeName} {member : String} {e : Element}
    (hname : e.name = member) (howner : e.owner = type) :
    Journals entered (some type) (modify fun r => r.addMember type member e)
      (modify fun r => r.addMember type member e) := by
  intro r hr _
  refine ⟨[], fun journal => ?_, .silent (.addMember type member e) (hr.addMember hname howner)⟩
  rw [List.append_nil]
  rfl

/-- The element of a property is a member of the type that is generated for its owner. -/
def Belongs (o : Owner) (calls : (b : Call) → b ∈ s.callees (.owner o) → Infer b.Answer) : Prop :=
  ∀ (name : String) (h : .owner (.property o name) ∈ s.callees (.owner o)) (r : Registry),
    ∃ e : Element, (calls (.owner (.property o name)) h r).1 = e ∧ e.name = name ∧
      e.owner = o.type s

theorem journals_addMembers (hcalls : ∀ b hb, Journals entered none (calls b hb) (calls' b hb))
    (hbelongs : Belongs o calls') (properties : List (PropertyName s o)) :
    Journals entered (some (o.type s)) (addMembers calls properties)
      (addMembers calls' properties) := by
  induction properties with
  | nil => exact .pure ()
  | cons p properties ih =>
    refine (hcalls _ p.2).of_none.bind fun r => ?_
    obtain ⟨e, he, hname, howner⟩ := hbelongs p.1 p.2 r
    rw [he]
    exact (journals_addMember hname howner).bind fun _ => ih

theorem parentsFor_ne_nil (e : Element) : parentsFor e ≠ [] := by
  unfold parentsFor
  split
  · simp
  · rename_i h
    simpa using h

theorem journals_generate (hcalls : ∀ b hb, Journals entered none (calls b hb) (calls' b hb))
    (hbelongs : Belongs o calls') (e : Element) (properties : List (PropertyName s o)) :
    Journals entered none (generate calls e properties) (generate calls' e properties) := by
  intro r hr _
  by_cases hne : properties = []
  · subst hne
    exact Journals.pure e r hr (by simp)
  cases hmem : Entries.contains (o.type s) r with
  | true =>
    rw [generate_of_contains hne hmem, generate_of_contains hne hmem]
    exact Journals.pure _ r hr (by simp)
  | false =>
    rw [generate_of_not_contains hne hmem, generate_of_not_contains hne hmem]
    have hregister := hr.register hmem (parentsFor_ne_nil e)
    obtain ⟨events, hrun, hjourney⟩ := journals_addMembers hcalls hbelongs properties _ hregister
      (by rintro _ ⟨⟩; exact Registry.contains_register.2 (.inr rfl))
    refine ⟨events, fun journal => ?_, hjourney.of_register hmem⟩
    show (addMembers calls properties _ ⟨entered, journal⟩).bind _ = _
    rw [hrun journal]
    rfl

/-- A generated type replaces the types of an element and nothing else. -/
theorem generate_fst (calls : (b : Call) → b ∈ s.callees (.owner o) → Infer b.Answer) (e : Element)
    (properties : List (PropertyName s o)) (r : Registry) :
    (generate calls e properties r).1 = e ∨
      (generate calls e properties r).1 = { e with types := [o.type s] } := by
  by_cases hne : properties = []
  · subst hne
    exact .inl rfl
  cases hmem : Entries.contains (o.type s) r with
  | true =>
    rw [generate_of_contains hne hmem]
    exact .inr rfl
  | false =>
    rw [generate_of_not_contains hne hmem]
    exact .inr rfl

theorem ownerElement_belongs (questions : (q : Question) → Infer q.Answer)
    (calls : (b : Call) → b ∈ s.callees (.owner o) → Infer b.Answer) (r : Registry) :
    (ownerElement questions calls r).1.name = o.name ∧
      (ownerElement questions calls r).1.owner = o.memberOf s := by
  obtain ⟨e, properties, r', hrun, hname, howner⟩ : ∃ e properties r',
      ownerElement questions calls r = generate calls e properties r' ∧
        e.name = o.name ∧ e.owner = o.memberOf s := by
    refine ⟨_, _, _, rfl, ?_⟩
    rw [element, Program.run_bind]
    exact ⟨rfl, rfl⟩
  rw [hrun]
  rcases generate_fst calls e properties r' with h | h <;> rw [h] <;> exact ⟨hname, howner⟩

theorem belongs_answer (o : Owner) (entered : List Symbol) :
    Belongs (s := s) o fun b _ => answer s entered b := by
  intro name _ r
  have henter : enter entered (.owner (.property o name)) = some entered := rfl
  have helement := ownerElement_belongs (s := s) (o := .property o name) (currently s)
    (fun b _ => answer s entered b) r
  refine ⟨_, ?_, helement⟩
  show (answer s entered (.owner (.property o name)) r).1 = _
  rw [answer_of_enter_eq_some henter]
  rfl

end Owners

theorem journals_answerCall {a : Call} {entered : List Symbol}
    {calls : (b : Call) → b ∈ s.callees a → Tracked b.Answer}
    (hcalls : ∀ b hb, Journals entered none (calls b hb) (answer s entered b)) :
    Journals entered none (answerCall s (currently s) a calls)
      (answerCall s (currently s) a fun b _ => answer s entered b) := by
  match a with
  | .node scope n => exact (sequential_journals entered none).run journals_currently hcalls _
  | .owner o =>
    refine (sequential_journals entered none).ownerElement ?_ journals_currently hcalls
    exact journals_generate hcalls (belongs_answer o entered)

/-- A call that is entered restores the symbols in progress. -/
theorem bracketed_eq {a : Call} {entered entered' : List Symbol} {body : Tracked a.Answer}
    (h : enter entered a = some entered') {r r' : Registry} {journal journal' : List Event}
    {x : a.Answer}
    (hbody : body r ⟨entered', journal⟩ = some ((x, r'), ⟨entered', journal'⟩)) :
    bracketed a body (some entered') r ⟨entered, journal⟩ = some ((x, r'), ⟨entered, journal'⟩) := by
  show (body r ⟨entered', journal⟩).bind _ = _
  rw [hbody, ← leave_of_enter h]
  rfl

/-- A call is written into the journal around what happens in it. -/
theorem journals_tracked_succ {a : Call} {entered : List Symbol} {depth : Nat}
    (hbody : ∀ entered', enter entered a = some entered' →
      Journals entered' none (answerCall s (currently s) a fun b _ => tracked s depth b)
        (answer s entered a)) :
    Journals entered none (tracked s (depth + 1) a) (answer s entered a) := by
  intro r hr _
  obtain ⟨events, hrun, hjourney⟩ : ∃ events,
      (∀ journal, bracketed a (answerCall s (currently s) a fun b _ => tracked s depth b)
        (enter entered a) r ⟨entered, journal⟩
          = some (answer s entered a r, ⟨entered, journal ++ events⟩)) ∧
      Journey none r events (answer s entered a r).2 := by
    cases henter : enter entered a with
    | none =>
      rw [answer_of_enter_eq_none henter]
      exact Journals.pure a.unknown r hr (by simp)
    | some entered' =>
      obtain ⟨events, hrun, hjourney⟩ := hbody entered' henter r hr (by simp)
      exact ⟨events, fun journal => bracketed_eq henter (hrun journal), hjourney⟩
  refine ⟨_, fun journal => ?_, hjourney.call hr a entered⟩
  show (bracketed a _ (enter entered a) r ⟨entered, _⟩).bind _ = _
  rw [hrun, ← List.append_assoc, ← List.append_assoc]
  rfl

theorem exists_journals_tracked (s : Setting) (entered : List Symbol) (a : Call) :
    ∃ limit, ∀ depth, limit ≤ depth → Journals entered none (tracked s depth a) (answer s entered a) := by
  revert entered a
  refine exists_limit s fun depth entered a hcallees => ?_
  refine journals_tracked_succ fun entered' h => ?_
  rw [answer_of_enter_eq_some h]
  exact journals_answerCall (hcallees entered' h)

/-! ### Sessions -/

/-- Queries one after the other. -/
def session (s : Setting) (queries : List Query) : Infer (List (List TypeName)) :=
  queries.mapM fun q => q.answer s

/-- Queries one after the other, with a journal. -/
def trackedSession (s : Setting) (depth : Nat) (queries : List Query) :
    Tracked (List (List TypeName)) :=
  queries.mapM fun q => q.run s (tracked s depth)

theorem exists_journals_query (s : Setting) (q : Query) :
    ∃ limit, ∀ depth, limit ≤ depth →
      Journals [] none (q.run s (tracked s depth)) (q.answer s) := by
  unfold Query.answer Query.run
  cases q.subject s with
  | call a =>
    obtain ⟨limit, h⟩ := exists_journals_tracked s [] a
    exact ⟨limit, fun depth hdepth => (h depth hdepth).bind fun _ => .pure _⟩
  | globals name => exact ⟨0, fun _ _ => .pure _⟩
  | nothing => exact ⟨0, fun _ _ => .pure []⟩

theorem exists_journals_session (s : Setting) (queries : List Query) :
    ∃ limit, ∀ depth, limit ≤ depth →
      Journals [] none (trackedSession s depth queries) (session s queries) := by
  induction queries with
  | nil => exact ⟨0, fun _ _ => .pure []⟩
  | cons q queries ih =>
    obtain ⟨limit, h⟩ := exists_journals_query s q
    obtain ⟨limit', h'⟩ := ih
    refine ⟨max limit limit', fun depth hdepth => ?_⟩
    obtain ⟨hq, hqueries⟩ := Nat.max_le.1 hdepth
    rw [trackedSession, session, List.mapM_cons, List.mapM_cons]
    refine (h depth hq).bind fun _ => ?_
    exact (h' depth hqueries).bind fun _ => .pure _

/-- Queries on one registry, with the symbols in progress kept as state, answer what inference
answers. Every call returns with the symbols in progress as it found them, so there are none
between queries. At any moment all types are kept that were registered before, under their names
and with their parents, and a type has all its members once the call that registers it has
returned. Every type is registered once, under its own name; it has parents, and its members belong
to it and are stored under their own names. -/
theorem sessions_restore_progress_and_settle_types (s : Setting) (queries : List Query) :
    ∃ limit, ∀ depth, limit ≤ depth → ∃ journal,
      trackedSession s depth queries [] ⟨[], []⟩ = some (session s queries [], ⟨[], journal⟩) ∧
      (∀ e ∈ journal, e.Restores ∧ e.registry.WellFormed ∧ e.Lasts (session s queries []).2) ∧
      journal.Pairwise (fun e e' => e.Lasts e'.registry) ∧
      (session s queries []).2.WellFormed := by
  obtain ⟨limit, h⟩ := exists_journals_session s queries
  refine ⟨limit, fun depth hdepth => ?_⟩
  obtain ⟨journal, hrun, hjourney⟩ := h depth hdepth [] .nil (by simp)
  refine ⟨journal, hrun [], fun e he => ?_, hjourney.ordered, hjourney.wellFormed⟩
  exact ⟨hjourney.restores e he, hjourney.wellFormed_event e he, hjourney.lasts e he⟩

end Inference

end ScriptTypes
