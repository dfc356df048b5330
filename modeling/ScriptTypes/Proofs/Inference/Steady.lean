import ScriptTypes.Proofs.Inference.Careful

/-!
# Steady calls

The type of an owner is generated when inference first meets the owner, and stays as it is. What
it holds depends on the symbols that are being inferred at that moment. A call is steady if this
makes no difference to any owner that it reaches: no other owner has the same type name, a symbol
that the owner depends on and that depends on the owner is its own, and no question is asked about
a generated type too early.

While calls are nested, an owner with properties that a steady call reaches is never called from
inside itself.
-/

namespace ScriptTypes.Inference

open Script (NodeId)

/-- The symbols that are being inferred whenever a call is made. -/
def Call.around : Call → List Symbol
  | .node _ _ => []
  | .owner o => o.around

/-- An owner with properties that a call reaches. -/
structure Reached (s : Setting) (start : Call) (o : Owner) : Prop where
  reaches : Reaches s start (.owner o)
  hasProperties : o.hasProperties s = true

structure Steady (s : Setting) (start : Call) : Prop where
  /-- No other owner has the type of one that the call reaches. -/
  named : ∀ o, Reached s start o → ∀ o' ∈ s.owners, o'.type s = o.type s → o' = o
  /-- A symbol that an owner depends on and that depends on the owner is the owner's own. -/
  own : ∀ o, Reached s start o → ∀ key, Reaches s (.owner o) (.owner (.symbol key)) →
    Reaches s (.owner (.symbol key)) (.owner o) → o.home = some key
  /-- Starting with nothing, the call and the owners it reaches ask about registered types only. -/
  ready : ∀ a, (a = start ∨ ∃ o, a = .owner o ∧ Reached s start o) →
    ∃ depth, (carefully s depth (Call.around a) a []).isSome = true

variable {s : Setting} {start : Call}

theorem Reached.of_reaches {o o' : Owner} (h : Reached s start o)
    (h' : Reaches s (.owner o) (.owner o')) (hproperties : o'.hasProperties s = true) :
    Reached s start o' :=
  ⟨h.reaches.trans h', hproperties⟩

/-- How a call is nested: in symbols that are being inferred, and in the generation of the types of
the owners in `opened`. -/
structure Stack (s : Setting) (start : Call) (entered : List Symbol) (opened : List Owner)
    (a : Call) : Prop where
  inModule : s.InModule a
  symbols : ∀ key ∈ entered, Reaches s (.owner (.symbol key)) a
  around : ∀ key ∈ Call.around a, key ∈ entered
  owners : ∀ o ∈ opened, Reached s start o ∧ Reaches s (.owner o) a ∧ ∀ key ∈ o.home, key ∈ entered
  /-- An open owner is above the call, or the call does not reach it. -/
  apart : ∀ o ∈ opened, (∀ key, o ≠ .symbol key) →
    Lower (descent s a) (descent s (.owner o)) ∨ ¬ Reaches s a (.owner o)

theorem Lower.trans {p q r : Nat × Nat × Nat} (h : Lower p q) (h' : Lower q r) : Lower p r :=
  Trans.trans h h'

theorem Lower.irrefl (p : Nat × Nat × Nat) : ¬ Lower p p := by
  have hwf : WellFounded Lower := WellFoundedRelation.wf
  exact fun h => hwf.asymmetric p p h h

/-- What is entered stays entered. -/
theorem subset_of_enter {entered entered' : List Symbol} {a : Call}
    (ha : enter entered a = some entered') : entered ⊆ entered' := by
  match a with
  | .node _ _ | .owner (.literal _) | .owner (.property _ _) =>
    cases ha
    exact List.Subset.refl _
  | .owner (.symbol key) =>
    obtain ⟨-, rfl⟩ : key ∉ entered ∧ key :: entered = entered' := by simpa [enter] using ha
    exact List.subset_cons_self _ _

/-- The own symbol of an owner that is called is being inferred. -/
theorem home_mem_of_enter {o : Owner} {entered entered' : List Symbol}
    (haround : ∀ key ∈ o.around, key ∈ entered) (ha : enter entered (.owner o) = some entered') :
    ∀ key ∈ o.home, key ∈ entered' := by
  intro key hkey
  match o with
  | .literal _ => cases hkey
  | .symbol k =>
    obtain ⟨-, rfl⟩ : k ∉ entered ∧ k :: entered = entered' := by simpa [enter] using ha
    cases hkey
    exact List.mem_cons_self
  | .property o name =>
    refine subset_of_enter ha (haround key ?_)
    exact Option.mem_toList.2 hkey

/-- A nested call of an owner's property has the owner as its caller. -/
theorem around_of_mem_callees {entered entered' : List Symbol} {a b : Call}
    (haround : ∀ key ∈ Call.around a, key ∈ entered) (ha : enter entered a = some entered')
    (hb : b ∈ s.callees a) : ∀ key ∈ Call.around b, key ∈ entered' := by
  intro key hkey
  match a with
  | .node scope n =>
    rcases List.mem_append.1 hb with hb | hb
    · obtain ⟨p, -, rfl⟩ := List.mem_map.1 hb
      cases hkey
    · obtain ⟨o, ho, rfl⟩ := List.mem_map.1 hb
      rcases s.owner?_cases (Option.mem_toList.1 ho) with ⟨-, -, -, rfl⟩ | ⟨key, -, rfl⟩ <;>
        cases hkey
  | .owner o =>
    rcases List.mem_append.1 hb with hb | hb
    · obtain ⟨v, -, rfl⟩ := List.mem_map.1 hb
      cases hkey
    · obtain ⟨p, hp, rfl⟩ := List.mem_map.1 hb
      exact home_mem_of_enter haround ha key (Option.mem_toList.1 hkey)

namespace Stack

variable {entered entered' : List Symbol} {opened : List Owner} {a b : Call}

theorem base (h : s.InModule a) (haround : Call.around a = []) : Stack s start [] [] a where
  inModule := h
  symbols := by simp
  around := by simp [haround]
  owners := by simp
  apart := by simp

theorem nested (hsteady : Steady s start) (h : Stack s start entered opened a)
    (ha : enter entered a = some entered') (hb : b ∈ s.callees a) :
    Stack s start entered' opened b where
  inModule := s.inModule_of_mem_callees h.inModule hb
  around := around_of_mem_callees h.around ha hb
  symbols := by
    intro key hkey
    match a with
    | .node _ _ | .owner (.literal _) | .owner (.property _ _) =>
      cases ha
      exact (h.symbols key hkey).tail hb
    | .owner (.symbol k) =>
      obtain ⟨-, rfl⟩ : k ∉ entered ∧ k :: entered = entered' := by simpa [enter] using ha
      rcases List.mem_cons.1 hkey with rfl | hkey
      · exact .single hb
      · exact (h.symbols key hkey).tail hb
  owners := by
    intro o ho
    obtain ⟨hreached, hreaches, hhome⟩ := h.owners o ho
    exact ⟨hreached, hreaches.tail hb, fun key hkey => subset_of_enter ha (hhome key hkey)⟩
  apart := by
    intro o ho hsymbol
    by_contra hnot
    rw [not_or, not_not] at hnot
    obtain ⟨hlower, hreaches⟩ := hnot
    have habove := (h.apart o ho hsymbol).resolve_right (not_not.2 (.head hb hreaches))
    obtain ⟨hreached, hopen, hhome⟩ := h.owners o ho
    by_cases ha' : ∃ key, a = .owner (.symbol key)
    · -- a symbol on a cycle with an open owner is its own, and cannot be entered
      obtain ⟨key, rfl⟩ := ha'
      obtain ⟨hkey, -⟩ : key ∉ entered ∧ key :: entered = entered' := by simpa [enter] using ha
      have hown := hsteady.own o hreached key hopen (.head hb hreaches)
      exact hkey (hhome key hown)
    · refine hlower (Lower.trans (lower_of_mem_callees hb fun key heq => ha' ⟨key, heq⟩) habove)

variable {o : Owner}

/-- The calls of an owner, while it is open. -/
theorem opening (hsteady : Steady s start) (ho : Reached s start o)
    (h : Stack s start entered opened (.owner o)) (ha : enter entered (.owner o) = some entered')
    (hb : b ∈ s.callees (.owner o)) : Stack s start entered' (o :: opened) b := by
  have hnested := h.nested hsteady ha hb
  refine ⟨hnested.inModule, hnested.symbols, hnested.around, ?_, ?_⟩
  · refine List.forall_mem_cons.2 ⟨⟨ho, .single hb, home_mem_of_enter h.around ha⟩, hnested.owners⟩
  · refine List.forall_mem_cons.2 ⟨fun hsymbol => .inl ?_, hnested.apart⟩
    refine lower_of_mem_callees hb fun key heq => hsymbol key ?_
    injection heq

/-- Fewer owners may be open. -/
theorem of_subset {opened' : List Owner} (h : Stack s start entered opened a)
    (hsubset : opened' ⊆ opened) : Stack s start entered opened' a where
  inModule := h.inModule
  symbols := h.symbols
  around := h.around
  owners o ho := h.owners o (hsubset ho)
  apart o ho := h.apart o (hsubset ho)

/-- An owner is not called from inside itself, unless it is a symbol and does not begin again. -/
theorem not_mem_opened (h : Stack s start entered opened (.owner o))
    (ha : enter entered (.owner o) = some entered') : o ∉ opened := by
  intro ho
  by_cases hsymbol : ∃ key, o = .symbol key
  · obtain ⟨key, rfl⟩ := hsymbol
    have hkey := (h.owners _ ho).2.2 key rfl
    simp [enter, hkey] at ha
  · rcases h.apart o ho fun key heq => hsymbol ⟨key, heq⟩ with hlower | hreaches
    · exact Lower.irrefl _ hlower
    · exact hreaches .refl

/-- What is being inferred when a reached owner is called makes no difference to it. -/
theorem sameFor (hsteady : Steady s start) (ho : Reached s start o)
    (h : Stack s start entered opened (.owner o)) (ha : enter entered (.owner o) = some entered') :
    SameFor s (.owner o) o.around entered := by
  intro key hkey
  refine ⟨h.around key, fun hmem => ?_⟩
  have hown := hsteady.own o ho key hkey (h.symbols key hmem)
  match o with
  | .literal _ => cases hown
  | .symbol k =>
    cases hown
    simp [enter, hmem] at ha
  | .property o name => exact Option.mem_toList.2 hown

end Stack

/-! ### A check for steady calls -/

/-- Some calls, with those that they lead to in a number of steps. -/
def spread (s : Setting) : Nat → List Call → List Call
  | 0, calls => calls
  | n + 1, calls => spread s n (calls ++ (calls.flatMap s.callees).filter (· ∉ calls)).eraseDups

/-- Do calls lead to no others? -/
def isClosed (s : Setting) (calls : List Call) : Bool :=
  calls.all fun a => (s.callees a).all (· ∈ calls)

theorem subset_spread (s : Setting) (n : Nat) (calls : List Call) : calls ⊆ spread s n calls := by
  induction n generalizing calls with
  | zero => exact List.Subset.refl _
  | succ n ih =>
    refine List.Subset.trans (fun a ha => ?_) (ih _)
    exact List.mem_eraseDups.2 (List.mem_append_left _ ha)

/-- Calls that lead to no others include all that they reach. -/
theorem mem_of_reaches {calls : List Call} (hclosed : isClosed s calls = true) {a b : Call}
    (ha : a ∈ calls) (h : Reaches s a b) : b ∈ calls := by
  simp only [isClosed, List.all_eq_true, decide_eq_true_eq] at hclosed
  induction h with
  | refl => exact ha
  | tail _ hb ih => exact hclosed _ ih _ hb

/-- Does a call not reach another one? A positive answer is right. -/
def isCutOff (s : Setting) (n : Nat) (a b : Call) : Bool :=
  isClosed s (spread s n [a]) && decide (b ∉ spread s n [a])

theorem not_reaches_of_isCutOff {n : Nat} {a b : Call} (h : isCutOff s n a b = true) :
    ¬ Reaches s a b := by
  simp only [isCutOff, Bool.and_eq_true, decide_eq_true_eq] at h
  exact fun hreaches => h.2 (mem_of_reaches h.1 (subset_spread s n [a] List.mem_cons_self) hreaches)

/-- Is all well with an owner, given the symbols that could be on a cycle with it? -/
def isSteadyOwner (s : Setting) (n : Nat) (symbols : List Symbol) (o : Owner) : Bool :=
  s.owners.all (fun o' => decide (o'.type s = o.type s → o' = o)) &&
    (carefully s n o.around (.owner o) []).isSome &&
      symbols.all fun key => o.home == some key ||
        isCutOff s n (.owner o) (.owner (.symbol key)) ||
          isCutOff s n (.owner (.symbol key)) (.owner o)

/-- The symbols among some calls. -/
def symbolsOf (calls : List Call) : List Symbol :=
  calls.filterMap fun
    | .owner (.symbol key) => some key
    | _ => none

/-- Is a call steady? A positive answer is right; `n` limits the search. -/
def isSteady (s : Setting) (n : Nat) (start : Call) : Bool :=
  let reached := spread s n [start]
  isClosed s reached && (carefully s n (Call.around start) start []).isSome &&
    reached.all fun
      | .owner o => !o.hasProperties s || isSteadyOwner s n (symbolsOf reached) o
      | .node _ _ => true

theorem steady_of_isSteady {n : Nat} (h : isSteady s n start = true) : Steady s start := by
  simp only [isSteady, Bool.and_eq_true, List.all_eq_true] at h
  obtain ⟨⟨hclosed, hstart⟩, hreached⟩ := h
  have hmem {b : Call} (hb : Reaches s start b) : b ∈ spread s n [start] :=
    mem_of_reaches hclosed (subset_spread s n [start] List.mem_cons_self) hb
  have howner (o : Owner) (ho : Reached s start o) :
      isSteadyOwner s n (symbolsOf (spread s n [start])) o = true := by
    simpa [ho.hasProperties] using hreached _ (hmem ho.reaches)
  simp only [isSteadyOwner, Bool.and_eq_true, List.all_eq_true, decide_eq_true_eq] at howner
  refine ⟨fun o ho => (howner o ho).1.1, fun o ho key hkey hback => ?_, ?_⟩
  · have hsymbol : key ∈ symbolsOf (spread s n [start]) :=
      List.mem_filterMap.2 ⟨_, hmem (ho.reaches.trans hkey), rfl⟩
    have hcheck := (howner o ho).2 key hsymbol
    simp only [Bool.or_eq_true, beq_iff_eq] at hcheck
    rcases hcheck with (hhome | hcut) | hcut
    · exact hhome
    · exact absurd hkey (not_reaches_of_isCutOff hcut)
    · exact absurd hback (not_reaches_of_isCutOff hcut)
  · rintro a (rfl | ⟨o, rfl, ho⟩)
    · exact ⟨n, hstart⟩
    · exact ⟨n, (howner o ho).1.2⟩

end ScriptTypes.Inference
