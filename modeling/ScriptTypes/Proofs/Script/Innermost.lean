import ScriptTypes.Proofs.Script.Spans

/-!
# The innermost node at an offset

The node at an offset is found by a search through the whole table, for the shortest span that
covers the offset and, of equally long ones, the smallest number. The spans of a module are nested
like its nodes, so two nodes that cover the same offset are one below the other, and the one below
is at most as long and has the smaller number. What the search finds is the lowest of them.

Main statement: `spans_nest_and_node_is_innermost`.
-/

namespace ScriptTypes.Script

theorem Span.contains_iff {s : Span} {offset : Nat} :
    s.contains offset = true ↔ s.start ≤ offset ∧ offset < s.stop := by
  simp [Span.contains]

theorem Lined.pairwise {start stop : Nat} {spans : List Span} (h : Lined start spans stop) :
    spans.Pairwise fun a b => a.stop ≤ b.start := by
  induction spans generalizing start with
  | nil => exact .nil
  | cons s spans ih =>
    obtain ⟨-, -, hrest⟩ := h
    refine List.pairwise_cons.2 ⟨fun t ht => ?_, ih hrest⟩
    rw [← List.map_id spans] at hrest
    exact (hrest.of_mem ht).1

namespace Module

variable {m : Module}

/-! ### The best of several nodes -/

theorem innermore_iff {a b : Nat} :
    m.innermore a b = true ↔ (m.range a).size < (m.range b).size ∨
      (m.range a).size = (m.range b).size ∧ a ≤ b := by
  simp [innermore]

/-- The search keeps the best node that it has seen. -/
theorem exists_best (m : Module) (nodes : List NodeId) (best : NodeId) :
    ∃ n, nodes.foldl (fun best n => match best with
        | none => some n
        | some b => if m.innermore b n then some b else some n) (some best) = some n ∧
      n ∈ best :: nodes ∧ ∀ v ∈ best :: nodes, m.innermore n v = true := by
  induction nodes generalizing best with
  | nil =>
    refine ⟨best, rfl, List.mem_singleton_self _, List.forall_mem_singleton.2 ?_⟩
    exact innermore_iff.2 (.inr ⟨rfl, Nat.le_refl _⟩)
  | cons v nodes ih =>
    by_cases hbest : m.innermore best v = true
    · obtain ⟨n, hn, hmem, hall⟩ := ih best
      obtain ⟨hfirst, hrest⟩ := List.forall_mem_cons.1 hall
      refine ⟨n, by rw [List.foldl_cons]; simpa [hbest] using hn, ?_, ?_⟩
      · exact (List.mem_cons.1 hmem).elim (fun h => h ▸ List.mem_cons_self)
          fun h => List.mem_cons_of_mem _ (List.mem_cons_of_mem _ h)
      · refine List.forall_mem_cons.2 ⟨hfirst, List.forall_mem_cons.2 ⟨?_, hrest⟩⟩
        rw [innermore_iff] at hfirst hbest ⊢
        omega
    · obtain ⟨n, hn, hmem, hall⟩ := ih v
      refine ⟨n, by rw [List.foldl_cons]; simpa [hbest] using hn, List.mem_cons_of_mem _ hmem, ?_⟩
      refine List.forall_mem_cons.2 ⟨?_, hall⟩
      have hfirst := hall v List.mem_cons_self
      rw [innermore_iff] at hfirst hbest ⊢
      omega

theorem nodeAt?_eq_none_iff {offset : Nat} :
    m.nodeAt? offset = none ↔ ∀ n < m.size, ¬(m.range n).contains offset = true := by
  have hmem : (∀ n < m.size, ¬(m.range n).contains offset = true) ↔
      m.nodes.filter (fun n => (m.range n).contains offset) = [] := by
    simp [nodes, List.filter_eq_nil_iff]
  rw [hmem, nodeAt?]
  generalize m.nodes.filter (fun n => (m.range n).contains offset) = covering
  cases covering with
  | nil => exact ⟨fun _ => rfl, fun _ => rfl⟩
  | cons best nodes =>
    obtain ⟨n, hn, -⟩ := m.exists_best nodes best
    rw [List.foldl_cons]
    constructor
    · intro hnone
      cases hn.symm.trans hnone
    · intro hnil
      cases hnil

/-- What the search finds covers the offset and is the best of all nodes that do. -/
theorem of_nodeAt?_eq_some {offset : Nat} {n : Nat} (h : m.nodeAt? offset = some n) :
    n < m.size ∧ (m.range n).contains offset = true ∧
      ∀ v < m.size, (m.range v).contains offset = true → m.innermore n v = true := by
  have hmem (v : Nat) : v ∈ m.nodes.filter (fun n => (m.range n).contains offset) ↔
      v < m.size ∧ (m.range v).contains offset = true := by
    simp [nodes]
  rw [nodeAt?] at h
  cases hfilter : m.nodes.filter fun n => (m.range n).contains offset with
  | nil =>
    rw [hfilter] at h
    cases h
  | cons best nodes =>
    obtain ⟨n', hn', hn, hall⟩ := m.exists_best nodes best
    rw [hfilter, List.foldl_cons] at h
    obtain rfl : n' = n := Option.some.inj (hn'.symm.trans h)
    rw [← hfilter] at hn hall
    obtain ⟨hsize, hcontains⟩ := (hmem n').1 hn
    exact ⟨hsize, hcontains, fun v hv hcontains => hall v ((hmem v).2 ⟨hv, hcontains⟩)⟩

/-! ### Nodes that cover the same offset -/

namespace WellFormed

variable (h : m.WellFormed)
include h

theorem contains_of_under {v n : NodeId} {offset : Nat} (hv : m.Under v n)
    (hcontains : (m.span v).contains offset = true) : (m.span n).contains offset = true := by
  have hspan := h.span_of_under hv
  rw [Span.contains_iff] at hcontains ⊢
  omega

theorem pairwise_children (n : NodeId) :
    (m.children n).Pairwise fun a b => (m.span a).stop ≤ (m.span b).start := by
  by_cases hn : n < m.size
  · exact List.pairwise_map.1 (h.lined hn).pairwise
  · have hnil : m.children n = [] :=
      List.eq_nil_iff_forall_not_mem.2 fun c hc => hn (Module.lt_size_of_mem_children hc)
    rw [hnil]
    exact .nil

/-- Only one child of a node covers an offset. -/
theorem eq_of_contains {c c' n : NodeId} {offset : Nat} (hc : c ∈ m.children n)
    (hc' : c' ∈ m.children n) (hcontains : (m.span c).contains offset = true)
    (hcontains' : (m.span c').contains offset = true) : c = c' := by
  by_contra hne
  have hapart := (h.lined (Module.lt_size_of_mem_children hc)).apart hc hc' hne
  rw [Span.contains_iff] at hcontains hcontains'
  omega

/-- Two nodes that cover an offset are one below the other. The induction descends from a node that
has both of them below it to the one under which they part. -/
theorem under_or_under_of_under {a b n : NodeId} {offset : Nat} (ha : m.Under a n)
    (hb : m.Under b n) (hcontains : (m.span a).contains offset = true)
    (hcontains' : (m.span b).contains offset = true) : m.Under a b ∨ m.Under b a := by
  induction n using Nat.strongRecOn with
  | ind n ih =>
    obtain rfl | ⟨c, hc, hac⟩ := under_iff.1 ha
    · exact .inr hb
    · obtain rfl | ⟨c', hc', hbc⟩ := under_iff.1 hb
      · exact .inl ha
      · obtain rfl : c = c' := h.eq_of_contains hc hc' (h.contains_of_under hac hcontains)
          (h.contains_of_under hbc hcontains')
        exact ih c (m.lt_of_mem_children hc) hac hbc

theorem under_or_under {a b : Nat} {offset : Nat} (ha : a < m.size) (hb : b < m.size)
    (hcontains : (m.span a).contains offset = true)
    (hcontains' : (m.span b).contains offset = true) : m.Under a b ∨ m.Under b a :=
  h.under_or_under_of_under (h.under_root ha) (h.under_root hb) hcontains hcontains'

/-! ### The search in a module whose spans are stored as they are -/

/-- A node is no worse an answer than those above it. -/
theorem not_innermore_of_below (hexact : m.Exact) {v n : NodeId} (hv : m.Below v n) :
    ¬m.innermore n v = true := by
  have hspan := h.span_of_below hv
  have hlt := hv.lt
  rw [innermore_iff, hexact, hexact, Span.size, Span.size]
  omega

/-- The node at an offset is below all others that cover it. -/
theorem below_of_nodeAt? (hexact : m.Exact) {offset : Nat} {n v : Nat}
    (hn : m.nodeAt? offset = some n) (hv : v < m.size)
    (hcontains : (m.span v).contains offset = true) (hne : v ≠ n) : m.Below n v := by
  obtain ⟨hsize, hcontains', hbest⟩ := of_nodeAt?_eq_some hn
  rw [hexact] at hcontains'
  rcases h.under_or_under hsize hv hcontains' hcontains with (rfl | hbelow) | (rfl | hbelow)
  · exact absurd rfl hne
  · exact hbelow
  · exact absurd rfl hne
  · exact absurd (hbest v hv (by rwa [hexact])) (h.not_innermore_of_below hexact hbelow)

theorem nodeAt?_eq_some_iff (hexact : m.Exact) {offset : Nat} {n : Nat} :
    m.nodeAt? offset = some n ↔ n < m.size ∧ (m.span n).contains offset = true ∧
      ∀ c ∈ m.children n, ¬(m.span c).contains offset = true := by
  constructor
  · intro hn
    obtain ⟨hsize, hcontains, hbest⟩ := of_nodeAt?_eq_some hn
    rw [hexact] at hcontains
    refine ⟨hsize, hcontains, fun c hc hcontains' => ?_⟩
    exact h.not_innermore_of_below hexact (.child hc)
      (hbest c (h.lt_size_of_mem_children hc) (by rwa [hexact]))
  · rintro ⟨hsize, hcontains, hchildren⟩
    obtain hnone | ⟨v, hv⟩ := (m.nodeAt? offset).eq_none_or_eq_some
    · exact absurd hcontains (hexact n ▸ nodeAt?_eq_none_iff.1 hnone n hsize)
    · by_cases hne : n = v
      · rw [hv, hne]
      · -- a lower node would stand below a child that covers the offset too
        obtain ⟨-, hcontains', -⟩ := of_nodeAt?_eq_some hv
        rw [hexact] at hcontains'
        obtain rfl | ⟨c, hc, hvc⟩ :=
          under_iff.1 (.inr (h.below_of_nodeAt? hexact hv hsize hcontains hne))
        · exact absurd rfl hne
        · exact absurd (h.contains_of_under hvc hcontains') (hchildren c hc)

end WellFormed

/-- The spans of a text's module are nested like its nodes, and those of the children of a node
follow one another. In a text of less than 2 ^ 32 bytes all of them are stored as they are. At an
offset beyond the text there is then no node. At any other one there is the one node that covers the
offset while none of its children does, and it is below all other nodes that cover the offset. -/
theorem spans_nest_and_node_is_innermost {cs : List Char} {m : Module} (h : ofText cs = .ok m) :
    (∀ n p, m.parent? n = some p →
      (m.span p).start ≤ (m.span n).start ∧ (m.span n).stop ≤ (m.span p).stop) ∧
    (∀ p, (m.children p).Pairwise fun a b => (m.span a).stop ≤ (m.span b).start) ∧
    (Text.byteSize cs < 2 ^ 32 → (∀ n, m.range n = m.span n) ∧
      ∀ offset, (m.nodeAt? offset = none ↔ Text.byteSize cs ≤ offset) ∧
        (∀ n, m.nodeAt? offset = some n ↔ n < m.size ∧ (m.span n).contains offset = true ∧
          ∀ c ∈ m.children n, ¬(m.span c).contains offset = true) ∧
        ∀ n v, m.nodeAt? offset = some n → v < m.size → (m.span v).contains offset = true →
          v ≠ n → m.Below n v) := by
  have hformed := wellFormed_of_ofText h
  refine ⟨fun n p hp => ?_, hformed.pairwise_children, fun hsize => ?_⟩
  · exact hformed.span_of_under (.inr (.child (mem_children_of_parent? hp)))
  have hexact := exact_of_ofText h hsize
  refine ⟨hexact, fun offset => ⟨?_, ?_, ?_⟩⟩
  · have hroot : m.root < m.size := Nat.lt_of_lt_of_eq (Nat.lt_succ_self _) hformed.size
    have hcovers : (m.span m.root).contains offset = true ↔ offset < Text.byteSize cs := by
      simp [Span.contains_iff, span_root_of_ofText h]
    rw [nodeAt?_eq_none_iff]
    constructor
    · intro hnone
      exact Nat.le_of_not_lt (mt hcovers.2 (hexact m.root ▸ hnone m.root hroot))
    · intro hle n hn hcontains
      rw [hexact] at hcontains
      have hinside := hcovers.1 (hformed.contains_of_under (hformed.under_root hn) hcontains)
      omega
  · exact fun n => hformed.nodeAt?_eq_some_iff hexact
  · exact fun n v => hformed.below_of_nodeAt? hexact

/-- The variable of a loop over keys and its declaration have the same span; the declaration is the
innermost of the two. -/
theorem node_of_loop_variable_is_innermost : ∃ m : Module,
    ofText "for (var k in o) f(k);".toList = .ok m ∧ m.span 5 = m.span 4 ∧
      m.nodeAt? 9 = some 4 ∧ m.Below 4 5 := by
  obtain ⟨m, hm, hsize, hspan, hnode⟩ := exists_ofText "for (var k in o) f(k);"
    (fun m => 5 < m.size ∧ m.span 5 = m.span 4 ∧ m.nodeAt? 9 = some 4) (by decide +kernel)
  obtain ⟨-, -, hall⟩ := spans_nest_and_node_is_innermost hm
  obtain ⟨-, hat⟩ := hall (by decide +kernel)
  obtain ⟨-, hiff, hbelow⟩ := hat 9
  obtain ⟨-, hcontains, -⟩ := (hiff 4).1 hnode
  exact ⟨m, hm, hspan, hnode, hbelow 4 5 hnode hsize (hspan ▸ hcontains) (by decide)⟩

end Module

end ScriptTypes.Script
