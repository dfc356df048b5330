import ScriptTypes.Proofs.Script.Lowered

/-!
# Where nodes stand in the text

The spans of the nodes of a module are nested like the nodes, and the spans of children follow one
another. A construct that begins with text of its own, such as the brace of an object literal,
starts before all that is below it; so two such constructs never start at the same offset.
-/

namespace ScriptTypes.Script

namespace Lined

variable {α : Type} {f : α → Span} {start stop : Nat} {xs : List α}

theorem of_mem (h : Lined start (xs.map f) stop) {x : α} (hx : x ∈ xs) :
    start ≤ (f x).start ∧ (f x).start < (f x).stop ∧ (f x).stop ≤ stop := by
  induction xs generalizing start with
  | nil => cases hx
  | cons y xs ih =>
    obtain ⟨hstart, hspan, hrest⟩ := h
    rcases List.mem_cons.1 hx with rfl | hx
    · exact ⟨hstart, hspan, hrest.le⟩
    · obtain ⟨hafter, hbounds⟩ := ih hrest hx
      exact ⟨by omega, hbounds⟩

/-- Spans in a row do not overlap. -/
theorem apart (h : Lined start (xs.map f) stop) {x y : α} (hx : x ∈ xs) (hy : y ∈ xs)
    (hne : x ≠ y) : (f x).stop ≤ (f y).start ∨ (f y).stop ≤ (f x).start := by
  induction xs generalizing start with
  | nil => cases hx
  | cons z xs ih =>
    obtain ⟨-, -, hrest⟩ := h
    rcases List.mem_cons.1 hx with rfl | hx'
    · rcases List.mem_cons.1 hy with rfl | hy'
      · exact absurd rfl hne
      · exact .inl (of_mem hrest hy').1
    · rcases List.mem_cons.1 hy with rfl | hy'
      · exact .inr (of_mem hrest hx').1
      · exact ih hrest hx' hy'

end Lined

namespace Module

/-- The table of a well-formed tree whose text begins at the first byte. -/
structure WellFormed (m : Module) : Prop where
  size : m.root + 1 = m.size
  children : (m.nodes.flatMap m.children).Perm (List.range m.root)
  formed : (m.tree m.root).Formed
  start : (m.span m.root).start = 0

theorem span_tree (m : Module) (n : NodeId) : (m.tree n).span = m.span n := by
  rw [tree_eq]
  rfl

/-- The program spans the whole text. -/
theorem span_root_of_ofText {cs : List Char} {m : Module} (h : ofText cs = .ok m) :
    m.span m.root = ⟨0, Text.byteSize cs⟩ := by
  obtain ⟨t, hparse, rfl, -⟩ := formed_of_ofText h
  obtain ⟨items, -, -, -, rfl⟩ := parseText_of_parse hparse
  rw [← span_tree, tree_root_ofTree, ((formed_of_parse hparse).documents {}).span]
  rfl

theorem wellFormed_of_ofText {cs : List Char} {m : Module} (h : ofText cs = .ok m) :
    m.WellFormed := by
  have hroot := span_root_of_ofText h
  obtain ⟨t, hparse, rfl, hformed⟩ := formed_of_ofText h
  exact ⟨size_ofTree _, perm_children_ofTree _, hformed, by rw [hroot]⟩

/-- The last node of a text's module is the program. -/
theorem form_root_of_ofText {cs : List Char} {m : Module} (h : ofText cs = .ok m) :
    ∃ items, m.form m.root = .program items := by
  obtain ⟨t, hparse, heq, -⟩ := formed_of_ofText h
  have hroot : m.tree m.root = t.document (DocComments.blockAt? (DocComments.scan cs)) {} := by
    rw [heq, tree_root_ofTree]
  obtain ⟨items, -, -, -, rfl⟩ := parseText_of_parse hparse
  rw [tree_eq, Tree.document, documentForm] at hroot
  exact Form.eq_program_of_map (Tree.node.inj hroot).2

/-- A node, or one below it. -/
def Under (m : Module) (v n : NodeId) : Prop := v = n ∨ m.Below v n

theorem under_iff {m : Module} {v n : NodeId} :
    m.Under v n ↔ v = n ∨ ∃ c ∈ m.children n, m.Under v c := by
  constructor
  · rintro (rfl | hv)
    · exact .inl rfl
    · cases hv with
      | child hc => exact .inr ⟨v, hc, .inl rfl⟩
      | deeper hv hc => exact .inr ⟨_, hc, .inr hv⟩
  · rintro (rfl | ⟨c, hc, rfl | hv⟩)
    · exact .inl rfl
    · exact .inr (.child hc)
    · exact .inr (.deeper hv hc)

theorem Under.trans {m : Module} {u v n : NodeId} (hu : m.Under u v) (hv : m.Under v n) :
    m.Under u n := by
  obtain rfl | hu := hu
  · exact hv
  · obtain rfl | hv := hv
    · exact .inr hu
    · exact .inr (hu.trans hv)

theorem Under.antisymm {m : Module} {u v : NodeId} (huv : m.Under u v) (hvu : m.Under v u) :
    u = v := by
  obtain rfl | huv := huv
  · rfl
  · obtain rfl | hvu := hvu
    · rfl
    · exact absurd huv.lt (Nat.lt_asymm hvu.lt)

namespace WellFormed

variable {m : Module} (h : m.WellFormed)
include h

theorem nodup_children (n : NodeId) : (m.children n).Nodup := by
  by_cases hn : n < m.size
  · have hnodup := h.children.nodup_iff.2 List.nodup_range
    exact (List.nodup_flatMap.1 hnodup).1 n (List.mem_range.2 hn)
  · have hnil : m.children n = [] :=
      List.eq_nil_iff_forall_not_mem.2 fun c hc => hn (Module.lt_size_of_mem_children hc)
    rw [hnil]
    exact List.nodup_nil

theorem formed_tree {n : Nat} (hn : n < m.size) : (m.tree n).Formed := by
  have hle : n ≤ m.root := Nat.le_sub_one_of_lt hn
  rcases Nat.lt_or_eq_of_le hle with hlt | rfl
  · exact (below_root h.children hlt).formed h.formed
  · exact h.formed

/-- What a node calls a name is one. -/
theorem named (n : Nat) : (m.form n).Named := by
  by_cases hn : n < m.size
  · have hformed := h.formed_tree hn
    rw [tree_eq] at hformed
    exact (Form.named_map m.tree (m.form n)).1 hformed.named
  · have hnone : m.entries[n]? = none := Array.getElem?_eq_none (Nat.le_of_not_lt hn)
    simp [form, hnone, Form.Named]

theorem admits {n : Nat} (hn : n < m.size) :
    ∀ p ∈ (m.form n).parts, p.1.admits (m.form p.2) = true :=
  admits_of_formed (h.formed_tree hn)

/-- The children of a node follow one another inside its span. -/
theorem lined {n : Nat} (hn : n < m.size) :
    Lined ((m.span n).start + (m.form n).lead) ((m.children n).map m.span) (m.span n).stop := by
  have hformed := h.formed_tree hn
  rw [tree_eq] at hformed
  cases hformed with
  | node _ _ lined _ =>
    have hspans : Tree.span ∘ m.tree = m.span := funext m.span_tree
    rwa [Form.lead_map, Form.children_map, List.map_map, hspans] at lined

theorem lt_size_of_mem_children {c n : Nat} (hc : c ∈ m.children n) : c < m.size := by
  have hroot : c < m.root := (exists_mem_children_iff h.children).1 ⟨n, hc⟩
  exact Nat.lt_of_lt_of_le hroot (Nat.sub_le _ _)

/-- What is below a node stands inside its span, behind the text that the node begins with. -/
theorem span_of_below {v n : NodeId} (hv : m.Below v n) :
    (m.span n).start + (m.form n).lead ≤ (m.span v).start ∧
      (m.span v).start < (m.span v).stop ∧ (m.span v).stop ≤ (m.span n).stop := by
  induction hv with
  | child hc => exact (h.lined (Module.lt_size_of_mem_children hc)).of_mem hc
  | deeper hv hc ih =>
    have hchild := (h.lined (Module.lt_size_of_mem_children hc)).of_mem hc
    omega

theorem span_of_under {v n : NodeId} (hv : m.Under v n) :
    (m.span n).start ≤ (m.span v).start ∧ (m.span v).stop ≤ (m.span n).stop := by
  rcases hv with rfl | hv
  · exact ⟨Nat.le_refl _, Nat.le_refl _⟩
  · have hspan := h.span_of_below hv
    omega

theorem under_root {n : Nat} (hn : n < m.size) : m.Under n m.root := by
  rcases Nat.lt_or_eq_of_le (Nat.le_sub_one_of_lt hn) with hlt | heq
  · exact .inr (below_root h.children hlt)
  · exact .inl heq

theorem start_of_under {v c n : NodeId} (hc : c ∈ m.children n) (hv : m.Under v c) :
    (m.span c).start ≤ (m.span v).start ∧ (m.span v).start < (m.span c).stop := by
  have hspan := (h.lined (Module.lt_size_of_mem_children hc)).of_mem hc
  rcases hv with rfl | hv
  · exact ⟨Nat.le_refl _, hspan.2.1⟩
  · have := h.span_of_below hv
    omega

/-- What starts at the same offset is under the same child. -/
theorem eq_of_under {v v' c c' n : NodeId} (hc : c ∈ m.children n) (hc' : c' ∈ m.children n)
    (hv : m.Under v c) (hv' : m.Under v' c') (hstart : (m.span v).start = (m.span v').start) :
    c = c' := by
  by_contra hne
  have hinside := h.start_of_under hc hv
  have hinside' := h.start_of_under hc' hv'
  have hapart := (h.lined (Module.lt_size_of_mem_children hc)).apart hc hc' hne
  omega

/-- Two constructs that begin with text of their own do not start at the same offset. -/
theorem eq_of_start_eq {a b : Nat} (ha : a < m.size) (hb : b < m.size)
    (hlead : (m.form a).lead = 1) (hlead' : (m.form b).lead = 1)
    (hstart : (m.span a).start = (m.span b).start) : a = b := by
  -- descend to the node under which they part
  have hunder (n : Nat) (ha : m.Under a n) (hb : m.Under b n) : a = b := by
    induction n using Nat.strong_induction_on with
    | _ n ih =>
      have hbelow {v w : NodeId} (hv : (m.form v).lead = 1) (hw : m.Under w v)
          (heq : (m.span v).start = (m.span w).start) : v = w := by
        rcases hw with rfl | hw
        · rfl
        · have := h.span_of_below hw
          omega
      rcases under_iff.1 ha with rfl | ⟨c, hc, hac⟩
      · exact hbelow hlead hb hstart
      · rcases under_iff.1 hb with rfl | ⟨c', hc', hbc⟩
        · exact (hbelow hlead' ha hstart.symm).symm
        · obtain rfl := h.eq_of_under hc hc' hac hbc hstart
          exact ih c (m.lt_of_mem_children hc) hac hbc
  exact hunder m.root (h.under_root ha) (h.under_root hb)

end WellFormed

/-! ### Texts that 32 bits can measure -/

/-- All spans are stored as they are. -/
def Exact (m : Module) : Prop := ∀ n, m.range n = m.span n

theorem exact_of_ofText {cs : List Char} {m : Module} (h : ofText cs = .ok m)
    (hsize : Text.byteSize cs < 2 ^ 32) : m.Exact := by
  intro n
  have hformed := wellFormed_of_ofText h
  by_cases hn : n < m.size
  · have hinside := (hformed.span_of_under (hformed.under_root hn)).2
    rw [span_root_of_ofText h] at hinside
    have hstop : (m.span n).stop < 2 ^ 32 := hinside.trans_lt hsize
    have hstart : (m.span n).start < 2 ^ 32 := by
      have hle := (hformed.lined hn).le
      omega
    exact Span.stored_eq_self hstart hstop
  · have hnone : m.entries[n]? = none := Array.getElem?_eq_none (Nat.le_of_not_lt hn)
    simp [range, span, hnone, Span.stored]

end Module

end ScriptTypes.Script
