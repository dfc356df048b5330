import ScriptTypes.Proofs.Script.Claimed
import ScriptTypes.Proofs.Script.Parts.Statements

/-!
# The drafts of scripts

A script is lowered from its pairs without a fallback: the pairs that the grammar finds have all
their parts, in the order in which lowering asks for them. The draft is the table of the module of
the text, so no node is missing, and its nodes form a tree.

Main statements: `lower?_of_ofText`, `Module.lowered_texts_are_trees`.
-/

namespace ScriptTypes.Script

/-- Pairs are found in scripts and in no other texts. -/
theorem isSome_lower? (cs : List Char) : (lower? cs).isSome = (parse cs).toOption.isSome := by
  have hfound := rules.fst_parseText .pairs Syntax.program (callDepth cs) cs
  have hparse : (parse cs).toOption.isSome
      = (rules.parseText Syntax.program (callDepth cs) cs).1.isSome := by
    unfold parse
    split
    · rename_i hsome
      rw [hsome]
      rfl
    · rename_i hnone
      rw [hnone]
      rfl
  rw [hparse, hfound, lower?, pairs?]
  simp [Grammar.Trace.found]

/-- The draft of a script is the table of its module. -/
theorem lower?_of_ofText {cs : List Char} {m : Module} (h : Module.ofText cs = .ok m) :
    ∃ d, lower? cs = some (m.root, d) ∧ d.fallbacks = 0 ∧ d.slots = m.entries.map Entry.slot := by
  obtain ⟨t, hparse, rfl, -⟩ := Module.formed_of_ofText h
  have hlower := lower?_eq_visit hparse
  have hformed := formed_of_parse hparse
  obtain ⟨items, -, -, -, rfl⟩ := parseText_of_parse hparse
  have hfollows : Follows (DocComments.blockAt? (DocComments.scan cs)) _ _ _ _ _ :=
    follows_program hformed
  obtain ⟨hroot, hslots, hfallbacks, -⟩ := hfollows { pending := DocComments.scan cs } #[]
    Array.map_empty.symm fun _ _ _ => rfl
  refine ⟨_, hlower.trans (congrArg some (Prod.ext ?_ rfl)), hfallbacks, hslots⟩
  exact hroot.trans (Module.root_ofTree _)

/-- The children of a node of a draft. -/
def Draft.children (d : Draft) (n : NodeId) : List NodeId :=
  match d.slots[n]? with
  | some ⟨_, .form f, _⟩ => f.children
  | _ => []

theorem Form.children_undocumented {α : Type} (f : Form α) :
    f.undocumented.children = f.children := by
  cases f <;> rfl

theorem Module.docs?_eq (m : Module) (n : NodeId) : m.docs? n = (m.form n).docs? := by
  unfold docs?
  cases m.form n <;> rfl

section Slots

variable {d : Draft} {m : Module} (h : d.slots = m.entries.map Entry.slot)

include h

theorem ne_missing_of_slots : ∀ s ∈ d.slots, s.node ≠ .missing := by
  intro s hs
  rw [h] at hs
  obtain ⟨e, -, rfl⟩ := Array.mem_map.1 hs
  exact nofun

theorem getElem?_of_slots {n : NodeId} (hn : n < m.size) :
    d.slots[n]? = some ⟨m.range n, .form (m.form n).undocumented, m.docs? n⟩ := by
  have hentry : m.entries[n]? = some m.entries[n] := Array.getElem?_eq_getElem hn
  rw [h, Array.getElem?_map, m.docs?_eq, Module.range, Module.span, Module.form, hentry]
  rfl

theorem children_of_slots (n : NodeId) : d.children n = m.children n := by
  rw [Draft.children, Module.children, Module.form, h, Array.getElem?_map]
  cases m.entries[n]? with
  | none => rfl
  | some e => exact e.form.children_undocumented

end Slots

namespace Module

/-- A script is lowered to a tree. Lowering its pairs takes no fallback and leaves no missing node.
The draft has the nodes of the module, with their spans, constructs and documentation, and these
read back as the tree of the text with its documentation. The last node is the program. Every other
node is a child of one node and occurs there once: all lists of children together are the other
nodes in some order. So a node has a parent exactly if it is not the last one; its parent has a
larger number and has it as a child, at its child index. All nodes are below the last one, and at
every place of a construct there is what the place asks for. -/
theorem lowered_texts_are_trees {cs : List Char} {m : Module} (h : ofText cs = .ok m) :
    (∃ d, lower? cs = some (m.root, d) ∧ d.fallbacks = 0 ∧ (∀ s ∈ d.slots, s.node ≠ .missing) ∧
      d.slots.size = m.size ∧ (∀ n, d.children n = m.children n) ∧
      ∀ n, n < m.size →
        d.slots[n]? = some ⟨m.range n, .form (m.form n).undocumented, m.docs? n⟩) ∧
    (∃ t, parse cs = .ok t ∧
      m.tree m.root = t.document (DocComments.blockAt? (DocComments.scan cs)) {}) ∧
    m.root + 1 = m.size ∧ (∃ items, m.form m.root = .program items) ∧
    (m.nodes.flatMap m.children).Perm (List.range m.root) ∧
    (∀ n, (m.parent? n).isSome = true ↔ n < m.root) ∧
    (∀ n p, m.parent? n = some p → n < p ∧
      ∃ i, m.childIndex? n = some i ∧ (m.children p)[i]? = some n) ∧
    (∀ n p, n ∈ m.children p ↔ m.parent? n = some p) ∧
    (∀ n, n < m.root → m.Below n m.root) ∧
    ∀ n, n < m.size → ∀ p ∈ (m.form n).parts, p.2 < m.size ∧ p.1.admits (m.form p.2) = true := by
  obtain ⟨d, hlower, hfallbacks, hslots⟩ := lower?_of_ofText h
  have hdraft : (∀ s ∈ d.slots, s.node ≠ .missing) ∧ d.slots.size = m.size ∧
      (∀ n, d.children n = m.children n) ∧ ∀ n, n < m.size →
        d.slots[n]? = some ⟨m.range n, .form (m.form n).undocumented, m.docs? n⟩ :=
    ⟨ne_missing_of_slots hslots, by rw [hslots, Array.size_map]; rfl, children_of_slots hslots,
      fun n => getElem?_of_slots hslots⟩
  obtain ⟨t, hparse, rfl, hformed⟩ := formed_of_ofText h
  set t' := t.document (DocComments.blockAt? (DocComments.scan cs)) {} with ht'
  have hperm := perm_children_ofTree t'
  have hsize := size_ofTree t'
  refine ⟨⟨d, hlower, hfallbacks, hdraft⟩, ⟨t, hparse, tree_root_ofTree t'⟩, hsize, ?_, hperm,
    fun n => ?_, fun n p hp => ?_, fun n p => (parent?_eq_some_iff hperm).symm,
    fun n => below_root hperm, fun n hn p hp => ?_⟩
  · obtain ⟨items, -, -, -, rfl⟩ := parseText_of_parse hparse
    have hroot := tree_root_ofTree t'
    rw [tree_eq, ht'] at hroot
    exact Form.eq_program_of_map (Tree.node.inj hroot).2
  · rw [Option.isSome_iff_exists, ← exists_mem_children_iff hperm]
    exact exists_congr fun p => parent?_eq_some_iff hperm
  · exact ⟨(ofTree t').lt_of_mem_children (mem_children_of_parent? hp), getElem?_childIndex? hp⟩
  · have hmem : p.2 ∈ (ofTree t').children n := by
      rw [children, ← Form.map_snd_parts]
      exact List.mem_map_of_mem hp
    have hroot : p.2 < (ofTree t').root := (exists_mem_children_iff hperm).1 ⟨n, hmem⟩
    refine ⟨Nat.lt_of_lt_of_le hroot (Nat.sub_le _ _), admits_of_formed ?_ p hp⟩
    rcases Nat.lt_or_eq_of_le (Nat.le_sub_one_of_lt hn) with hlt | rfl
    · exact (below_root hperm hlt).formed hformed
    · exact hformed

/-- The nodes of a loop over keys that assigns a function. -/
theorem lowered_loop_is_tree : ∃ (m : Module) (d : Draft),
    ofText "for (var k in o) o[k] = function (x) \x7b return \x7ba: [x, k]\x7d; \x7d;".toList
      = .ok m ∧
    lower? "for (var k in o) o[k] = function (x) \x7b return \x7ba: [x, k]\x7d; \x7d;".toList
      = some (19, d) ∧ d.fallbacks = 0 ∧ d.slots.size = 20 ∧ (∀ s ∈ d.slots, s.node ≠ .missing) ∧
    (m.nodes.flatMap m.children).Perm (List.range 19) ∧ m.Below 3 19 := by
  obtain ⟨m, hm, hsize⟩ := exists_ofText
    "for (var k in o) o[k] = function (x) \x7b return \x7ba: [x, k]\x7d; \x7d;"
    (fun m => m.size = 20) (by decide +kernel)
  obtain ⟨⟨d, hlower, hfallbacks, hnone, hslots, -⟩, -, hroot, -, hperm, -, -, -, hbelow, -⟩ :=
    lowered_texts_are_trees hm
  have hroot : m.root = 19 := Nat.succ.inj (hroot.trans hsize)
  rw [hroot] at hlower hperm hbelow
  exact ⟨m, d, hm, hlower, hfallbacks, hslots.trans hsize, hnone, hperm, hbelow 3 (by decide)⟩

end Module

end ScriptTypes.Script
