import ScriptTypes.Proofs.Script.Numbered
import ScriptTypes.Proofs.Script.Parsed
import ScriptTypes.Script.Module

/-!
# Modules are trees

The module of a text lists the constructs of its tree. It has the program as its last node; all
other nodes are a child of one node and occur among its children once. So every node has a parent
up to the program, and the tree can be read back from the table.

Main statements: `Module.tree_root_ofTree`, `Module.perm_children_ofTree`, `Module.below_root`.
-/

namespace ScriptTypes.Script

namespace Form

variable {α β : Type}

theorem parts_map (g : α → β) (f : Form α) :
    (f.map g).parts = f.parts.map fun p => (p.1, g p.2) := by
  cases f <;> simp [Form.map, parts, Option.toList_map, Function.comp_def]

theorem lead_map (g : α → β) (f : Form α) : (f.map g).lead = f.lead := by
  cases f <;> rfl

theorem named_map (g : α → β) (f : Form α) : (f.map g).Named ↔ f.Named := by
  cases f with
  | function name _ _ _ => cases name <;> exact Iff.rfl
  | _ => exact Iff.rfl

theorem eq_program_of_map {g : α → β} {f : Form α} {items : List β}
    (h : f.map g = .program items) : ∃ items, f = .program items := by
  cases f with
  | program items => exact ⟨items, rfl⟩
  | _ => cases h

theorem admits_map (g : α → β) (f : Form α) (place : Place) :
    place.admits (f.map g) = place.admits f := by
  cases f with
  | function name _ _ _ => cases place <;> cases name <;> rfl
  | var items =>
    match items with
    | [] | [_] | _ :: _ :: _ => cases place <;> rfl
  | _ => cases place <;> rfl

end Form

namespace Module

variable (m : Module)

/-! ### The tree at a node -/

/-- The tree at a node, cut off where it is more than `depth` deep. -/
def treeWithin : (depth : Nat) → NodeId → Tree
  | 0, _ => .node ⟨0, 0⟩ .empty
  | depth + 1, n => .node (m.span n) ((m.form n).map (treeWithin depth))

/-- The tree at a node. Children have smaller numbers, so it is at most as deep as the number. -/
def tree (n : NodeId) : Tree := m.treeWithin (n + 1) n

theorem treeWithin_eq {depth n : Nat} (h : n < depth) : m.treeWithin depth n = m.tree n := by
  induction n using Nat.strong_induction_on generalizing depth with
  | _ n ih =>
    obtain ⟨depth, rfl⟩ : ∃ d, depth = d + 1 := ⟨depth - 1, by omega⟩
    rw [tree, treeWithin, treeWithin]
    congr 1
    refine Form.map_congr fun c hc => ?_
    have hlt : c < n := m.lt_of_mem_children hc
    rw [ih c hlt (Nat.lt_of_lt_of_le hlt (Nat.le_of_lt_succ h)), ih c hlt hlt]

theorem tree_eq (n : NodeId) : m.tree n = .node (m.span n) ((m.form n).map m.tree) := by
  rw [tree, treeWithin]
  congr 1
  exact Form.map_congr fun c hc => m.treeWithin_eq (m.lt_of_mem_children hc)

theorem reads_tree : Reads m.tree m.entries.toList := by
  intro n e he
  rw [Array.getElem?_toList] at he
  have hform : m.form n = e.form := by rw [form, he]
  have hspan : m.span n = e.span := by rw [span, he]
  rw [m.tree_eq, hform, hspan]

end Module

/-- A tree gets the last number that it gives out. -/
theorem Tree.number_fst (t : Tree) (es : Array Entry) :
    (t.number es).1 + 1 = (t.number es).2.size := by
  cases t with
  | node span form =>
    show _ = ((numberForm form es).2.push _).size
    rw [Array.size_push]
    rfl

namespace Module

theorem root_ofTree (t : Tree) : (t.number #[]).1 = (ofTree t).root := by
  have hsize : (t.number #[]).1 + 1 = (ofTree t).size := t.number_fst #[]
  rw [root, ← hsize, Nat.add_sub_cancel]

theorem size_ofTree (t : Tree) : (ofTree t).root + 1 = (ofTree t).size := by
  rw [← root_ofTree]
  exact t.number_fst #[]

/-- The tree at the last node is the one that the module was made from. -/
theorem tree_root_ofTree (t : Tree) : (ofTree t).tree (ofTree t).root = t := by
  obtain ⟨added, -, -, hread⟩ := t.number_adopts [] #[]
  rw [← root_ofTree]
  exact hread _ (ofTree t).reads_tree

/-- The children of all nodes, one node after the other. -/
theorem flatMap_children (m : Module) :
    m.nodes.flatMap m.children = m.entries.toList.flatMap (·.form.children) := by
  rw [List.flatMap_def, List.flatMap_def]
  congr 1
  refine List.ext_getElem (by simp [nodes, size]) fun n hn hn' => ?_
  have hlt : n < m.entries.size := by simpa using hn'
  simp [nodes, children, form, hlt]

/-- Every node except for the last one is a child once. -/
theorem perm_children_ofTree (t : Tree) :
    ((ofTree t).nodes.flatMap (ofTree t).children).Perm (List.range (ofTree t).root) := by
  obtain ⟨added, htable, hperm, -⟩ := t.number_adopts [] #[]
  have hentries : (ofTree t).entries.toList = added := htable
  have hlength : added.length = (ofTree t).root + 1 := by
    rw [← hentries, Array.length_toList]
    exact (size_ofTree t).symm
  rw [flatMap_children, hentries]
  rw [root_ofTree, hlength, List.nil_append, Array.size_empty, ← List.range_eq_range',
    List.range_succ] at hperm
  exact (List.perm_append_right_iff _).1 hperm

/-! ### Parents -/

theorem lt_size_of_mem_children {m : Module} {p c : NodeId} (h : c ∈ m.children p) :
    p < m.size := by
  by_contra hp
  have hnone : m.entries[p]? = none := Array.getElem?_eq_none (Nat.le_of_not_lt hp)
  simp [children, form, hnone, Form.children] at h

theorem mem_children_of_parent? {m : Module} {n p : NodeId} (h : m.parent? n = some p) :
    n ∈ m.children p := by
  rw [parent?_eq_findIdx?, Array.findIdx?_eq_some_iff_getElem] at h
  obtain ⟨hp, hmem, -⟩ := h
  simpa [children, form, hp] using hmem

theorem exists_parent?_of_mem_children {m : Module} {n p : NodeId} (h : n ∈ m.children p) :
    ∃ q, m.parent? n = some q := by
  have hp := lt_size_of_mem_children h
  rw [← Option.isSome_iff_exists, parent?_eq_findIdx?, Array.findIdx?_isSome, Array.any_eq_true]
  refine ⟨p, hp, ?_⟩
  have hform : m.form p = (m.entries[p]).form := by
    rw [form, Array.getElem?_eq_getElem hp]
  rw [List.contains_iff_mem, ← hform]
  exact h

/-- The child index of a node is its position among its parent's children. -/
theorem getElem?_childIndex? {m : Module} {n p : NodeId} (h : m.parent? n = some p) :
    ∃ i, m.childIndex? n = some i ∧ (m.children p)[i]? = some n := by
  have hmem := mem_children_of_parent? h
  obtain ⟨i, hi⟩ : ∃ i, (m.children p).findIdx? (· == n) = some i := by
    rw [← Option.isSome_iff_exists, List.findIdx?_isSome, List.any_eq_true]
    exact ⟨n, hmem, beq_self_eq_true n⟩
  refine ⟨i, by rw [childIndex?, h, Option.bind_some, hi], ?_⟩
  obtain ⟨hlt, heq, -⟩ := List.findIdx?_eq_some_iff_getElem.1 hi
  rw [List.getElem?_eq_getElem hlt, beq_iff_eq.1 heq]

section Tree

variable {m : Module} (h : (m.nodes.flatMap m.children).Perm (List.range m.root))

include h

theorem exists_mem_children_iff {n : NodeId} : (∃ p, n ∈ m.children p) ↔ n < m.root := by
  rw [← List.mem_range, ← h.mem_iff, List.mem_flatMap]
  constructor
  · rintro ⟨p, hp⟩
    exact ⟨p, List.mem_range.2 (lt_size_of_mem_children hp), hp⟩
  · rintro ⟨p, -, hp⟩
    exact ⟨p, hp⟩

/-- No node is a child of two nodes. -/
theorem eq_of_mem_children {n p q : NodeId} (hp : n ∈ m.children p) (hq : n ∈ m.children q) :
    p = q := by
  obtain ⟨-, hdisjoint⟩ := List.nodup_flatMap.1 (h.nodup_iff.2 List.nodup_range)
  have : Std.Symm (Function.onFun List.Disjoint m.children) := ⟨fun _ _ => List.Disjoint.symm⟩
  by_contra hne
  exact hdisjoint.forall (List.mem_range.2 (lt_size_of_mem_children hp))
    (List.mem_range.2 (lt_size_of_mem_children hq)) hne hp hq

theorem parent?_eq_some_iff {n p : NodeId} : m.parent? n = some p ↔ n ∈ m.children p := by
  refine ⟨mem_children_of_parent?, fun hp => ?_⟩
  obtain ⟨q, hq⟩ := exists_parent?_of_mem_children hp
  rw [hq, eq_of_mem_children h hp (mem_children_of_parent? hq)]

/-- All nodes are below the last one. The induction is on the distance to it: a node is a child of
a larger one. -/
theorem below_root {n : Nat} (hn : n < m.root) : m.Below n m.root := by
  induction hk : m.root - n using Nat.strong_induction_on generalizing n with
  | _ k ih =>
    obtain ⟨p, hp⟩ := (exists_mem_children_iff h).2 hn
    have hlt : n < p := m.lt_of_mem_children hp
    have hle : p ≤ m.root := Nat.le_sub_one_of_lt (lt_size_of_mem_children hp)
    rcases Nat.lt_or_eq_of_le hle with hroot | rfl
    · have hcloser : m.root - p < k := hk ▸ Nat.sub_lt_sub_left hn hlt
      exact (Below.child hp).trans (ih _ hcloser hroot rfl)
    · exact .child hp

end Tree

/-! ### Constructs at their places -/

/-- What is below a node with a well-formed tree has well-formed trees. -/
theorem Below.formed {m : Module} {n v : NodeId} (h : m.Below v n) (hn : (m.tree n).Formed) :
    (m.tree v).Formed := by
  have hchild {c n : NodeId} (hc : c ∈ m.children n) (hn : (m.tree n).Formed) :
      (m.tree c).Formed := by
    rw [tree_eq] at hn
    cases hn with
    | node formed _ _ _ =>
      exact formed _ (Form.children_map m.tree (m.form n) ▸ List.mem_map_of_mem hc)
  induction h with
  | child hc => exact hchild hc hn
  | deeper _ hc ih => exact ih (hchild hc hn)

/-- The children of a node with a well-formed tree are what their places ask for. -/
theorem admits_of_formed {m : Module} {n : NodeId} (h : (m.tree n).Formed) :
    ∀ p ∈ (m.form n).parts, p.1.admits (m.form p.2) = true := by
  intro p hp
  rw [tree_eq] at h
  cases h with
  | node _ placed _ _ =>
    rw [Form.parts_map] at placed
    have hplace := placed _ (List.mem_map_of_mem hp)
    rw [tree_eq] at hplace
    exact (Form.admits_map m.tree (m.form p.2) p.1).symm.trans hplace

theorem formed_of_ofText {cs : List Char} {m : Module} (h : ofText cs = .ok m) :
    ∃ t, parse cs = .ok t ∧
      m = ofTree (t.document (DocComments.blockAt? (DocComments.scan cs)) {}) ∧
      (m.tree m.root).Formed := by
  unfold ofText at h
  split at h
  · cases h
  · rename_i t hparse
    cases h
    refine ⟨t, hparse, rfl, ?_⟩
    rw [tree_root_ofTree]
    exact ((formed_of_parse hparse).documents {}).formed

/-- What a text's module is found to have. -/
theorem exists_ofText (text : String) (P : Module → Prop) [DecidablePred P]
    (h : (ofText text.toList).toOption.any (fun m => decide (P m)) = true) :
    ∃ m, ofText text.toList = .ok m ∧ P m := by
  cases hm : ofText text.toList with
  | error e =>
    rw [hm] at h
    cases h
  | ok m =>
    rw [hm] at h
    exact ⟨m, rfl, of_decide_eq_true h⟩

end Module

end ScriptTypes.Script
