import ScriptTypes.Script.Numbering

/-!
# The parents of nodes

A table of constructs says which nodes are the children of a node. Read the other way it says which
node is the parent of a node; one pass over the constructs writes this down for all nodes at once.

Main statement: `getElem?_parentsOf`. The table of parents answers for each node what a search
through the constructs would find, the first construct that has the node as a child.
-/

namespace ScriptTypes.Script

/-- Enter `p` as the parent of each of the given nodes, unless they have one. -/
def adopt (p : NodeId) (children : List NodeId) (table : Array (Option NodeId)) :
    Array (Option NodeId) :=
  children.foldl (fun t c => t.modify c fun old => old.or (some p)) table

/-- Enter the parents among constructs that are numbered from `p` on. -/
def adoptAll : (p : NodeId) → List Entry → Array (Option NodeId) → Array (Option NodeId)
  | _, [], table => table
  | p, e :: es, table => adoptAll (p + 1) es (adopt p e.form.children table)

/-- The parent of each node. -/
def parentsOf (entries : Array Entry) : Array (Option NodeId) :=
  adoptAll 0 entries.toList (.replicate entries.size none)

@[simp] theorem size_adopt (p : NodeId) (children : List NodeId) (table : Array (Option NodeId)) :
    (adopt p children table).size = table.size := by
  induction children generalizing table with
  | nil => rfl
  | cons c cs ih => simpa [adopt] using ih (table.modify c _)

theorem getElem?_adopt (p n : NodeId) (children : List NodeId) (table : Array (Option NodeId)) :
    (adopt p children table)[n]? =
      table[n]?.map fun old => if children.contains n then old.or (some p) else old := by
  induction children generalizing table with
  | nil => simp [adopt]
  | cons c cs ih =>
    have step : adopt p (c :: cs) table
        = adopt p cs (table.modify c fun old => old.or (some p)) := rfl
    rw [step, ih, Array.getElem?_modify]
    cases h : table[n]? with
    | none => simp
    | some old =>
      by_cases hc : c = n
      · cases old <;> simp [hc]
      · cases old <;> simp [hc, Ne.symm hc]

theorem getElem?_adoptAll (p n : NodeId) (es : List Entry) (table : Array (Option NodeId)) :
    (adoptAll p es table)[n]? = table[n]?.map fun old =>
      old.or ((es.findIdx? fun e => e.form.children.contains n).map (· + p)) := by
  induction es generalizing p table with
  | nil => simp [adoptAll]
  | cons e es ih =>
    rw [adoptAll, ih, getElem?_adopt, List.findIdx?_cons]
    cases table[n]? with
    | none => simp
    | some old =>
      by_cases h : e.form.children.contains n
      · cases old <;> simp [List.contains_iff_mem.1 h]
      · have hn := mt List.contains_iff_mem.2 h
        cases old <;> simp [hn, Function.comp_def, Nat.add_right_comm, Nat.add_assoc]

/-- The parent of a node is the first construct that has it as a child. -/
theorem getElem?_parentsOf {entries : Array Entry} {n : NodeId} (h : n < entries.size) :
    (parentsOf entries)[n]? = some (entries.findIdx? fun e => e.form.children.contains n) := by
  simp [parentsOf, getElem?_adoptAll, h, ← List.findIdx?_toArray]

end ScriptTypes.Script
