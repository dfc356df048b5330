import ScriptTypes.Script.DocComments
import ScriptTypes.Script.Documented
import ScriptTypes.Script.Grammar
import ScriptTypes.Script.Parents

/-!
# Modules: scripts as tables of nodes

A module is a script whose constructs are numbered, so that other tables can refer to them. Every
child has a smaller number than its parent, which is what recursion over a module descends on, and
the program has the largest number.
-/

namespace ScriptTypes.Script

structure Module where
  entries : Array Entry
  /-- Children stand before their parents. -/
  ordered : Ordered entries
  /-- The parent of each node. -/
  parents : Array (Option NodeId) := parentsOf entries
  parents_eq : parents = parentsOf entries := by rfl

namespace Module

/-- The table of the constructs of a tree. -/
def ofTree (t : Tree) : Module where
  entries := (t.number #[]).2
  ordered := (t.number_sound 0 #[] (Nat.zero_le _) (by simp [Ordered])).1

/-- The module of a text, with its documentation attached. -/
def ofText (cs : List Char) : Except ParseError Module :=
  match parse cs with
  | .error e => .error e
  | .ok t => .ok (ofTree (t.document (DocComments.blockAt? (DocComments.scan cs)) {}))

/-- The module of a source. -/
def ofSource (source : String) : Except ParseError Module := ofText source.toList

variable (m : Module)

def size : Nat := m.entries.size

/-- The node of the whole program. -/
def root : NodeId := m.size - 1

/-- The construct at a node. A number beyond the table stands for the empty statement. -/
def form (n : NodeId) : Form NodeId :=
  match m.entries[n]? with
  | some e => e.form
  | none => .empty

/-- The span of a node. -/
def span (n : NodeId) : Span :=
  match m.entries[n]? with
  | some e => e.span
  | none => ⟨0, 0⟩

/-- The span of a node as it is stored, which is what everything that asks for offsets reads. -/
def range (n : NodeId) : Span := (m.span n).stored

def children (n : NodeId) : List NodeId := (m.form n).children

/-- A child has a smaller number than its parent. -/
theorem lt_of_mem_children {c n : Nat} (h : c ∈ m.children n) : c < n := by
  unfold children form at h
  split at h
  · rename_i e he
    exact m.ordered n e he c h
  · simp [Form.children] at h

/-- The same for the children of a construct that is known to stand at a node. -/
theorem lt_of_form_eq {c n : Nat} {f : Form NodeId} (h : m.form n = f) (hc : c ∈ f.children) :
    c < n :=
  m.lt_of_mem_children (by unfold children; rwa [h])

/-- The nodes below a node: its children, and the nodes below these. -/
inductive Below : NodeId → NodeId → Prop
  | child {c n : NodeId} (h : c ∈ m.children n) : Below c n
  | deeper {v c n : NodeId} (hv : Below v c) (h : c ∈ m.children n) : Below v n

variable {m} in
theorem Below.lt {v n : Nat} (h : m.Below v n) : v < n := by
  induction h with
  | child h => exact m.lt_of_mem_children h
  | deeper _ h ih => exact Nat.lt_trans ih (m.lt_of_mem_children h)

variable {m} in
theorem Below.trans {u v n : NodeId} (hu : m.Below u v) (hv : m.Below v n) : m.Below u n := by
  induction hv with
  | child h => exact .deeper hu h
  | deeper _ h ih => exact .deeper ih h

/-- The children of a construct that is known to stand at a node are below it. -/
theorem below_of_form_eq {c n : NodeId} {f : Form NodeId} (h : m.form n = f)
    (hc : c ∈ f.children) : m.Below c n :=
  .child (by unfold children; rwa [h])

/-- The node that has `n` as a child. -/
def parent? (n : NodeId) : Option NodeId := m.parents[n]?.join

/-- The parent of a node is the first construct that has it as a child. -/
theorem parent?_eq_findIdx? (n : Nat) :
    m.parent? n = m.entries.findIdx? fun e => e.form.children.contains n := by
  unfold parent?
  rw [m.parents_eq]
  by_cases h : n < m.entries.size
  · simp [getElem?_parentsOf h]
  · have hnone : (parentsOf m.entries)[n]? = none := by
      simp [parentsOf, getElem?_adoptAll, Nat.not_lt.1 h]
    rw [hnone, Option.join_none, eq_comm, Array.findIdx?_eq_none_iff]
    intro e he
    obtain ⟨p, hp, rfl⟩ := Array.mem_iff_getElem.1 he
    have hlt (hc : n ∈ (m.entries[p]).form.children) : n < p :=
      m.ordered p _ (Array.getElem?_eq_getElem hp) n hc
    simpa using fun hc => absurd (Nat.lt_trans (hlt hc) hp) h

/-- The position of a node among its parent's children. -/
def childIndex? (n : NodeId) : Option Nat :=
  (m.parent? n).bind fun p => (m.children p).findIdx? (· == n)

/-- The documentation of a function or declaration. -/
def docs? (n : NodeId) : Option Doc.Block :=
  match m.form n with
  | .function _ docs _ _ => docs
  | .declaration _ docs _ => docs
  | _ => none

/-- All nodes in order. -/
def nodes : List NodeId := List.range m.size

/-- A node with all that is below it, in the order of the text. -/
def preorder (n : NodeId) : List NodeId :=
  n :: (m.children n).attach.flatMap fun c => preorder c.1
termination_by n
decreasing_by exact m.lt_of_mem_children c.2

theorem preorder_eq (n : NodeId) : m.preorder n = n :: (m.children n).flatMap m.preorder := by
  rw [preorder, List.flatMap_subtype (g := m.preorder) fun c hc => rfl, List.unattach_attach]

/-- The `return` statements that are met by a search which takes nodes off a stack, the top first.
It puts the children of a node on the stack one after the other, so the last child is on top, and
does not look into `return` statements and functions. -/
def popReturns : (stack : List NodeId) → List NodeId
  | [] => []
  | n :: stack =>
    match _h : m.form n with
    | .returns _ => n :: popReturns stack
    | .function .. => popReturns stack
    | f => popReturns (f.children.reverse ++ stack)
termination_by stack => (stack.flatMap m.preorder).length
decreasing_by
  all_goals
    rw [List.flatMap_cons, List.length_append, preorder_eq, List.length_cons]
  · omega
  · omega
  · have hchildren : m.children n = f.children := by rw [children, _h]
    have hreverse := (f.children.reverse_perm.flatMap_right m.preorder).length_eq
    rw [List.flatMap_append, List.length_append, hreverse, hchildren]
    omega

/-- A function's own `return` statements, by where they start. -/
def returnNodes (function : NodeId) : List NodeId :=
  match m.form function with
  | .function _ _ _ body =>
    (m.popReturns [body]).mergeSort fun a b => (m.range a).start ≤ (m.range b).start
  | _ => []

/-- Is `a` a better answer than `b` to which node is innermost: shorter, or as long and deeper? -/
def innermore (a b : NodeId) : Bool :=
  (m.range a).size < (m.range b).size || ((m.range a).size == (m.range b).size && a ≤ b)

/-- The innermost node whose span covers an offset. -/
def nodeAt? (offset : Nat) : Option NodeId :=
  (m.nodes.filter fun n => (m.range n).contains offset).foldl
    (fun best n => match best with
      | none => some n
      | some b => if m.innermore b n then some b else some n)
    none

end Module

end ScriptTypes.Script
