import ScriptTypes.Proofs.Doc.Segments
import ScriptTypes.Proofs.Script.Handed

/-!
# Where documentation is attached

The anchors of a declaration or function are the constructs in front of which its comment may stand,
in the order in which they are asked. The first anchor that has a comment decides. Anchors that
start at one offset stand for the same construct, so a comment documents at most one declaration and
at most one function, which is then the value of the declaration.

Main statement: `documentation_is_attached_exactly`.
-/

namespace ScriptTypes.Script.Module

section Kinds

variable {m : Module}

def isDeclaration (m : Module) (n : NodeId) : Bool :=
  match m.form n with
  | .declaration .. => true
  | _ => false

/-- Is a node an expression statement? -/
def isStatement (m : Module) (n : NodeId) : Bool :=
  match m.form n with
  | .statement _ => true
  | _ => false

theorem isDeclaration_iff {n : NodeId} :
    m.isDeclaration n = true ↔ ∃ name docs value, m.form n = .declaration name docs value := by
  rw [isDeclaration]
  cases m.form n <;> simp

theorem lt_size_of_isFunction {n : NodeId} (h : m.isFunction n = true) : n < m.size := by
  by_contra hsize
  have hnone : m.entries[n]? = none := Array.getElem?_eq_none (Nat.le_of_not_lt hsize)
  simp [isFunction, form, hnone] at h

theorem isStatement_iff {n : NodeId} : m.isStatement n = true ↔ ∃ e, m.form n = .statement e := by
  rw [isStatement]
  cases m.form n <;> simp

theorem below_iff {v n : NodeId} : m.Below v n ↔ v ≠ n ∧ v ∈ m.preorder n := by
  rw [mem_preorder_iff]
  constructor
  · intro h
    exact ⟨Nat.ne_of_lt h.lt, .inr h⟩
  · rintro ⟨hne, heq | h⟩
    · exact absurd heq hne
    · exact h

instance (n : NodeId) : Decidable (m.OpensStatement n) :=
  decidable_of_iff (∃ s ∈ m.nodes, m.isStatement s = true ∧ (n ≠ s ∧ n ∈ m.preorder s) ∧
      (m.span s).start = (m.span n).start) <| by
    constructor
    · rintro ⟨s, -, hs, hbelow, hstart⟩
      obtain ⟨e, he⟩ := isStatement_iff.1 hs
      exact ⟨s, e, he, below_iff.2 hbelow, hstart⟩
    · rintro ⟨s, e, he, hbelow, hstart⟩
      exact ⟨s, List.mem_range.2 hbelow.lt_size, isStatement_iff.2 ⟨e, he⟩, below_iff.1 hbelow,
        hstart⟩

end Kinds

section Anchors

variable (m : Module)

/-- Where a list of declarations stands. -/
def position (list : NodeId) : Position :=
  match (m.parent? list).map m.form with
  | some (.forLoop (some init) _ _ _) => if init = list then .loopHead else .statement
  | some (.forIn binding _ _) => if binding = list then .keyHead else .statement
  | _ => .statement

/-- The anchors of a declaration. The first declaration of a statement asks the statement before
itself, and nothing is documented in the head of a loop over keys. -/
def declarationAnchors (d : NodeId) : List NodeId :=
  match m.parent? d with
  | none => []
  | some list =>
    match m.position list with
    | .statement => if m.childIndex? d = some 0 then [list, d] else [d]
    | .loopHead => [d]
    | .keyHead => []

/-- The statement that an expression is. -/
def statementOf (e : NodeId) : List NodeId :=
  match m.parent? e with
  | none => []
  | some s => if m.isStatement s then [s] else []

/-- What a function that is a value asks after itself: the declaration or the pair that it is the
value of, or the statement that assigns it. -/
def valueAnchors (f : NodeId) : List NodeId :=
  match m.parent? f with
  | none => []
  | some p =>
    match m.form p with
    | .declaration .. => m.declarationAnchors p
    | .pair .. => [p]
    | .assign .. => if m.childIndex? f = some 1 then m.statementOf p else []
    | _ => []

/-- The anchors of a node. A function at the start of its statement does not ask itself. -/
def anchors (n : NodeId) : List NodeId :=
  match m.form n with
  | .declaration .. => m.declarationAnchors n
  | .function .. => (if m.OpensStatement n then [] else [n]) ++ m.valueAnchors n
  | _ => []

/-- The comment that documents a node. -/
def comment? (comments : List DocComment) (n : NodeId) : Option DocComment :=
  (m.anchors n).findSome? fun a => DocComments.at? comments (m.span a).start

end Anchors

variable {m : Module}

/-! ### Places -/

section Form

variable {α : Type} {f : Form α} {c : α}

theorem eq_var_of_mem_parts (h : (Place.declaration, c) ∈ f.parts) : ∃ items, f = .var items := by
  cases f <;> simp [Form.parts] at h ⊢

theorem eq_forLoop_of_mem_parts (h : (Place.loopHead, c) ∈ f.parts) :
    ∃ test step body, f = .forLoop (some c) test step body := by
  cases f <;> simp [Form.parts] at h ⊢
  exact h

theorem eq_forIn_of_mem_parts (h : (Place.keyHead, c) ∈ f.parts) :
    ∃ target body, f = .forIn c target body := by
  cases f <;> simp [Form.parts] at h ⊢
  exact h.symm

theorem position_toPart {blockAt : Nat → Option Doc.Block} {place : Place}
    (h : (place, c) ∈ f.parts) (hplace : place ≠ .declaration) (hand : Handover) (start i : Nat) :
    (hand.toPart blockAt start f i place).ctx.position = place.position := by
  cases f with
  | var items =>
    obtain ⟨_, _, heq⟩ := List.mem_map.1 h
    exact absurd (Prod.mk.inj heq).1.symm hplace
  | declaration =>
    obtain ⟨_, _, heq⟩ := List.mem_map.1 h
    cases heq
    rfl
  | pair | statement =>
    cases List.mem_singleton.1 h
    rfl
  | assign =>
    obtain heq | hmem := List.mem_cons.1 h
    · cases heq
      rfl
    · cases List.mem_singleton.1 hmem
      rfl
  | _ => rfl

end Form

namespace WellFormed

variable (h : m.WellFormed)
include h

theorem parent?_of_part {n c : NodeId} {i : Nat} {place : Place}
    (hc : (m.form n).parts[i]? = some (place, c)) : m.parent? c = some n := by
  rw [parent?_eq_some_iff h.children, Module.children, ← Form.map_snd_parts]
  exact List.mem_map_of_mem (List.mem_of_getElem? hc)

theorem childIndex?_of_part {n c : NodeId} {i : Nat} {place : Place}
    (hc : (m.form n).parts[i]? = some (place, c)) : m.childIndex? c = some i := by
  obtain ⟨j, hj, hchild⟩ := getElem?_childIndex? (h.parent?_of_part hc)
  have hindex : (m.children n)[i]? = some c := by
    rw [Module.children, ← Form.map_snd_parts, List.getElem?_map, hc, Option.map_some]
  have hlt : j < (m.children n).length := (List.getElem?_eq_some_iff.1 hchild).1
  rw [hj, (List.getElem?_inj hlt (h.nodup_children n)).1 (hchild.trans hindex.symm)]

/-- A node has one place in its parent. -/
theorem eq_of_part {n c : NodeId} {i j : Nat} {place place' : Place}
    (hc : (m.form n).parts[i]? = some (place, c)) (hc' : (m.form n).parts[j]? = some (place', c)) :
    place = place' := by
  have hij := (h.childIndex?_of_part hc).symm.trans (h.childIndex?_of_part hc')
  cases hij
  cases hc.symm.trans hc'
  rfl

theorem position_of_part {n c : NodeId} {i : Nat} {place : Place}
    (hc : (m.form n).parts[i]? = some (place, c)) : m.position c = place.position := by
  have hmem := List.mem_of_getElem? hc
  have hloop {test step : Option NodeId} {body : NodeId}
      (hform : m.form n = .forLoop (some c) test step body) : place = .loopHead := by
    have hinit : (m.form n).parts[0]? = some (.loopHead, c) := by rw [hform]; rfl
    exact h.eq_of_part hc hinit
  have hkey {target body : NodeId} (hform : m.form n = .forIn c target body) :
      place = .keyHead := by
    have hbinding : (m.form n).parts[0]? = some (.keyHead, c) := by rw [hform]; rfl
    exact h.eq_of_part hc hbinding
  rw [position, h.parent?_of_part hc, Option.map_some]
  cases place with
  | loopHead =>
    obtain ⟨_, _, _, hform⟩ := eq_forLoop_of_mem_parts hmem
    simp only [hform, if_true]
    rfl
  | keyHead =>
    obtain ⟨_, _, hform⟩ := eq_forIn_of_mem_parts hmem
    simp only [hform, if_true]
    rfl
  | _ =>
    split
    · rename_i hform
      rw [if_neg (by rintro rfl; cases hloop (Option.some.inj hform))]
      rfl
    · rename_i hform
      rw [if_neg (by rintro rfl; cases hkey (Option.some.inj hform))]
      rfl
    · rfl

/-- Declarations are children of lists of declarations. -/
theorem eq_var_of_declaration {n c : NodeId} {i : Nat} {place : Place}
    (hc : (m.form n).parts[i]? = some (place, c)) (hform : m.isDeclaration c = true) :
    place = .declaration ∧ ∃ items, m.form n = .var items := by
  obtain ⟨name, docs, value, hform⟩ := isDeclaration_iff.1 hform
  have hmem := List.mem_of_getElem? hc
  have hsize : n < m.size := (lt_of_parent? (h.parent?_of_part hc)).2
  have hplace := h.admits hsize _ hmem
  rw [hform] at hplace
  cases place with
  | declaration => exact ⟨rfl, eq_var_of_mem_parts hmem⟩
  | _ => cases hplace

theorem eq_var_of_first {d v : NodeId} (hd : m.isDeclaration d = true) (hv : m.parent? d = some v)
    (hindex : m.childIndex? d = some 0) : ∃ ds, m.form v = .var (d :: ds) := by
  obtain ⟨i, place, hpart⟩ := exists_part (mem_children_of_parent? hv)
  obtain ⟨-, items, hvar⟩ := h.eq_var_of_declaration hpart hd
  obtain ⟨j, hj, hchild⟩ := getElem?_childIndex? hv
  cases hindex.symm.trans hj
  rw [Module.children, hvar, Form.children] at hchild
  cases items with
  | nil => cases hchild
  | cons d' ds =>
    cases hchild
    exact ⟨ds, hvar⟩

/-- A list of declarations is no declaration. -/
theorem ne_declaration_of_var {n c : NodeId} {i : Nat} {place : Place} {items : List NodeId}
    (hc : (m.form n).parts[i]? = some (place, c)) (hform : m.form c = .var items) :
    place ≠ .declaration := by
  rintro rfl
  have hsize : n < m.size := (lt_of_parent? (h.parent?_of_part hc)).2
  have hplace := h.admits hsize _ (List.mem_of_getElem? hc)
  rw [hform] at hplace
  cases hplace

end WellFormed

/-! ### The first anchor decides -/

theorem findSome?_cons_eq_or {α β : Type} (f : α → Option β) (a : α) (as : List α) :
    (a :: as).findSome? f = (f a).or (as.findSome? f) := by
  cases h : f a <;> simp [h]

section Handover

variable {blockAt : Nat → Option Doc.Block}

theorem value_toPart {p : NodeId} (h : Handover) (i : Nat) (place : Place) :
    (h.toPart blockAt (m.span p).start (m.form p) i place).value
      = match m.form p with
        | .declaration .. => h.declared blockAt (m.span p).start
        | .pair .. => blockAt (m.span p).start
        | .assign .. => if i = 1 then h.assigned else none
        | _ => none := by
  cases m.form p <;> rfl

theorem assigned_toPart {s : NodeId} (h : Handover) (i : Nat) (place : Place) :
    (h.toPart blockAt (m.span s).start (m.form s) i place).assigned
      = if m.isStatement s then blockAt (m.span s).start else none := by
  rw [isStatement]
  cases m.form s <;> rfl

end Handover

namespace Documented

variable {blockAt : Nat → Option Doc.Block} (hm : m.Documented blockAt)
include hm

theorem exists_parent {n : NodeId} (hn : n < m.size) (hform : ∀ items, m.form n ≠ .program items) :
    ∃ (p : NodeId) (i : Nat) (place : Place),
      p < m.size ∧ (m.form p).parts[i]? = some (place, n) := by
  rcases hm.wellFormed.under_root hn with rfl | hbelow
  · obtain ⟨items, hprogram⟩ := hm.program
    exact absurd hprogram (hform items)
  · obtain ⟨p, hp⟩ := hbelow.exists_parent
    obtain ⟨i, place, hpart⟩ := exists_part hp
    exact ⟨p, i, place, Module.lt_size_of_mem_children hp, hpart⟩

/-- A list of declarations is told where it stands. -/
theorem exists_receives_list {v : NodeId} (hsize : v < m.size) {items : List NodeId}
    (hform : m.form v = .var items) :
    ∃ h, Receives blockAt m v h ∧ h.ctx.position = m.position v := by
  obtain ⟨p, j, place, hpsize, hpart⟩ := hm.exists_parent hsize (by simp [hform])
  obtain ⟨h, hp⟩ := hm.exists_receives hpsize
  have hplace := hm.wellFormed.ne_declaration_of_var hpart hform
  refine ⟨_, hm.receives_part hp hpart, ?_⟩
  rw [position_toPart (List.mem_of_getElem? hpart) hplace, hm.wellFormed.position_of_part hpart]

/-- A declaration has the block of its first anchor with one. -/
theorem docs_of_declaration {d : NodeId} (hsize : d < m.size) (hd : m.isDeclaration d = true) :
    m.docs? d = (m.declarationAnchors d).findSome? fun a => blockAt (m.span a).start := by
  obtain ⟨name, docs, value, hform⟩ := isDeclaration_iff.1 hd
  obtain ⟨v, i, place, hvsize, hpart⟩ := hm.exists_parent hsize (by simp [hform])
  obtain ⟨rfl, items, hvar⟩ := hm.wellFormed.eq_var_of_declaration hpart hd
  obtain ⟨h, hv, hposition⟩ := hm.exists_receives_list hvsize hvar
  have hd := hm.receives_part hv hpart
  rw [hd.handed.docs_declaration hform, declarationAnchors, hm.wellFormed.parent?_of_part hpart,
    hvar]
  simp only [Handover.declared, Handover.toPart, hposition, hm.wellFormed.childIndex?_of_part hpart,
    Option.some.injEq]
  by_cases hi : i = 0
  · cases m.position v <;> simp [hi, findSome?_cons_eq_or]
  · cases m.position v <;> simp [hi, findSome?_cons_eq_or]

/-- What a function gets from the construct that it is the value of. -/
theorem exists_receives_function {f : NodeId} (hsize : f < m.size) (hf : m.isFunction f = true) :
    ∃ h, Receives blockAt m f h ∧
      h.value = (m.valueAnchors f).findSome? fun a => blockAt (m.span a).start := by
  obtain ⟨name, docs, params, body, hform⟩ := isFunction_iff.1 hf
  obtain ⟨p, i, place, hpsize, hpart⟩ := hm.exists_parent hsize (by simp [hform])
  have hparent := hm.wellFormed.parent?_of_part hpart
  have hindex := hm.wellFormed.childIndex?_of_part hpart
  by_cases hassign : ∃ op lhs rhs, m.form p = .assign op lhs rhs
  · obtain ⟨op, lhs, rhs, hassign⟩ := hassign
    obtain ⟨s, j, place', hssize, hppart⟩ := hm.exists_parent hpsize (by simp [hassign])
    obtain ⟨h, hs⟩ := hm.exists_receives hssize
    refine ⟨_, hm.receives_part (hm.receives_part hs hppart) hpart, ?_⟩
    rw [value_toPart, assigned_toPart, valueAnchors, hparent]
    simp only [hassign, hindex, statementOf, hm.wellFormed.parent?_of_part hppart,
      Option.some.injEq]
    by_cases hi : i = 1
    · cases m.isStatement s <;> simp [hi, findSome?_cons_eq_or]
    · simp [hi]
  · obtain ⟨h, hp⟩ := hm.exists_receives hpsize
    refine ⟨_, hm.receives_part hp hpart, ?_⟩
    rw [value_toPart, valueAnchors, hparent]
    dsimp only
    cases hpform : m.form p with
    | declaration name docs value =>
      rw [← hp.handed.docs_declaration hpform]
      exact hm.docs_of_declaration hpsize (isDeclaration_iff.2 ⟨_, _, _, hpform⟩)
    | pair => simp [findSome?_cons_eq_or]
    | assign op lhs rhs => exact absurd ⟨op, lhs, rhs, hpform⟩ hassign
    | _ => rfl

/-- A function has the block of its first anchor with one. -/
theorem docs_of_function {f : NodeId} (hsize : f < m.size) (hf : m.isFunction f = true) :
    m.docs? f = (m.anchors f).findSome? fun a => blockAt (m.span a).start := by
  obtain ⟨name, docs, params, body, hform⟩ := isFunction_iff.1 hf
  obtain ⟨h, hreceives, hvalue⟩ := hm.exists_receives_function hsize hf
  have hopens := hreceives.claimed.eq_some_start_iff hm.wellFormed
  rw [hreceives.handed.docs_function hform, Handover.own, hvalue, anchors, hform]
  by_cases hclaimed : m.OpensStatement f
  · simp [hopens, hclaimed]
  · simp [hopens, hclaimed, findSome?_cons_eq_or]

/-- The first anchor with a block decides on the documentation of a node. -/
theorem docs?_eq (n : NodeId) :
    m.docs? n = (m.anchors n).findSome? fun a => blockAt (m.span a).start := by
  by_cases hsize : n < m.size
  · cases hform : m.form n with
    | declaration =>
      rw [anchors, hform]
      exact hm.docs_of_declaration hsize (isDeclaration_iff.2 ⟨_, _, _, hform⟩)
    | function => exact hm.docs_of_function hsize (isFunction_iff.2 ⟨_, _, _, _, hform⟩)
    | _ => rw [docs?, anchors, hform, List.findSome?_nil]
  · have hnone : m.entries[n]? = none := Array.getElem?_eq_none (Nat.le_of_not_lt hsize)
    rw [docs?, anchors, form, hnone, List.findSome?_nil]

end Documented

/-! ### Anchors that start at one offset -/

/-- What an anchor stands for: a list of declarations stands for the first of them. -/
def subject (m : Module) (a : NodeId) : NodeId :=
  match m.form a with
  | .var (d :: _) => d
  | _ => a

/-- The function that is documented together with a construct. -/
def holds? (m : Module) (n : NodeId) : Option NodeId :=
  match m.form n with
  | .function .. => some n
  | .declaration _ _ value => value
  | .pair _ value => some value
  | .statement e =>
    match m.form e with
    | .assign _ _ rhs => some rhs
    | _ => none
  | _ => none

/-- The constructs that can be anchors. -/
inductive Anchor (m : Module) (a : NodeId) : Prop
  | list {d : NodeId} {ds : List NodeId} (h : m.form a = .var (d :: ds))
  | statement (h : m.isStatement a = true)
  | declaration (h : m.isDeclaration a = true)
  | pair {key : String} {value : NodeId} (h : m.form a = .pair key value)
  | function (h : m.isFunction a = true) (hopens : ¬m.OpensStatement a)

/-- A list of declarations or an expression as a statement, with no text of its own in front. -/
def isBare (m : Module) (n : NodeId) : Bool :=
  match m.form n with
  | .var _ | .statement _ => true
  | _ => false

theorem isBare_iff {n : NodeId} :
    m.isBare n = true ↔ (∃ items, m.form n = .var items) ∨ ∃ e, m.form n = .statement e := by
  rw [isBare]
  cases m.form n <;> simp

theorem lead_of_mem_parts {α : Type} {f : Form α} {c : α} {place : Place} (h : (place, c) ∈ f.parts)
    (hplace : place = .statement ∨ place = .loopHead ∨ place = .keyHead) :
    f.lead = 1 ∨ ∃ items, f = .program items := by
  obtain rfl | rfl | rfl := hplace
  all_goals
    cases f <;> simp [Form.parts, Form.lead] at h ⊢

theorem eq_object_of_mem_parts {α : Type} {f : Form α} {c : α} (h : (Place.pair, c) ∈ f.parts) :
    ∃ items, f = .object items := by
  cases f <;> simp [Form.parts] at h ⊢

namespace WellFormed

variable (h : m.WellFormed)
include h

/-- Around a bare construct stands the program or a construct that begins with text of its own. -/
theorem lead_of_part {n c : NodeId} {i : Nat} {place : Place}
    (hc : (m.form n).parts[i]? = some (place, c)) (hbare : m.isBare c = true) :
    (m.form n).lead = 1 ∨ ∃ items, m.form n = .program items := by
  have hmem := List.mem_of_getElem? hc
  have hsize : n < m.size := (lt_of_parent? (h.parent?_of_part hc)).2
  have hadmits : place.admits (m.form c) = true := h.admits hsize _ hmem
  refine lead_of_mem_parts hmem ?_
  cases place with
  | statement => exact .inl rfl
  | loopHead => exact .inr (.inl rfl)
  | keyHead => exact .inr (.inr rfl)
  | _ =>
    rcases isBare_iff.1 hbare with ⟨_, hform⟩ | ⟨_, hform⟩
    all_goals
      rw [hform] at hadmits
      cases hadmits

theorem isDeclaration_of_var {n c : NodeId} {items : List NodeId} (hform : m.form n = .var items)
    (hc : c ∈ m.children n) : m.isDeclaration c = true := by
  have hadmits := h.admits (Module.lt_size_of_mem_children hc) (.declaration, c)
  rw [Module.children, hform] at hc
  rw [hform] at hadmits
  have hplace := hadmits (List.mem_map_of_mem hc)
  rw [isDeclaration]
  cases hdeclaration : m.form c with
  | declaration => rfl
  | _ =>
    rw [hdeclaration] at hplace
    cases hplace

/-- Pairs are children of object literals. -/
theorem eq_object_of_pair {n c : NodeId} {key : String} {value : NodeId} (hc : c ∈ m.children n)
    (hform : m.form c = .pair key value) : ∃ items, m.form n = .object items := by
  obtain ⟨i, place, hpart⟩ := exists_part hc
  have hmem := List.mem_of_getElem? hpart
  have hadmits : place.admits (m.form c) = true :=
    h.admits (Module.lt_size_of_mem_children hc) _ hmem
  rw [hform] at hadmits
  cases place with
  | pair => exact eq_object_of_mem_parts hmem
  | _ => cases hadmits

/-- Nothing is above the program. -/
theorem not_below_of_program {n v : NodeId} {items : List NodeId}
    (hform : m.form n = .program items) : ¬m.Below n v := by
  intro hbelow
  obtain ⟨p, hp⟩ := hbelow.exists_parent
  obtain ⟨i, place, hpart⟩ := exists_part hp
  have hadmits : place.admits (m.form n) = true :=
    h.admits (Module.lt_size_of_mem_children hp) _ (List.mem_of_getElem? hpart)
  rw [hform] at hadmits
  cases place <;> cases hadmits

end WellFormed

namespace Documented

variable {blockAt : Nat → Option Doc.Block} (hm : m.Documented blockAt)
include hm

theorem contains_start {n : NodeId} (hn : n < m.size) (hform : ∀ items, m.form n ≠ .program items) :
    (m.span n).contains (m.span n).start = true := by
  obtain ⟨p, i, place, -, hpart⟩ := hm.exists_parent hn hform
  have hmem : n ∈ m.children p := mem_children_of_parent? (hm.wellFormed.parent?_of_part hpart)
  have hspan := hm.wellFormed.span_of_below (.child hmem)
  rw [Span.contains_iff]
  omega

/-- What starts where a bare construct starts is under it. -/
theorem under_of_bare {a b : NodeId} (ha : a < m.size) (hb : b < m.size) (hbare : m.isBare a = true)
    (hform : ∀ items, m.form b ≠ .program items)
    (hstart : (m.span a).start = (m.span b).start) : m.Under b a := by
  have haform : ∀ items, m.form a ≠ .program items := by
    intro items hprogram
    rw [isBare, hprogram] at hbare
    cases hbare
  have hcontains := hm.contains_start ha haform
  have hcontains' := hm.contains_start hb hform
  rw [← hstart] at hcontains'
  rcases hm.wellFormed.under_or_under ha hb hcontains hcontains' with (rfl | hbelow) | hunder
  · exact .inl rfl
  · -- the construct around `a` starts before it, and `b` is no program
    exfalso
    obtain ⟨p, i, place, -, hpart⟩ := hm.exists_parent ha haform
    have hmem : a ∈ m.children p := mem_children_of_parent? (hm.wellFormed.parent?_of_part hpart)
    have hp := (hm.wellFormed.below_iff_of_mem_children hmem).1 hbelow
    rcases hm.wellFormed.lead_of_part hpart hbare with hlead | ⟨items, hprogram⟩
    · have hafter := hm.wellFormed.span_of_below (.child hmem)
      have hbefore := hm.wellFormed.span_of_under hp
      omega
    · rcases hp with rfl | hp
      · exact hform items hprogram
      · exact hm.wellFormed.not_below_of_program hprogram hp
  · exact hunder

/-- What starts where a list of declarations starts is the first of them. -/
theorem eq_of_list {a b d : NodeId} {ds : List NodeId} (ha : m.form a = .var (d :: ds))
    (hbelow : m.Below b a) (hstart : (m.span a).start = (m.span b).start) : b = d := by
  have hchildren : m.children a = d :: ds := by rw [Module.children, ha, Form.children]
  cases hbelow with
  | child hc =>
    have hlined := hm.wellFormed.lined (Module.lt_size_of_mem_children hc)
    rw [hchildren] at hlined hc
    obtain ⟨hfirst, hspan, hrest⟩ := hlined
    rcases List.mem_cons.1 hc with rfl | hc
    · rfl
    · have hafter := (hrest.of_mem hc).1
      omega
  | deeper hb hc =>
    obtain ⟨_, _, _, hform⟩ := isDeclaration_iff.1 (hm.wellFormed.isDeclaration_of_var ha hc)
    have hlead : (m.form _).lead = 1 := congrArg Form.lead hform
    have hitem := hm.wellFormed.span_of_below (.child hc)
    have hafter := hm.wellFormed.span_of_below hb
    omega

/-- No declaration starts where an expression statement around it starts. -/
theorem start_ne_of_declaration {a b : NodeId} (ha : m.isStatement a = true)
    (hb : m.isDeclaration b = true) (hbelow : m.Below b a) :
    (m.span a).start ≠ (m.span b).start := by
  intro hstart
  obtain ⟨e, haform⟩ := isStatement_iff.1 ha
  obtain ⟨v, hv⟩ := hbelow.exists_parent
  obtain ⟨i, place, hpart⟩ := exists_part hv
  obtain ⟨-, items, hvform⟩ := hm.wellFormed.eq_var_of_declaration hpart hb
  -- the list starts there as well, so that each of the two would be under the other
  have hva := (hm.wellFormed.below_iff_of_mem_children hv).1 hbelow
  have hspan := hm.wellFormed.span_of_below (.child hv)
  have hspan' := hm.wellFormed.span_of_under hva
  have hsame : (m.span v).start = (m.span a).start := by omega
  have hav := hm.under_of_bare (Module.lt_size_of_mem_children hv) hbelow.lt_size
    (isBare_iff.2 (.inl ⟨items, hvform⟩)) (by simp [haform]) hsame
  obtain rfl := hva.antisymm hav
  cases haform.symm.trans hvform

/-- A pair starts behind all that is around it. -/
theorem start_ne_of_pair {a b : NodeId} {key : String} {value : NodeId}
    (hb : m.form b = .pair key value) (hbelow : m.Below b a) :
    (m.span a).start ≠ (m.span b).start := by
  obtain ⟨o, ho⟩ := hbelow.exists_parent
  obtain ⟨items, hoform⟩ := hm.wellFormed.eq_object_of_pair ho hb
  have hlead : (m.form o).lead = 1 := congrArg Form.lead hoform
  have hspan := hm.wellFormed.span_of_below (.child ho)
  have hspan' := hm.wellFormed.span_of_under
    ((hm.wellFormed.below_iff_of_mem_children ho).1 hbelow)
  omega

end Documented

namespace Anchor

variable {a b : NodeId}

theorem form_ne_program (ha : m.Anchor a) (items : List NodeId) : m.form a ≠ .program items := by
  intro hprogram
  cases ha with
  | list h | pair h => cases h.symm.trans hprogram
  | statement h | declaration h | function h =>
    simp [isStatement, isDeclaration, isFunction, hprogram] at h

/-- Except for bare constructs, anchors begin with text of their own and stand for themselves. -/
theorem lead_of_not_bare (ha : m.Anchor a) (hbare : m.isBare a = false) :
    (m.form a).lead = 1 ∧ m.subject a = a := by
  rw [isBare] at hbare
  rw [subject]
  cases ha with
  | list h => simp [h] at hbare
  | statement h =>
    obtain ⟨e, h⟩ := isStatement_iff.1 h
    simp [h] at hbare
  | declaration h =>
    obtain ⟨_, _, _, h⟩ := isDeclaration_iff.1 h
    simp [h, Form.lead]
  | pair h => simp [h, Form.lead]
  | function h =>
    obtain ⟨_, _, _, _, h⟩ := isFunction_iff.1 h
    simp [h, Form.lead]

end Anchor

namespace Documented

variable {blockAt : Nat → Option Doc.Block} (hm : m.Documented blockAt)
include hm

/-- Where a bare anchor starts, other anchors stand for the same construct. -/
theorem subject_eq_of_bare {a b : NodeId} (ha : m.Anchor a) (hb : m.Anchor b) (hasize : a < m.size)
    (hbsize : b < m.size) (hbare : m.isBare a = true) (hbare' : m.isBare b = false)
    (hstart : (m.span a).start = (m.span b).start) : m.subject a = m.subject b := by
  have hbelow : m.Below b a := by
    refine (hm.under_of_bare hasize hbsize hbare hb.form_ne_program hstart).resolve_left ?_
    rintro rfl
    rw [hbare] at hbare'
    cases hbare'
  rw [(hb.lead_of_not_bare hbare').2]
  cases ha with
  | list h =>
    rw [subject, h]
    exact (hm.eq_of_list h hbelow hstart).symm
  | statement h =>
    exfalso
    cases hb with
    | list h' => simp [isBare, h'] at hbare'
    | statement h' =>
      obtain ⟨e, h'⟩ := isStatement_iff.1 h'
      simp [isBare, h'] at hbare'
    | declaration h' => exact hm.start_ne_of_declaration h h' hbelow hstart
    | pair h' => exact hm.start_ne_of_pair h' hbelow hstart
    | function _ hopens =>
      obtain ⟨e, h⟩ := isStatement_iff.1 h
      exact hopens ⟨a, e, h, hbelow, hstart⟩
  | declaration h =>
    obtain ⟨_, _, _, h⟩ := isDeclaration_iff.1 h
    simp [isBare, h] at hbare
  | pair h => simp [isBare, h] at hbare
  | function h =>
    obtain ⟨_, _, _, _, h⟩ := isFunction_iff.1 h
    simp [isBare, h] at hbare

/-- Anchors that start at one offset stand for the same construct. -/
theorem subject_eq {a b : NodeId} (ha : m.Anchor a) (hb : m.Anchor b) (hasize : a < m.size)
    (hbsize : b < m.size) (hstart : (m.span a).start = (m.span b).start) :
    m.subject a = m.subject b := by
  cases hbare : m.isBare a <;> cases hbare' : m.isBare b
  · rw [hm.wellFormed.eq_of_start_eq hasize hbsize (ha.lead_of_not_bare hbare).1
      (hb.lead_of_not_bare hbare').1 hstart]
  · exact (hm.subject_eq_of_bare hb ha hbsize hasize hbare' hbare hstart.symm).symm
  · exact hm.subject_eq_of_bare ha hb hasize hbsize hbare hbare' hstart
  · have hba := hm.under_of_bare hasize hbsize hbare hb.form_ne_program hstart
    have hab := hm.under_of_bare hbsize hasize hbare' ha.form_ne_program hstart.symm
    rw [hab.antisymm hba]

/-! ### What anchors stand for -/

omit hm in
theorem of_mem_statementOf {e s : NodeId} (hs : s ∈ m.statementOf e) :
    m.form s = .statement e ∧ s < m.size := by
  rw [statementOf] at hs
  split at hs
  · cases hs
  · rename_i parent hparent
    split at hs
    · rename_i hstatement
      rw [List.mem_singleton.1 hs]
      have hmem := mem_children_of_parent? hparent
      obtain ⟨e', hform⟩ := isStatement_iff.1 hstatement
      rw [Module.children, hform, Form.children, List.mem_singleton] at hmem
      exact ⟨hmem ▸ hform, (lt_of_parent? hparent).2⟩
    · cases hs

/-- The anchors of a declaration stand for it. -/
theorem of_mem_declarationAnchors {d a : NodeId} (hd : m.isDeclaration d = true)
    (ha : a ∈ m.declarationAnchors d) : m.Anchor a ∧ a < m.size ∧ m.subject a = d := by
  rw [declarationAnchors] at ha
  split at ha
  · cases ha
  · rename_i v hv
    have hmem := mem_children_of_parent? hv
    have hself : m.Anchor d ∧ d < m.size ∧ m.subject d = d := by
      obtain ⟨_, _, _, hform⟩ := isDeclaration_iff.1 hd
      refine ⟨.declaration hd, hm.wellFormed.lt_size_of_mem_children hmem, ?_⟩
      rw [subject, hform]
    split at ha
    · split at ha
      · rename_i hindex
        rcases List.mem_cons.1 ha with rfl | ha
        · obtain ⟨ds, hvar⟩ := hm.wellFormed.eq_var_of_first hd hv hindex
          refine ⟨.list hvar, Module.lt_size_of_mem_children hmem, ?_⟩
          rw [subject, hvar]
        · rw [List.mem_singleton.1 ha]
          exact hself
      · rw [List.mem_singleton.1 ha]
        exact hself
    · rw [List.mem_singleton.1 ha]
      exact hself
    · cases ha

/-- What a function asks after itself holds it. -/
theorem of_mem_valueAnchors {f a : NodeId} (ha : a ∈ m.valueAnchors f) :
    m.Anchor a ∧ a < m.size ∧ m.holds? (m.subject a) = some f := by
  rw [valueAnchors] at ha
  split at ha
  · cases ha
  · rename_i p hp
    have hmem := mem_children_of_parent? hp
    have hsize := Module.lt_size_of_mem_children hmem
    split at ha
    · rename_i name docs value hform
      obtain ⟨hanchor, hasize, hsubject⟩ :=
        hm.of_mem_declarationAnchors (isDeclaration_iff.2 ⟨_, _, _, hform⟩) ha
      refine ⟨hanchor, hasize, ?_⟩
      rw [Module.children, hform, Form.children, Option.mem_toList] at hmem
      rw [hsubject, holds?, hform, hmem]
    · rename_i key value hform
      rw [List.mem_singleton.1 ha]
      rw [Module.children, hform, Form.children, List.mem_singleton] at hmem
      refine ⟨.pair hform, hsize, ?_⟩
      rw [subject, hform, holds?, hform, hmem]
    · rename_i op lhs rhs hform
      split at ha
      · rename_i hindex
        obtain ⟨hstatement, hasize⟩ := of_mem_statementOf ha
        refine ⟨.statement (isStatement_iff.2 ⟨_, hstatement⟩), hasize, ?_⟩
        obtain ⟨j, hj, hchild⟩ := getElem?_childIndex? hp
        cases hindex.symm.trans hj
        rw [Module.children, hform] at hchild
        cases hchild
        simp only [subject, holds?, hstatement, hform]
      · cases ha
    · cases ha

/-- The anchors of a function hold it. -/
theorem holds?_of_mem_anchors {f a : NodeId} (hf : m.isFunction f = true) (ha : a ∈ m.anchors f) :
    m.Anchor a ∧ a < m.size ∧ m.holds? (m.subject a) = some f := by
  obtain ⟨_, _, _, _, hform⟩ := isFunction_iff.1 hf
  rw [anchors, hform] at ha
  rcases List.mem_append.1 ha with hself | hvalue
  · split at hself
    · cases hself
    · rename_i hopens
      rw [List.mem_singleton.1 hself]
      refine ⟨.function hf hopens, lt_size_of_isFunction hf, ?_⟩
      rw [subject, hform, holds?, hform]
  · exact hm.of_mem_valueAnchors hvalue

theorem subject_of_mem_anchors {d a : NodeId} (hd : m.isDeclaration d = true)
    (ha : a ∈ m.anchors d) : m.Anchor a ∧ a < m.size ∧ m.subject a = d := by
  obtain ⟨_, _, _, hform⟩ := isDeclaration_iff.1 hd
  rw [anchors, hform] at ha
  exact hm.of_mem_declarationAnchors hd ha

end Documented

/-! ### Comments -/

theorem findSome?_bind {α β γ : Type} (f : α → Option β) {g : β → Option γ}
    (hg : ∀ b, (g b).isSome = true) (as : List α) :
    as.findSome? (fun a => (f a).bind g) = (as.findSome? f).bind g := by
  induction as with
  | nil => rfl
  | cons a as ih =>
    rw [findSome?_cons_eq_or, findSome?_cons_eq_or, ih]
    cases f a with
    | none => rfl
    | some b =>
      obtain ⟨c, hc⟩ := Option.isSome_iff_exists.1 (hg b)
      simp [hc]

/-- The comment of a node stands in front of one of its anchors. -/
theorem exists_anchor {comments : List DocComment} {n : NodeId} {c : DocComment}
    (h : m.comment? comments n = some c) : ∃ a ∈ m.anchors n, (m.span a).start = c.target := by
  obtain ⟨a, ha, hat⟩ := List.exists_of_findSome?_eq_some h
  have htarget := List.find?_some hat
  exact ⟨a, ha, (beq_iff_eq.1 htarget).symm⟩

namespace Documented

variable {blockAt : Nat → Option Doc.Block} (hm : m.Documented blockAt)
  {comments : List DocComment} {c : DocComment}
include hm

theorem exists_subject {d : NodeId} (hd : m.isDeclaration d = true)
    (hc : m.comment? comments d = some c) :
    ∃ a, m.Anchor a ∧ a < m.size ∧ (m.span a).start = c.target ∧ m.subject a = d := by
  obtain ⟨a, ha, htarget⟩ := exists_anchor hc
  obtain ⟨hanchor, hsize, hsubject⟩ := hm.subject_of_mem_anchors hd ha
  exact ⟨a, hanchor, hsize, htarget, hsubject⟩

theorem exists_holder {f : NodeId} (hf : m.isFunction f = true)
    (hc : m.comment? comments f = some c) :
    ∃ a, m.Anchor a ∧ a < m.size ∧ (m.span a).start = c.target ∧
      m.holds? (m.subject a) = some f := by
  obtain ⟨a, ha, htarget⟩ := exists_anchor hc
  obtain ⟨hanchor, hsize, hholds⟩ := hm.holds?_of_mem_anchors hf ha
  exact ⟨a, hanchor, hsize, htarget, hholds⟩

end Documented

/-- The documentation of a module is exactly that of the comments in front of its constructs. Only
declarations and functions have any; a node has none if there is no comment in front of its anchors,
and otherwise has what the comment of the first such anchor says. A comment documents at most one
declaration and at most one function, and when both, the function is the declaration's value. -/
theorem documentation_is_attached_exactly {cs : List Char} (h : ofText cs = .ok m) :
    let comments := DocComments.scan cs
    (∀ n b, m.docs? n = some b → m.isDeclaration n = true ∨ m.isFunction n = true) ∧
    (∀ n, m.comment? comments n = none → m.docs? n = none) ∧
    (∀ n c, m.comment? comments n = some c →
      ∃ b, Doc.read? c.text = some b ∧ m.docs? n = some b) ∧
    (∀ c d d', m.isDeclaration d = true → m.isDeclaration d' = true →
      m.comment? comments d = some c → m.comment? comments d' = some c → d = d') ∧
    (∀ c f f', m.isFunction f = true → m.isFunction f' = true →
      m.comment? comments f = some c → m.comment? comments f' = some c → f = f') ∧
    ∀ c d f, m.isDeclaration d = true → m.isFunction f = true →
      m.comment? comments d = some c → m.comment? comments f = some c →
      ∃ name docs, m.form d = .declaration name docs (some f) := by
  intro comments
  have hm := documented_of_ofText h
  have hread (c : DocComment) : (Doc.read? c.text).isSome = true := by
    obtain ⟨b, hb, -⟩ := Doc.readStripped?_spec (Doc.strip c.text.toList)
    rw [Doc.read?, hb, Option.isSome_some]
  have hdocs (n : NodeId) :
      m.docs? n = (m.comment? comments n).bind fun c => Doc.read? c.text := by
    rw [comment?, ← findSome?_bind _ hread]
    exact hm.docs?_eq n
  refine ⟨?_, ?_, ?_, ?_, ?_, ?_⟩
  · intro n b hb
    rw [docs?] at hb
    split at hb
    · rename_i hform
      exact .inr (isFunction_iff.2 ⟨_, _, _, _, hform⟩)
    · rename_i hform
      exact .inl (isDeclaration_iff.2 ⟨_, _, _, hform⟩)
    · cases hb
  · intro n hnone
    rw [hdocs, hnone, Option.bind_none]
  · intro n c hc
    obtain ⟨b, hb⟩ := Option.isSome_iff_exists.1 (hread c)
    exact ⟨b, hb, by rw [hdocs, hc, Option.bind_some, hb]⟩
  · intro c d d' hd hd' hc hc'
    obtain ⟨a, ha, hsize, htarget, rfl⟩ := hm.exists_subject hd hc
    obtain ⟨a', ha', hsize', htarget', rfl⟩ := hm.exists_subject hd' hc'
    exact hm.subject_eq ha ha' hsize hsize' (htarget.trans htarget'.symm)
  · intro c f f' hf hf' hc hc'
    obtain ⟨a, ha, hsize, htarget, hholds⟩ := hm.exists_holder hf hc
    obtain ⟨a', ha', hsize', htarget', hholds'⟩ := hm.exists_holder hf' hc'
    rw [hm.subject_eq ha ha' hsize hsize' (htarget.trans htarget'.symm), hholds'] at hholds
    exact (Option.some.inj hholds).symm
  · intro c d f hd hf hc hc'
    obtain ⟨a, ha, hsize, htarget, hsubject⟩ := hm.exists_subject hd hc
    obtain ⟨a', ha', hsize', htarget', hholds⟩ := hm.exists_holder hf hc'
    obtain ⟨name, docs, value, hform⟩ := isDeclaration_iff.1 hd
    rw [← hm.subject_eq ha ha' hsize hsize' (htarget.trans htarget'.symm), hsubject, holds?, hform]
      at hholds
    exact ⟨name, docs, hholds ▸ hform⟩

/-- The comment of a statement with two declarations documents the first one, and no other. -/
theorem comment_of_list_documents_first : ∃ m : Module,
    ofText "/** a */ var f = function () \x7b\x7d, g;".toList = .ok m ∧ m.isDeclaration 3 = true ∧
    ∃ c b, Doc.read? c.text = some b ∧ m.docs? 3 = some b ∧ ∀ d, m.isDeclaration d = true →
      m.comment? (DocComments.scan "/** a */ var f = function () \x7b\x7d, g;".toList) d = some c →
      d = 3 := by
  obtain ⟨m, hm, hdocs, hdeclaration⟩ := exists_ofText "/** a */ var f = function () \x7b\x7d, g;"
    (fun m => (m.docs? 3).isSome = true ∧ m.isDeclaration 3 = true) (by decide +kernel)
  obtain ⟨-, hnone, hsome, honce, -⟩ := documentation_is_attached_exactly hm
  cases hc : m.comment? (DocComments.scan "/** a */ var f = function () \x7b\x7d, g;".toList) 3 with
  | none =>
    rw [hnone 3 hc] at hdocs
    cases hdocs
  | some c =>
    obtain ⟨b, hread, hb⟩ := hsome 3 c hc
    exact ⟨m, hm, hdeclaration, c, b, hread, hb, fun d hd hc' => honce c d 3 hd hdeclaration hc' hc⟩

end ScriptTypes.Script.Module
