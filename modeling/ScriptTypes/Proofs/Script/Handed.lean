import ScriptTypes.Proofs.Script.Around

/-!
# What constructs hand down

Documentation comes down the tree. A construct hands a context to each of its parts; to a value it
hands a block for the case that the value is a function, and to the expression of a statement one
for the function that may be assigned there. What a node gets is known from the constructs around
it, and its own documentation follows from that.

Main statements: `Documented.receives_part`, `Documented.exists_receives`.
-/

namespace ScriptTypes.Script

/-- Where a list of declarations stands that is at a place. -/
def Place.position : Place → Position
  | loopHead => .loopHead
  | keyHead => .keyHead
  | _ => .statement

/-- What a construct hands down to one of its parts. -/
structure Handover where
  ctx : Context := {}
  /-- The block for a function that has none. -/
  value : Option Doc.Block := none
  /-- The block for a function that is assigned. -/
  assigned : Option Doc.Block := none

namespace Handover

variable (blockAt : Nat → Option Doc.Block)

/-- A tree as it is documented with what is handed down to it. -/
def apply (h : Handover) (t : Tree) : Tree :=
  giveToAssigned h.assigned (giveToFunction h.value (t.document blockAt h.ctx))

/-- The block of a declaration that starts at an offset. -/
def declared (h : Handover) (start : Nat) : Option Doc.Block :=
  match h.ctx.position with
  | .keyHead => none
  | _ => h.ctx.offered.or (blockAt start)

/-- The block of a function that starts at an offset. -/
def own (h : Handover) (start : Nat) : Option Doc.Block :=
  (if h.ctx.claimed = some start then none else blockAt start).or h.value

/-- What a construct that starts at an offset hands down to its part at an index and place. -/
def toPart {α : Type} (h : Handover) (start : Nat) (f : Form α) (i : Nat) (place : Place) :
    Handover :=
  match f with
  | .var _ =>
    let offered := match h.ctx.position with
      | .statement => blockAt start
      | _ => none
    { ctx := { h.ctx with offered := if i = 0 then offered else none } }
  | .declaration .. => { ctx := h.ctx.inside, value := h.declared blockAt start }
  | .pair .. => { ctx := h.ctx.inside, value := blockAt start }
  | .statement _ => { ctx := { claimed := some start }, assigned := blockAt start }
  | .assign .. => { ctx := h.ctx.inside, value := if i = 1 then h.assigned else none }
  | _ => { ctx := { h.ctx.inside with position := place.position } }

theorem toPart_map {α β : Type} (h : Handover) (start : Nat) (g : α → β) (f : Form α) (i : Nat)
    (place : Place) :
    h.toPart blockAt start (f.map g) i place = h.toPart blockAt start f i place := by
  cases f <;> rfl

end Handover

/-! ### One step down a tree -/

section Tree

variable {blockAt : Nat → Option Doc.Block}

theorem giveToFunction_none (t : Tree) : giveToFunction none t = t := by
  unfold giveToFunction
  split
  · rfl
  · rfl

theorem giveToAssigned_none (t : Tree) : giveToAssigned none t = t := by
  unfold giveToAssigned
  split
  · rw [giveToFunction_none]
  · rfl

theorem giveToFunction_function (given docs : Option Doc.Block) (span : Span) (name : Option String)
    (params body : Tree) :
    giveToFunction given (.node span (.function name docs params body))
      = .node span (.function name (docs.or given) params body) := by
  cases docs <;> rfl

theorem Handover.apply_plain (ctx : Context) (t : Tree) :
    ({ ctx := ctx } : Handover).apply blockAt t = t.document blockAt ctx := by
  rw [Handover.apply, giveToFunction_none, giveToAssigned_none]

theorem Handover.apply_value (ctx : Context) (docs : Option Doc.Block) (t : Tree) :
    ({ ctx := ctx, value := docs } : Handover).apply blockAt t
      = giveToFunction docs (t.document blockAt ctx) := by
  rw [Handover.apply, giveToAssigned_none]

theorem documentAll_eq_map (ctx : Context) (ts : List Tree) :
    documentAll blockAt ctx ts = ts.map (·.document blockAt ctx) := by
  induction ts with
  | nil => rfl
  | cons t ts ih => rw [documentAll, ih, List.map_cons]

theorem documentOption_eq_map (ctx : Context) (o : Option Tree) :
    documentOption blockAt ctx o = o.map (·.document blockAt ctx) := by
  cases o <;> rfl

/-- The first declaration gets what is on offer. -/
theorem getElem?_documentDeclarations (ctx : Context) (ts : List Tree) (i : Nat) :
    (documentDeclarations blockAt ctx ts)[i]? = ts[i]?.map fun t =>
      t.document blockAt { ctx with offered := if i = 0 then ctx.offered else none } := by
  induction ts generalizing ctx i with
  | nil => rfl
  | cons t ts ih =>
    cases i with
    | zero => rfl
    | succ i =>
      rw [documentDeclarations, List.getElem?_cons_succ, List.getElem?_cons_succ, ih]
      simp

/-- Except for lists of declarations, what a part gets does not depend on its index. -/
theorem parts_documentForm {form : Form Tree} (hvar : ∀ items, form ≠ .var items) (ctx : Context)
    (start i : Nat) :
    (documentForm blockAt ctx start form).parts = form.parts.map fun p =>
      (p.1, (Handover.toPart blockAt { ctx := ctx } start form i p.1).apply blockAt p.2) := by
  cases form with
  | var items => exact absurd rfl (hvar items)
  | program items | block items | parameters items | comma items | array items | object items
  | construct callee items | invoke callee items =>
    simp [documentForm, Form.parts, documentAll_eq_map, Handover.toPart, Handover.apply_plain,
      Place.position, Context.inside]
  | returns value | branch _ _ value | tryBlock _ value _ | forLoop _ value _ _ =>
    simp [documentForm, Form.parts, documentOption_eq_map, Handover.toPart, Handover.apply_plain,
      Option.toList_map, Function.comp_def, Place.position, Context.inside]
  | declaration name docs value =>
    cases value with
    | none => rfl
    | some t => exact congrArg (fun t => [(_, t)]) (Handover.apply_value ctx.inside _ t).symm
  | pair key value => simp [documentForm, Form.parts, Handover.toPart, Handover.apply_value]
  | statement e =>
    simp [documentForm, Form.parts, Handover.toPart, Handover.apply, giveToFunction_none]
  | _ =>
    simp [documentForm, Form.parts, Handover.toPart, Handover.apply_plain, Place.position,
      Context.inside]

theorem getElem?_parts_documentForm (blockAt : Nat → Option Doc.Block) (form : Form Tree)
    (ctx : Context) (start i : Nat) :
    (documentForm blockAt ctx start form).parts[i]? = form.parts[i]?.map fun p =>
      (p.1, (Handover.toPart blockAt { ctx := ctx } start form i p.1).apply blockAt p.2) := by
  by_cases hvar : ∃ items, form = .var items
  · obtain ⟨items, rfl⟩ := hvar
    simp only [documentForm, Form.parts, List.getElem?_map, getElem?_documentDeclarations,
      Handover.toPart, Handover.apply_plain, Option.map_map]
    rfl
  · have hvar' : ∀ items, form ≠ .var items := fun items heq => hvar ⟨items, heq⟩
    rw [parts_documentForm hvar' ctx start i, List.getElem?_map]

/-- What stands at each place of a construct with what was handed down to it. -/
theorem Handover.getElem?_parts_apply (h : Handover) (blockAt : Nat → Option Doc.Block) (t : Tree)
    (i : Nat) :
    (h.apply blockAt t).form.parts[i]? = t.form.parts[i]?.map fun p =>
      (p.1, (h.toPart blockAt t.span.start t.form i p.1).apply blockAt p.2) := by
  obtain ⟨span, form⟩ := t
  have hdocument := getElem?_parts_documentForm blockAt form h.ctx span.start i
  cases form with
  | function name docs params body =>
    rw [apply, Tree.document, documentForm, giveToFunction_function]
    exact hdocument
  | assign op lhs rhs =>
    rcases i with _ | _ | i
    · exact congrArg some (congrArg _ (apply_plain h.ctx.inside lhs).symm)
    · exact congrArg some (congrArg _ (apply_value h.ctx.inside h.assigned rhs).symm)
    · rfl
  | _ => exact hdocument

theorem span_giveToFunction (docs : Option Doc.Block) (t : Tree) :
    (giveToFunction docs t).span = t.span := by
  unfold giveToFunction
  split
  · rfl
  · rfl

theorem Handover.span_apply (h : Handover) (t : Tree) : (h.apply blockAt t).span = t.span := by
  obtain ⟨span, form⟩ := t
  rw [apply]
  unfold giveToAssigned
  split
  · rename_i heq
    exact congrArg Tree.span heq.symm |>.trans (span_giveToFunction _ _)
  · exact span_giveToFunction _ _

/-- Documentation does not change what kind of construct a tree is. -/
theorem Handover.toPart_apply (h h' : Handover) (blockAt : Nat → Option Doc.Block) (t : Tree)
    (start i : Nat) (place : Place) :
    h'.toPart blockAt start (h.apply blockAt t).form i place
      = h'.toPart blockAt start t.form i place := by
  obtain ⟨span, form⟩ := t
  cases form with
  | function =>
    rw [apply, Tree.document, documentForm, giveToFunction_function]
    rfl
  | _ => rfl

theorem Handover.docs_declaration {h : Handover} {t : Tree} {name : String}
    {docs : Option Doc.Block} {value : Option Tree}
    (hform : (h.apply blockAt t).form = .declaration name docs value) :
    docs = h.declared blockAt t.span.start := by
  obtain ⟨span, form⟩ := t
  cases form with
  | declaration =>
    cases hform
    rfl
  | function =>
    rw [apply, Tree.document, documentForm, giveToFunction_function] at hform
    cases hform
  | _ => cases hform

theorem Handover.docs_function {h : Handover} {t : Tree} {name : Option String}
    {docs : Option Doc.Block} {params body : Tree}
    (hform : (h.apply blockAt t).form = .function name docs params body) :
    docs = h.own blockAt t.span.start := by
  obtain ⟨span, form⟩ := t
  cases form with
  | function =>
    rw [apply, Tree.document, documentForm, giveToFunction_function] at hform
    cases hform
    rfl
  | _ => cases hform

end Tree

/-! ### Nodes -/

namespace Module

variable {blockAt : Nat → Option Doc.Block} {m : Module}

/-- The tree at a node was documented with what is handed down to it. -/
def Handed (blockAt : Nat → Option Doc.Block) (m : Module) (n : NodeId) (h : Handover) : Prop :=
  ∃ t, m.tree n = h.apply blockAt t

namespace Handed

variable {n : NodeId} {h : Handover}

theorem exists_apply (hn : Handed blockAt m n h) :
    ∃ t, t.span = m.span n ∧ (m.form n).map m.tree = (h.apply blockAt t).form := by
  obtain ⟨t, ht⟩ := hn
  refine ⟨t, ?_, ?_⟩
  · rw [← span_tree, ht, h.span_apply]
  · rw [← ht, tree_eq]
    rfl

/-- A node hands down to its parts. -/
theorem part (hn : Handed blockAt m n h) {i : Nat} {place : Place} {c : NodeId}
    (hc : (m.form n).parts[i]? = some (place, c)) :
    Handed blockAt m c (h.toPart blockAt (m.span n).start (m.form n) i place) := by
  obtain ⟨t, hspan, hform⟩ := hn.exists_apply
  have hpart := h.getElem?_parts_apply blockAt t i
  rw [← hform, Form.parts_map, List.getElem?_map, hc, Option.map_some] at hpart
  obtain ⟨⟨place', t'⟩, -, heq⟩ := Option.map_eq_some_iff.1 hpart.symm
  obtain ⟨rfl, htree⟩ := Prod.mk.inj heq
  refine ⟨t', htree.symm.trans ?_⟩
  rw [← h.toPart_apply h blockAt t, ← hform, Handover.toPart_map, hspan]

theorem docs_declaration (hn : Handed blockAt m n h) {name : String} {docs : Option Doc.Block}
    {value : Option NodeId} (hform : m.form n = .declaration name docs value) :
    m.docs? n = h.declared blockAt (m.span n).start := by
  obtain ⟨t, hspan, heq⟩ := hn.exists_apply
  rw [hform] at heq
  rw [docs?, hform, ← hspan]
  exact Handover.docs_declaration heq.symm

theorem docs_function (hn : Handed blockAt m n h) {name : Option String} {docs : Option Doc.Block}
    {params body : NodeId} (hform : m.form n = .function name docs params body) :
    m.docs? n = h.own blockAt (m.span n).start := by
  obtain ⟨t, hspan, heq⟩ := hn.exists_apply
  rw [hform] at heq
  rw [docs?, hform, ← hspan]
  exact Handover.docs_function heq.symm

end Handed

/-! ### Statements around a node -/

/-- An expression statement around a node starts where the node starts. -/
def OpensStatement (m : Module) (n : NodeId) : Prop :=
  ∃ s e, m.form s = .statement e ∧ m.Below n s ∧ (m.span s).start = (m.span n).start

/-- The start of an expression statement around a node, after which no other one starts. -/
structure Claimed (m : Module) (n : NodeId) (claimed : Option Nat) : Prop where
  sound : ∀ start ∈ claimed, ∃ s e, m.form s = .statement e ∧ m.Below n s ∧ (m.span s).start = start
  complete : ∀ s e, m.form s = .statement e → m.Below n s →
    ∃ start ∈ claimed, (m.span s).start ≤ start

theorem claimed_toPart {n : NodeId} (h : Handover) (i : Nat) (place : Place) :
    (h.toPart blockAt (m.span n).start (m.form n) i place).ctx.claimed
      = match m.form n with
        | .statement _ => some (m.span n).start
        | _ => h.ctx.claimed := by
  cases m.form n <;> cases place <;> rfl

theorem WellFormed.claimed_part (hm : m.WellFormed) {n c : NodeId} {h : Handover}
    (hn : m.Claimed n h.ctx.claimed) (hc : c ∈ m.children n) (i : Nat) (place : Place) :
    m.Claimed c (h.toPart blockAt (m.span n).start (m.form n) i place).ctx.claimed := by
  rw [claimed_toPart]
  split
  · rename_i e hform
    refine ⟨?_, ?_⟩
    · rintro start ⟨⟩
      exact ⟨n, e, hform, .child hc, rfl⟩
    · intro s e' hs hbelow
      refine ⟨_, rfl, ?_⟩
      rcases (hm.below_iff_of_mem_children hc).1 hbelow with rfl | hbelow
      · exact Nat.le_refl _
      · have := hm.span_of_below hbelow
        omega
  · rename_i hform
    refine ⟨?_, ?_⟩
    · intro start hstart
      obtain ⟨s, e, hs, hbelow, heq⟩ := hn.sound start hstart
      exact ⟨s, e, hs, (Below.child hc).trans hbelow, heq⟩
    · intro s e hs hbelow
      rcases (hm.below_iff_of_mem_children hc).1 hbelow with rfl | hbelow
      · exact absurd hs (hform e)
      · exact hn.complete s e hs hbelow

/-- What claims a node starts where the node starts exactly if a statement around it does. -/
theorem Claimed.eq_some_start_iff (hm : m.WellFormed) {n : NodeId} {claimed : Option Nat}
    (hn : m.Claimed n claimed) : claimed = some (m.span n).start ↔ m.OpensStatement n := by
  constructor
  · intro heq
    exact hn.sound _ heq
  · rintro ⟨s, e, hs, hbelow, hstart⟩
    obtain ⟨start, hclaimed, hle⟩ := hn.complete s e hs hbelow
    obtain ⟨s', e', -, hbelow', heq⟩ := hn.sound start hclaimed
    have hspan := hm.span_of_below hbelow'
    have : start = (m.span n).start := by omega
    rw [hclaimed, this]

/-! ### All nodes -/

/-- The module of a program, documented with the blocks in front of its constructs. -/
structure Documented (blockAt : Nat → Option Doc.Block) (m : Module) : Prop where
  wellFormed : m.WellFormed
  program : ∃ items, m.form m.root = .program items
  root : Handed blockAt m m.root {}

theorem documented_of_ofText {cs : List Char} (h : ofText cs = .ok m) :
    m.Documented (DocComments.blockAt? (DocComments.scan cs)) := by
  obtain ⟨t, -, heq, -⟩ := formed_of_ofText h
  refine ⟨wellFormed_of_ofText h, form_root_of_ofText h, t, ?_⟩
  rw [heq, tree_root_ofTree, Handover.apply_plain]

theorem exists_part {c n : NodeId} (hc : c ∈ m.children n) :
    ∃ (i : Nat) (place : Place), (m.form n).parts[i]? = some (place, c) := by
  rw [children, ← Form.map_snd_parts] at hc
  obtain ⟨⟨place, _⟩, hmem, rfl⟩ := List.mem_map.1 hc
  obtain ⟨i, hi⟩ := List.mem_iff_getElem?.1 hmem
  exact ⟨i, place, hi⟩

/-- What a node gets handed down, with the statements around it. -/
structure Receives (blockAt : Nat → Option Doc.Block) (m : Module) (n : NodeId) (h : Handover) :
    Prop where
  handed : Handed blockAt m n h
  claimed : m.Claimed n h.ctx.claimed

namespace Documented

variable (hm : m.Documented blockAt)
include hm

theorem receives_part {n c : NodeId} {h : Handover} (hn : Receives blockAt m n h) {i : Nat}
    {place : Place} (hc : (m.form n).parts[i]? = some (place, c)) :
    Receives blockAt m c (h.toPart blockAt (m.span n).start (m.form n) i place) := by
  have hmem : c ∈ m.children n := by
    rw [children, ← Form.map_snd_parts]
    exact List.mem_map_of_mem (List.mem_of_getElem? hc)
  exact ⟨hn.handed.part hc, hm.wellFormed.claimed_part hn.claimed hmem i place⟩

theorem receives_root : Receives blockAt m m.root {} := by
  refine ⟨hm.root, fun _ => nofun, ?_⟩
  intro s e _ hbelow
  have hsize := hbelow.lt_size
  rw [← hm.wellFormed.size] at hsize
  exact absurd hbelow.lt (Nat.not_lt.2 (Nat.le_of_lt_succ hsize))

/-- Every node gets something handed down. The induction descends from the program. -/
theorem exists_receives {n : NodeId} (hn : n < m.size) : ∃ h, Receives blockAt m n h := by
  have hchild {c n : NodeId} (hc : c ∈ m.children n) (hn : ∃ h, Receives blockAt m n h) :
      ∃ h, Receives blockAt m c h := by
    obtain ⟨h, hreceives⟩ := hn
    obtain ⟨i, place, hpart⟩ := exists_part hc
    exact ⟨_, hm.receives_part hreceives hpart⟩
  have hbelow {v n : NodeId} (hv : m.Below v n) (hn : ∃ h, Receives blockAt m n h) :
      ∃ h, Receives blockAt m v h := by
    induction hv with
    | child hc => exact hchild hc hn
    | deeper _ hc ih => exact ih (hchild hc hn)
  rcases hm.wellFormed.under_root hn with rfl | hv
  · exact ⟨{}, hm.receives_root⟩
  · exact hbelow hv ⟨{}, hm.receives_root⟩

end Documented

end Module

end ScriptTypes.Script
