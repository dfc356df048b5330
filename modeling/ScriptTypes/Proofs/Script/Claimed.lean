import ScriptTypes.Proofs.Script.Lowered
import ScriptTypes.Proofs.Script.Visits

/-!
# Claiming comments while a tree is visited

A visit claims each comment once and takes it off those that wait. What it hands out is the same as
what documenting the tree gives out, which looks up every block in one table: a visit asks for
comments only between the start and the end of its tree, the trees of a row do not overlap, and a
construct that starts where its statement starts is an expression. So a visit leaves the table that
numbering the documented tree leaves.

Main statement: `follows_program`.
-/

namespace ScriptTypes.Script

open Lowering (add claim give giveAssigned take)

/-! ### Nodes of drafts and entries of tables -/

/-- The documentation of a construct. -/
def Form.docs? {α : Type} : Form α → Option Doc.Block
  | declaration _ docs _ | function _ docs _ _ => docs
  | _ => none

/-- The construct without its documentation. -/
def Form.undocumented {α : Type} : Form α → Form α
  | declaration name _ value => .declaration name none value
  | function name _ params body => .function name none params body
  | f => f

/-- The node of a draft that an entry of a table stands for. -/
def Entry.slot (e : Entry) : Slot := ⟨e.span.stored, .form e.form.undocumented, e.form.docs?⟩

/-- Give a block to a function that has none. -/
def Entry.give (docs : Option Doc.Block) (e : Entry) : Entry :=
  match e.form with
  | .function name none params body => { e with form := .function name docs params body }
  | _ => e

theorem Entry.slot_give (docs : Option Doc.Block) (e : Entry) :
    (e.give docs).slot = e.slot.give docs := by
  obtain ⟨span, form⟩ := e
  cases form with
  | function name own params body => cases own <;> rfl
  | _ => rfl

/-- What is assigned, if the construct is an assignment. -/
def Form.assigned? {α : Type} : Form α → Option α
  | assign _ _ rhs => some rhs
  | _ => none

theorem Entry.assigned?_slot (e : Entry) : e.slot.assigned? = e.form.assigned? := by
  obtain ⟨span, form⟩ := e
  cases form <;> rfl

namespace Numbering

/-- Give a block to a node if it is a function that has none. -/
def give (docs : Option Doc.Block) (n : NodeId) : Numbering Unit :=
  modify fun es => es.modify n (·.give docs)

/-- Give a block to the function that a node assigns. -/
def giveAssigned (docs : Option Doc.Block) (n : NodeId) : Numbering Unit := do
  let es ← get
  (es[n]?.bind fun e => e.form.assigned?).forM (give docs)

end Numbering

section Arrays

variable {α β : Type} (xs : Array α) (x : α) (f : α → α)

theorem modify_push_size : (xs.push x).modify xs.size f = xs.push (f x) := by
  refine Array.ext_getElem? fun i => ?_
  rw [Array.getElem?_modify, Array.getElem?_push, Array.getElem?_push]
  grind

theorem modify_push_of_lt {i : Nat} (h : i < xs.size) :
    (xs.push x).modify i f = (xs.modify i f).push x := by
  refine Array.ext_getElem? fun j => ?_
  rw [Array.getElem?_modify, Array.getElem?_push, Array.getElem?_push, Array.getElem?_modify,
    Array.size_modify]
  grind

theorem map_modify {f : α → α} {g : α → β} {f' : β → β} (h : ∀ x, g (f x) = f' (g x)) (i : Nat) :
    (xs.modify i f).map g = (xs.map g).modify i f' := by
  refine Array.ext_getElem? fun j => ?_
  simp only [Array.getElem?_modify, Array.getElem?_map]
  split <;> simp [Function.comp_def, h]

end Arrays

/-- A function can get its block before it is numbered or after. -/
theorem number_giveToFunction (docs : Option Doc.Block) (t : Tree) :
    (giveToFunction docs t).number = (do
      let n ← t.number
      Numbering.give docs n
      return n) := by
  obtain ⟨span, form⟩ := t
  funext es
  have hgive : (do
      let n ← (Tree.node span form).number
      Numbering.give docs n
      return n) es = ((numberForm form es).2.size,
        (numberForm form es).2.push (Entry.give docs ⟨span, (numberForm form es).1⟩)) :=
    congrArg (Prod.mk _) (modify_push_size _ _ _)
  rw [hgive]
  cases form with
  | function name own params body => cases own <;> rfl
  | _ => rfl

theorem giveAssigned_push (docs : Option Doc.Block) (es : Array Entry) (e : Entry) :
    Numbering.giveAssigned docs es.size (es.push e)
      = e.form.assigned?.forM (Numbering.give docs) (es.push e) := by
  have hlast : (es.push e)[es.size]?.bind (fun e => e.form.assigned?) = e.form.assigned? := by
    rw [Array.getElem?_push, if_pos rfl, Option.bind_some]
  rw [← hlast]
  rfl

/-- The same for a function that is assigned. -/
theorem number_giveToAssigned (docs : Option Doc.Block) (t : Tree) :
    (giveToAssigned docs t).number = (do
      let n ← t.number
      Numbering.giveAssigned docs n
      return n) := by
  obtain ⟨span, form⟩ := t
  funext es
  have hgive : (do
      let n ← (Tree.node span form).number
      Numbering.giveAssigned docs n
      return n) es = ((numberForm form es).2.size,
        ((numberForm form es).1.assigned?.forM (Numbering.give docs)
          ((numberForm form es).2.push ⟨span, (numberForm form es).1⟩)).2) := by
    rw [← giveAssigned_push docs (numberForm form es).2 ⟨span, (numberForm form es).1⟩]
    rfl
  rw [hgive]
  cases form with
  | assign op lhs rhs =>
    -- the function has its number when the assignment is added, so it is not the last node
    generalize hl : lhs.number es = l
    generalize hr : rhs.number l.2 = r
    have hlt : r.1 < r.2.size := by
      rw [← hr]
      exact Nat.lt_of_succ_le (Nat.le_of_eq (rhs.number_fst l.2))
    have hform : numberForm (.assign op lhs rhs) es = (.assign op l.1 r.1, r.2) := by
      rw [← hr, ← hl]
      rfl
    have hgiven : numberForm (.assign op lhs (giveToFunction docs rhs)) es
        = (.assign op l.1 r.1, r.2.modify r.1 (·.give docs)) := by
      rw [numberForm, number_giveToFunction, ← hr, ← hl]
      rfl
    show ((numberForm (.assign op lhs (giveToFunction docs rhs)) es).2.size,
      (numberForm (.assign op lhs (giveToFunction docs rhs)) es).2.push
        ⟨span, (numberForm (.assign op lhs (giveToFunction docs rhs)) es).1⟩) = _
    rw [hgiven, hform, Array.size_modify, ← modify_push_of_lt _ _ _ hlt]
    rfl
  | _ => rfl

theorem numberOption_giveToFunction (docs : Option Doc.Block) (o : Option Tree) :
    numberOption (o.map (giveToFunction docs)) = (do
      let n ← numberOption o
      n.forM (Numbering.give docs)
      return n) := by
  cases o with
  | none => rfl
  | some t => simp [numberOption, number_giveToFunction]

/-! ### Comments that wait -/

theorem blockAt?_filter (comments : List DocComment) (start o : Nat) :
    DocComments.blockAt? (comments.filter fun c => c.target != start) o
      = Function.update (DocComments.blockAt? comments) start none o := by
  rw [DocComments.blockAt?, DocComments.at?, ← List.filter_reverse, List.find?_filter,
    Function.update_apply]
  split
  · rename_i heq
    subst heq
    have hnone : comments.reverse.find? (fun c => decide ((c.target != o) = true ∧
        (c.target == o) = true)) = none := by simp
    rw [hnone, Option.bind_none]
  · rename_i hne
    have hpred : (fun c : DocComment => decide ((c.target != start) = true ∧
        (c.target == o) = true)) = fun c => c.target == o := by
      funext c
      grind
    rw [hpred]
    rfl

/-- Visiting follows numbering between two offsets, where `blocks` gives the blocks that wait: it
ends with the same result and the same table, and leaves the comments for other offsets. -/
def Follows {α β : Type} (blocks : Nat → Option Doc.Block) (lo hi : Nat) (φ : β → α)
    (m : Lowering α) (n : Numbering β) : Prop :=
  ∀ (d : Draft) (es : Array Entry), d.slots = es.map Entry.slot →
    (∀ o, lo ≤ o → o < hi → DocComments.blockAt? d.pending o = blocks o) →
    (m d).1 = φ (n es).1 ∧ (m d).2.slots = (n es).2.map Entry.slot ∧
      (m d).2.fallbacks = d.fallbacks ∧ ∀ o, o < lo ∨ hi ≤ o →
        DocComments.blockAt? (m d).2.pending o = DocComments.blockAt? d.pending o

namespace Follows

variable {α α' β β' : Type} {blocks blocks' : Nat → Option Doc.Block} {lo hi : Nat} {φ : β → α}
  {ψ : β' → α'} {m : Lowering α} {n : Numbering β}

theorem widen {lo' hi' : Nat} (h : Follows blocks lo hi φ m n) (hlo : lo' ≤ lo) (hhi : hi ≤ hi') :
    Follows blocks lo' hi' φ m n := by
  intro d es hslots hpending
  obtain ⟨hfst, hsnd, hfallbacks, hrest⟩ :=
    h d es hslots fun o ho ho' => hpending o (by omega) (by omega)
  exact ⟨hfst, hsnd, hfallbacks, fun o ho => hrest o (by omega)⟩

/-- What asks for comments behind the start of a construct. -/
theorem fromStart {start lead : Nat} (h : Follows blocks (start + lead) hi φ m n) :
    Follows blocks start hi φ m n :=
  h.widen (Nat.le_add_right start lead) (Nat.le_refl hi)

/-- Only the blocks between the two offsets count. -/
theorem congr (h : Follows blocks lo hi φ m n)
    (heq : ∀ o, lo ≤ o → o < hi → blocks' o = blocks o) : Follows blocks' lo hi φ m n :=
  fun d es hslots hpending => h d es hslots fun o ho ho' => (hpending o ho ho').trans (heq o ho ho')

theorem pure (a : β) : Follows blocks lo hi φ (pure (φ a)) (pure a) :=
  fun _ _ hslots _ => ⟨rfl, hslots, rfl, fun _ _ => rfl⟩

/-- One visit after another one that asks for other comments. -/
theorem bind_of_apart {lo₁ hi₁ lo₂ hi₂ : Nat} {f : α → Lowering α'} {g : β → Numbering β'}
    (hm : Follows blocks lo₁ hi₁ φ m n) (hf : ∀ a, Follows blocks lo₂ hi₂ ψ (f (φ a)) (g a))
    (hapart : ∀ o, lo₁ ≤ o → o < hi₁ → ¬(lo₂ ≤ o ∧ o < hi₂))
    (hin₁ : ∀ o, lo₁ ≤ o → o < hi₁ → lo ≤ o ∧ o < hi)
    (hin₂ : ∀ o, lo₂ ≤ o → o < hi₂ → lo ≤ o ∧ o < hi) :
    Follows blocks lo hi ψ (m >>= f) (n >>= g) := by
  intro d es hslots hpending
  obtain ⟨hfst, hsnd, hfallbacks, hrest⟩ :=
    hm d es hslots fun o ho ho' => hpending o (hin₁ o ho ho').1 (hin₁ o ho ho').2
  have hpending' (o : Nat) (ho : lo₂ ≤ o) (ho' : o < hi₂) :
      DocComments.blockAt? (m d).2.pending o = blocks o := by
    have := hapart o
    rw [hrest o (by omega), hpending o (hin₂ o ho ho').1 (hin₂ o ho ho').2]
  obtain ⟨hfst', hsnd', hfallbacks', hrest'⟩ := hf (n es).1 (m d).2 (n es).2 hsnd hpending'
  have hrun : (m >>= f) d = f (φ (n es).1) (m d).2 := by rw [← hfst]; rfl
  rw [hrun]
  refine ⟨hfst', hsnd', hfallbacks'.trans hfallbacks, fun o ho => ?_⟩
  have := hin₁ o
  have := hin₂ o
  rw [hrest' o (by omega), hrest o (by omega)]

/-- In the order of the text. -/
theorem bind {mid : Nat} {f : α → Lowering α'} {g : β → Numbering β'}
    (hm : Follows blocks lo mid φ m n) (hf : ∀ a, Follows blocks mid hi ψ (f (φ a)) (g a))
    (hlo : lo ≤ mid) (hhi : mid ≤ hi) : Follows blocks lo hi ψ (m >>= f) (n >>= g) :=
  hm.bind_of_apart hf (by omega) (by omega) (by omega)

/-- Against the order of the text. -/
theorem bindAfter {mid : Nat} {f : α → Lowering α'} {g : β → Numbering β'}
    (hm : Follows blocks mid hi φ m n) (hf : ∀ a, Follows blocks lo mid ψ (f (φ a)) (g a))
    (hlo : lo ≤ mid) (hhi : mid ≤ hi) : Follows blocks lo hi ψ (m >>= f) (n >>= g) :=
  hm.bind_of_apart hf (by omega) (by omega) (by omega)

/-- A step that asks for no comments. -/
theorem andThen {f : α → Lowering α'} {g : β → Numbering β'} (hm : Follows blocks lo hi φ m n)
    (hf : ∀ a, Follows blocks hi hi ψ (f (φ a)) (g a)) :
    Follows blocks lo hi ψ (m >>= f) (n >>= g) :=
  hm.bind_of_apart hf (by omega) (by omega) (by omega)

theorem map {k : α → α'} {k' : β → β'} (h : Follows blocks lo hi φ m n)
    (hk : ∀ a, k (φ a) = ψ (k' a)) :
    Follows blocks lo hi ψ (m >>= fun a => Pure.pure (k a)) (n >>= fun a => Pure.pure (k' a)) :=
  h.andThen fun a => by
    rw [hk a]
    exact .pure (k' a)

/-- The comment that is taken no longer waits. -/
theorem take {start : Nat} {f : Option Doc.Block → Lowering α} (hlo : lo ≤ start) (hhi : start < hi)
    (h : Follows (Function.update blocks start none) lo hi φ (f (blocks start)) n) :
    Follows blocks lo hi φ (Lowering.take start >>= f) n := by
  intro d es hslots hpending
  have hrun : (Lowering.take start >>= f) d = f (blocks start)
      { d with pending := d.pending.filter fun c => c.target != start } := by
    rw [← hpending start hlo hhi]
    rfl
  obtain ⟨hfst, hsnd, hfallbacks, hrest⟩ :=
    h { d with pending := d.pending.filter fun c => c.target != start } es hslots fun o ho ho' => by
      rw [blockAt?_filter, Function.update_apply, Function.update_apply, hpending o ho ho']
  rw [hrun]
  refine ⟨hfst, hsnd, hfallbacks, fun o ho => ?_⟩
  rw [hrest o ho, blockAt?_filter, Function.update_of_ne (by omega)]

theorem add (span : Span) (f : Form NodeId) :
    Follows blocks lo hi id (add span f.undocumented f.docs?)
      (modifyGet fun es => (es.size, es.push ⟨span, f⟩)) := by
  intro d es hslots _
  refine ⟨?_, ?_, rfl, fun _ _ => rfl⟩
  · show d.slots.size = es.size
    rw [hslots, Array.size_map]
  · show d.slots.push _ = (es.push _).map Entry.slot
    rw [hslots, Array.map_push]
    rfl

theorem give (docs : Option Doc.Block) (n : NodeId) :
    Follows blocks lo hi id (give docs n) (Numbering.give docs n) := by
  intro d es hslots _
  refine ⟨rfl, ?_, rfl, fun _ _ => rfl⟩
  show d.slots.modify n _ = (es.modify n _).map Entry.slot
  rw [hslots, map_modify _ (Entry.slot_give docs)]

theorem forM_give (docs : Option Doc.Block) (o : Option NodeId) :
    Follows blocks lo hi id (o.forM (Lowering.give docs)) (o.forM (Numbering.give docs)) := by
  cases o with
  | none => exact .pure ()
  | some n => exact .give docs n

theorem giveAssigned (docs : Option Doc.Block) (n : NodeId) :
    Follows blocks lo hi id (giveAssigned docs n) (Numbering.giveAssigned docs n) := by
  intro d es hslots hpending
  have hassigned : d.slots[n]?.bind Slot.assigned? = es[n]?.bind fun e => e.form.assigned? := by
    rw [hslots, Array.getElem?_map, Option.bind_map]
    exact congrArg (es[n]?.bind ·) (funext Entry.assigned?_slot)
  have hrun : Lowering.giveAssigned docs n d
      = (es[n]?.bind fun e => e.form.assigned?).forM (Lowering.give docs) d := by
    rw [← hassigned]
    rfl
  rw [hrun]
  exact forM_give docs _ d es hslots hpending

end Follows

/-! ### Trees in a row -/

/-- Only an expression may start where the comment of its statement was claimed. -/
def Place.slack : Place → Nat
  | expression | operand => 1
  | _ => 0

/-- An expression that has nothing in front of its first child is made of expressions. -/
theorem Form.slack_of_mem_parts {form : Form Tree} (hlead : form.lead = 0)
    (hform : form.isExpression = true) : ∀ p ∈ form.parts, p.1.slack = 1 := by
  cases form with
  | comma items => simp [parts, Place.slack]
  | binary _ _ _ | assign _ _ _ | conditional _ _ _ | member _ _ | element _ _ | update _ _ =>
    simp [parts, Place.slack]
  | invoke callee args => simp [parts, Place.slack]
  | program _ | var _ | statement _ => cases hform
  | _ => cases hlead

/-- Trees in a row behind the offset whose comment the statement around them claimed. -/
structure Past (claimed : Option Nat) (start : Nat) (parts : List (Place × Tree)) (stop : Nat) :
    Prop extends Row start parts stop where
  past : ∀ c ∈ claimed, ∀ p ∈ parts, c < start + p.1.slack

namespace Past

variable {claimed : Option Nat} {start stop : Nat} {parts parts' : List (Place × Tree)}

theorem split (h : Past claimed start (parts ++ parts') stop) :
    ∃ middle, Past claimed start parts middle ∧ Past claimed middle parts' stop := by
  obtain ⟨middle, hrow, hrow'⟩ := Row.append_iff.1 h.toRow
  refine ⟨middle, ⟨hrow, fun c hc p hp => ?_⟩, hrow', fun c hc p hp => ?_⟩
  · exact h.past c hc p (List.mem_append_left _ hp)
  · have := h.past c hc p (List.mem_append_right _ hp)
    have := hrow.le
    omega

theorem cons {p : Place × Tree} (h : Past claimed start (p :: parts) stop) :
    ∃ middle, Past claimed start [p] middle ∧ Past claimed middle parts stop := by
  have hsplit : Past claimed start ([p] ++ parts) stop := h
  exact hsplit.split

variable {place : Place} {span : Span} {form : Form Tree}

/-- What is no expression starts behind the offset. -/
theorem lt_of_isExpression_eq_false (h : Past claimed start [(place, .node span form)] stop)
    (hform : form.isExpression = false) : ∀ c ∈ claimed, c < span.start := by
  intro c hc
  obtain ⟨-, hadmits, hstart, -⟩ := Row.cons_iff.1 h.toRow
  have hlt : c < start + place.slack := h.past c hc _ List.mem_cons_self
  have hslack : place.slack = 0 := by
    cases place with
    | expression => exact absurd (hform.symm.trans hadmits) nofun
    | operand =>
      have hexpr : form.isExpression = true := by
        cases form <;> first | rfl | exact absurd hadmits nofun
      exact absurd (hform.symm.trans hexpr) nofun
    | _ => rfl
  rw [hslack] at hlt
  exact Nat.lt_of_lt_of_le hlt hstart

/-- The parts of a construct are behind the offset, too. -/
theorem inside (h : Past claimed start [(place, .node span form)] stop) :
    Past claimed (span.start + form.lead) form.parts span.stop := by
  obtain ⟨hformed, -, hrest⟩ := Row.cons_iff.1 h.toRow
  have hstart : start ≤ span.start := hrest.1
  refine ⟨hformed.row, fun c hc p hp => ?_⟩
  have hlt : c < start + place.slack := h.past c hc _ List.mem_cons_self
  have hslack : place.slack ≤ 1 := by cases place <;> decide
  have hlead := form.lead_le_one
  cases hform : form.isExpression with
  | false =>
    have := h.lt_of_isExpression_eq_false hform c hc
    omega
  | true =>
    by_cases hzero : form.lead = 0
    · have := Form.slack_of_mem_parts hzero hform p hp
      omega
    · omega

end Past

/-! ### Visits -/

/-- The blocks that wait when the comment at an offset has been claimed. -/
def unclaimed (blockAt : Nat → Option Doc.Block) (claimed : Option Nat) (o : Nat) :
    Option Doc.Block :=
  if claimed = some o then none else blockAt o

section Visits

variable {blockAt : Nat → Option Doc.Block}

theorem unclaimed_of_lt {claimed : Option Nat} {o : Nat} (h : ∀ c ∈ claimed, c < o) :
    unclaimed blockAt claimed o = blockAt o :=
  if_neg fun heq => Nat.lt_irrefl o (h o heq)

/-- The construct and its documentation apart. -/
abbrev apart (f : Form NodeId) : Form NodeId × Option Doc.Block := (f.undocumented, f.docs?)

/-- A construct is added when its children have been visited. -/
theorem Follows.node {blocks : Nat → Option Doc.Block} {lo hi : Nat} {offer : Offer} {span : Span}
    {form form' : Form Tree}
    (h : Follows blocks lo hi apart (visitForm offer span.start form) (numberForm form')) :
    Follows blocks lo hi id ((Tree.node span form).visit offer) (Tree.node span form').number :=
  h.andThen fun f => .add span f

/-- What is taken at the start of a construct is not asked for behind it. -/
theorem Follows.takeStart {α β : Type} {blocks : Nat → Option Doc.Block} {start hi : Nat}
    {φ : β → α} {f : Option Doc.Block → Lowering α} {n : Numbering β} (hhi : start < hi)
    (h : Follows blocks (start + 1) hi φ (f (blocks start)) n) :
    Follows blocks start hi φ (Lowering.take start >>= f) n := by
  refine .take (Nat.le_refl start) hhi ((h.congr fun o ho _ => ?_).fromStart)
  rw [Function.update_of_ne (by omega)]

/-- A declaration around its value. -/
theorem follows_declared {claimed : Option Nat} {start hi : Nat} {value : Option Tree}
    (hvalue : Follows (unclaimed blockAt claimed) (start + 1) hi id (visitOption {} value)
      (numberOption (documentOption blockAt { claimed } value)))
    (hown : ∀ c ∈ claimed, c < start) (hne : start < hi) (position : Position)
    (offered docs : Option Doc.Block) (name : String) :
    Follows (unclaimed blockAt claimed) (start + offered.toList.length) hi apart
      (visitForm { position, block := offered } start (.declaration name docs value))
      (numberForm (documentForm blockAt { position, claimed, offered } start
        (.declaration name docs value))) := by
  have hgive (docs : Option Doc.Block) : Follows (unclaimed blockAt claimed) (start + 1) hi apart
      (do let value ← visitOption {} value
          value.forM (give docs)
          return (.declaration name none value, docs))
      (numberForm (.declaration name docs
        ((documentOption blockAt { claimed } value).map (giveToFunction docs)))) := by
    rw [numberForm, numberOption_giveToFunction]
    simp only [bind_assoc, pure_bind]
    exact hvalue.andThen fun n => (Follows.forM_give docs n).map fun _ => rfl
  match position, offered with
  | .keyHead, none => exact (hgive none).fromStart
  | .keyHead, some docs => exact hgive none
  | .statement, some docs | .loopHead, some docs => exact hgive (some docs)
  | .statement, none | .loopHead, none =>
    rw [Option.toList_none, List.length_nil, Nat.add_zero]
    refine .takeStart hne ?_
    rw [unclaimed_of_lt hown]
    exact hgive (blockAt start)

mutual

theorem follows_visit (position : Position) (t : Tree) {claimed : Option Nat} {lo hi : Nat}
    {place : Place} (h : Past claimed lo [(place, t)] hi) :
    Follows (unclaimed blockAt claimed) lo hi id (t.visit { position })
      (t.document blockAt { position, claimed }).number := by
  cases t with
  | node span form =>
    obtain ⟨-, -, hstart, hspan, hstop⟩ := Row.cons_iff.1 h.toRow
    have hform := follows_visitForm position form h.inside (h.lt_of_isExpression_eq_false ·) hspan
    exact hform.node.widen hstart hstop.le

theorem follows_visitForm (position : Position) (form : Form Tree) {claimed : Option Nat}
    {start hi : Nat} (h : Past claimed (start + form.lead) form.parts hi)
    (hown : form.isExpression = false → ∀ c ∈ claimed, c < start) (hne : start < hi) :
    Follows (unclaimed blockAt claimed) start hi apart (visitForm { position } start form)
      (numberForm (documentForm blockAt { position, claimed } start form)) := by
  -- children in the order of the text, except that the body of a `for` statement comes first
  cases form with
  | program items | block items | parameters items | comma items | array items | object items =>
    exact ((follows_visitAll items h).map fun _ => rfl).fromStart
  | var items =>
    have hitems (offered : Option Doc.Block) : Follows (unclaimed blockAt claimed)
        (start + offered.toList.length) hi apart
        (do return (.var (← visitDeclarations { position, block := offered } items), none))
        (numberForm (.var (documentDeclarations blockAt { position, claimed, offered } items))) :=
      (follows_visitDeclarations position offered items h).map fun _ => rfl
    match position with
    | .keyHead | .loopHead => exact hitems none
    | .statement =>
      refine .take le_rfl hne ?_
      rw [unclaimed_of_lt (hown rfl)]
      refine ((hitems (blockAt start)).congr fun o ho _ => ?_).fromStart
      -- the first declaration asks for a block of its own only where none is on offer
      by_cases hstart : o = start
      · subst hstart
        have hnone : blockAt o = none := by
          cases hblock : blockAt o with
          | none => rfl
          | some docs =>
            rw [hblock] at ho
            exact absurd ho (Nat.not_succ_le_self o)
        rw [Function.update_self, unclaimed_of_lt (hown rfl), hnone]
      · rw [Function.update_of_ne hstart]
  | declaration name docs value =>
    exact follows_declared (follows_visitOption .statement value h) (hown rfl) hne position none
      docs name
  | function name docs params body =>
    obtain ⟨mid, hparams, hbody⟩ := h.cons
    refine .takeStart hne ?_
    exact (follows_visit .statement params hparams).bind
      (fun _ => (follows_visit .statement body hbody).map fun _ => rfl) hparams.le hbody.le
  | returns value =>
    exact ((follows_visitOption .statement value h).map fun _ => rfl).fromStart
  | throws t | handler _ t | member t _ | group t | unary _ t | update _ t =>
    exact ((follows_visit .statement t h).map fun _ => rfl).fromStart
  | statement e =>
    refine .take le_rfl hne ?_
    -- the comment in front is gone now, also for a function that starts where the statement does
    have hexpr : Past (some start) start [(.expression, e)] hi := by
      refine ⟨h.toRow, fun c hc p hp => ?_⟩
      cases hc
      cases List.mem_singleton.1 hp
      exact Nat.lt_succ_self start
    have hblocks (o : Nat) (ho : start ≤ o) (_ : o < hi) :
        Function.update (unclaimed blockAt claimed) start none o
          = unclaimed blockAt (some start) o := by
      rcases Nat.eq_or_lt_of_le ho with rfl | hlt
      · simp [unclaimed]
      · rw [Function.update_of_ne (Nat.ne_of_gt hlt),
          unclaimed_of_lt fun c hc => (hown rfl c hc).trans hlt,
          unclaimed_of_lt fun c hc => Option.mem_some.1 hc ▸ hlt]
    rw [unclaimed_of_lt (hown rfl), documentForm, numberForm, number_giveToAssigned]
    simp only [bind_assoc, pure_bind]
    exact ((follows_visit .statement e hexpr).congr hblocks).andThen
      fun n => (Follows.giveAssigned _ n).map fun _ => rfl
  | pair key value =>
    refine .takeStart hne ?_
    rw [unclaimed_of_lt (hown rfl), documentForm, numberForm, number_giveToFunction]
    simp only [bind_assoc, pure_bind]
    exact (follows_visit .statement value h).andThen
      fun n => (Follows.give _ n).map fun _ => rfl
  | whileLoop a b | doWhile a b | binary _ a b | assign _ a b | element a b =>
    obtain ⟨mid, ha, hb⟩ := h.cons
    exact ((follows_visit .statement a ha).bind
      (fun _ => (follows_visit .statement b hb).map fun _ => rfl) ha.le hb.le).fromStart
  | forIn binding target body =>
    obtain ⟨mid, hbinding, h⟩ := h.cons
    obtain ⟨mid', htarget, hbody⟩ := h.cons
    exact ((follows_visit .statement body hbody).bindAfter
      (fun _ => (follows_visit .keyHead binding hbinding).bind
        (fun _ => (follows_visit .statement target htarget).map fun _ => rfl)
        hbinding.le htarget.le)
      (hbinding.le.trans htarget.le) hbody.le).fromStart
  | conditional a b c =>
    obtain ⟨mid, ha, h⟩ := h.cons
    obtain ⟨mid', hb, hc⟩ := h.cons
    exact (follows_visit .statement a ha).bind
      (fun _ => (follows_visit .statement b hb).bind
        (fun _ => (follows_visit .statement c hc).map fun _ => rfl) hb.le hc.le) ha.le h.le
  | construct callee args | invoke callee args =>
    obtain ⟨mid, hcallee, hargs⟩ := h.cons
    exact ((follows_visit .statement callee hcallee).bind
      (fun _ => (follows_visitAll args hargs).map fun _ => rfl) hcallee.le hargs.le).fromStart
  | branch cond yes no =>
    obtain ⟨mid, hcond, h⟩ := h.cons
    obtain ⟨mid', hyes, hno⟩ := h.cons
    exact ((follows_visit .statement cond hcond).bind
      (fun _ => (follows_visit .statement yes hyes).bind
        (fun _ => (follows_visitOption .statement no hno).map fun _ => rfl) hyes.le hno.le)
      hcond.le h.le).fromStart
  | tryBlock block handler final =>
    obtain ⟨mid', h, hfinal⟩ := h.split
    obtain ⟨mid, hblock, hhandler⟩ := h.cons
    exact ((follows_visit .statement block hblock).bind
      (fun _ => (follows_visitOption .statement handler hhandler).bind
        (fun _ => (follows_visitOption .statement final hfinal).map fun _ => rfl)
        hhandler.le hfinal.le)
      hblock.le (hhandler.le.trans hfinal.le)).fromStart
  | forLoop init test step body =>
    obtain ⟨mid₃, h, hbody⟩ := h.split
    obtain ⟨mid₂, h, hstep⟩ := h.split
    obtain ⟨mid₁, hinit, htest⟩ := h.split
    exact ((follows_visit .statement body hbody).bindAfter
      (fun _ => (follows_visitOption .loopHead init hinit).bind
        (fun _ => (follows_visitOption .statement test htest).bind
          (fun _ => (follows_visitOption .statement step hstep).map fun _ => rfl)
          htest.le hstep.le)
        hinit.le (htest.le.trans hstep.le))
      (h.le.trans hstep.le) hbody.le).fromStart
  | breaks | continues | empty | identifier _ | this | null | literal _ => exact .pure _

theorem follows_visitAll (ts : List Tree) {claimed : Option Nat} {lo hi : Nat} {place : Place}
    (h : Past claimed lo (ts.map fun t => (place, t)) hi) :
    Follows (unclaimed blockAt claimed) lo hi id (visitAll ts)
      (numberAll (documentAll blockAt { claimed } ts)) := by
  cases ts with
  | nil => exact .pure _
  | cons t ts =>
    obtain ⟨mid, hfirst, hrest⟩ := h.cons
    exact (follows_visit .statement t hfirst).bind
      (fun n => (follows_visitAll ts hrest).map fun _ => rfl) hfirst.le hrest.le

theorem follows_visitDeclarations (position : Position) (offered : Option Doc.Block)
    (ts : List Tree) {claimed : Option Nat} {lo hi : Nat}
    (h : Past claimed lo (ts.map fun t => (.declaration, t)) hi) :
    Follows (unclaimed blockAt claimed) (lo + offered.toList.length) hi id
      (visitDeclarations { position, block := offered } ts)
      (numberAll (documentDeclarations blockAt { position, claimed, offered } ts)) := by
  cases ts with
  | nil => exact .pure _
  | cons t ts =>
    obtain ⟨mid, hfirst, hrest⟩ := h.cons
    have hlt : lo < mid := hfirst.lt nofun
    have hlen : offered.toList.length ≤ 1 := by cases offered <;> simp
    obtain ⟨span, form⟩ := t
    obtain ⟨-, hadmits, hstart, hspan, hstop⟩ := Row.cons_iff.1 hfirst.toRow
    cases form with
    | declaration name docs value =>
      have hvalue : Follows (unclaimed blockAt claimed) _ _ _ _ _ :=
        follows_visitOption .statement value hfirst.inside
      have hdeclared := follows_declared hvalue (hfirst.lt_of_isExpression_eq_false rfl) hspan
        position offered docs name
      exact (hdeclared.node.widen (Nat.add_le_add_right hstart _) hstop.le).bind
        (fun n => (follows_visitDeclarations position none ts hrest).map fun _ => rfl)
        (by omega) hrest.le
    | _ => cases hadmits

theorem follows_visitOption (position : Position) (o : Option Tree) {claimed : Option Nat}
    {lo hi : Nat} {place : Place} (h : Past claimed lo (o.toList.map fun t => (place, t)) hi) :
    Follows (unclaimed blockAt claimed) lo hi id (visitOption { position } o)
      (numberOption (documentOption blockAt { position, claimed } o)) := by
  cases o with
  | none => exact .pure _
  | some t => exact (follows_visit position t h).map fun _ => rfl

end

/-- Visiting a program claims what documenting it gives out. -/
theorem follows_program {span : Span} {items : List Tree}
    (h : (Tree.node span (.program items)).Formed) :
    Follows blockAt span.start span.stop id ((Tree.node span (.program items)).visit {})
      ((Tree.node span (.program items)).document blockAt {}).number := by
  have hblocks : unclaimed blockAt none = blockAt := funext fun o => if_neg nofun
  have hrow : Past none _ _ _ := ⟨h.row, fun c hc => absurd hc nofun⟩
  have hitems : Follows (unclaimed blockAt none) _ _ _ _ _ := follows_visitAll items hrow
  rw [hblocks] at hitems
  exact .node (hitems.map fun _ => rfl)

end Visits

end ScriptTypes.Script
