import ScriptTypes.Proofs.Script.Lowering

/-!
# Visiting trees

A visit adds the constructs of a tree to a draft, children before their parents and the body of a
loop before its head. It claims comments on the way, each of them once, so that what a construct
gets depends on what has been visited before.

Main statements: `steady_visit`, visits leave the spans of the nodes that were there before, and
`spanAt_visit`, a visited tree has its span in the draft.
-/

namespace ScriptTypes.Script

open Lowering (add claim give giveAssigned spanAt take)

/-- What a visit hands down to the parts of a construct. -/
structure Offer where
  position : Position := .statement
  /-- The block in front of the list of declarations, for the first of them. -/
  block : Option Doc.Block := none

namespace Offer

/-- Claim the block in front of a list of declarations. -/
def claimList (offer : Offer) (start : Nat) : Lowering (Option Doc.Block) :=
  match offer.position with
  | .statement => take start
  | _ => return none

/-- Claim the block of a declaration. -/
def claimDeclaration (offer : Offer) (start : Nat) : Lowering (Option Doc.Block) :=
  match offer.position with
  | .keyHead => return none
  | _ => claim offer.block start

end Offer

mutual

/-- Add the constructs of a tree to a draft and return the node of its root. -/
def Tree.visit (offer : Offer) : Tree → Lowering NodeId
  | .node span form => do
    let (form, docs) ← visitForm offer span.start form
    add span form docs

/-- Visit the children of a construct. This returns the construct over their nodes and its
documentation, if it is a function or a declaration. -/
def visitForm (offer : Offer) (start : Nat) :
    Form Tree → Lowering (Form NodeId × Option Doc.Block)
  | .program items => return (.program (← visitAll items), none)
  | .block items => return (.block (← visitAll items), none)
  | .var items => do
    let docs ← offer.claimList start
    return (.var (← visitDeclarations { offer with block := docs } items), none)
  | .declaration name _ value => do
    let docs ← offer.claimDeclaration start
    let value ← visitOption {} value
    value.forM (give docs)
    return (.declaration name none value, docs)
  | .function name _ params body => do
    let docs ← take start
    let params ← params.visit {}
    let body ← body.visit {}
    return (.function name none params body, docs)
  | .parameters items => return (.parameters (← visitAll items), none)
  | .returns value => return (.returns (← visitOption {} value), none)
  | .branch cond yes no => do
    let cond ← cond.visit {}
    let yes ← yes.visit {}
    let no ← visitOption {} no
    return (.branch cond yes no, none)
  | .forLoop init test update body => do
    let body ← body.visit {}
    let init ← visitOption { position := .loopHead } init
    let test ← visitOption {} test
    let update ← visitOption {} update
    return (.forLoop init test update body, none)
  | .forIn binding target body => do
    let body ← body.visit {}
    let binding ← binding.visit { position := .keyHead }
    let target ← target.visit {}
    return (.forIn binding target body, none)
  | .whileLoop cond body => do
    let cond ← cond.visit {}
    let body ← body.visit {}
    return (.whileLoop cond body, none)
  | .doWhile body cond => do
    let body ← body.visit {}
    let cond ← cond.visit {}
    return (.doWhile body cond, none)
  | .throws value => return (.throws (← value.visit {}), none)
  | .tryBlock block handler final => do
    let block ← block.visit {}
    let handler ← visitOption {} handler
    let final ← visitOption {} final
    return (.tryBlock block handler final, none)
  | .handler param body => return (.handler param (← body.visit {}), none)
  | .breaks => return (.breaks, none)
  | .continues => return (.continues, none)
  | .empty => return (.empty, none)
  | .statement expr => do
    let docs ← take start
    let expr ← expr.visit {}
    giveAssigned docs expr
    return (.statement expr, none)
  | .comma items => return (.comma (← visitAll items), none)
  | .identifier name => return (.identifier name, none)
  | .this => return (.this, none)
  | .null => return (.null, none)
  | .literal value => return (.literal value, none)
  | .array items => return (.array (← visitAll items), none)
  | .object items => return (.object (← visitAll items), none)
  | .pair key value => do
    let docs ← take start
    let value ← value.visit {}
    give docs value
    return (.pair key value, none)
  | .binary op lhs rhs => do
    let lhs ← lhs.visit {}
    let rhs ← rhs.visit {}
    return (.binary op lhs rhs, none)
  | .assign op lhs rhs => do
    let lhs ← lhs.visit {}
    let rhs ← rhs.visit {}
    return (.assign op lhs rhs, none)
  | .conditional cond yes no => do
    let cond ← cond.visit {}
    let yes ← yes.visit {}
    let no ← no.visit {}
    return (.conditional cond yes no, none)
  | .construct callee args => do
    let callee ← callee.visit {}
    let args ← visitAll args
    return (.construct callee args, none)
  | .invoke callee args => do
    let callee ← callee.visit {}
    let args ← visitAll args
    return (.invoke callee args, none)
  | .member target property => return (.member (← target.visit {}) property, none)
  | .element target index => do
    let target ← target.visit {}
    let index ← index.visit {}
    return (.element target index, none)
  | .group inner => return (.group (← inner.visit {}), none)
  | .unary op operand => return (.unary op (← operand.visit {}), none)
  | .update op operand => return (.update op (← operand.visit {}), none)

def visitAll : List Tree → Lowering (List NodeId)
  | [] => return []
  | t :: ts => do
    let n ← t.visit {}
    return n :: (← visitAll ts)

/-- The block on offer goes to the first declaration only. -/
def visitDeclarations (offer : Offer) : List Tree → Lowering (List NodeId)
  | [] => return []
  | t :: ts => do
    let n ← t.visit offer
    return n :: (← visitDeclarations { offer with block := none } ts)

def visitOption (offer : Offer) : Option Tree → Lowering (Option NodeId)
  | none => return none
  | some t => return some (← t.visit offer)

end

theorem visit_join (op : BinaryOp) (lhs rhs : Tree) :
    (Chain.join op lhs rhs).visit {}
      = (do let l ← lhs.visit {}
            let r ← rhs.visit {}
            add ⟨lhs.span.start, rhs.span.stop⟩ (.binary op l r)) := by
  simp [Chain.join, Tree.visit, visitForm]

/-! ### Spans in drafts -/

/-- The spans of the nodes of a draft. -/
def Draft.spans (d : Draft) : List Span := d.slots.toList.map Slot.span

namespace Lowering

variable {α β : Type}

/-- All nodes of a draft keep their spans. -/
def Steady (m : Lowering α) : Prop := ∀ d, d.spans <+: (m d).2.spans

namespace Steady

theorem pure (a : α) : Steady (pure a) := fun d => List.prefix_refl d.spans

theorem bind {m : Lowering α} {f : α → Lowering β} (hm : Steady m) (hf : ∀ a, Steady (f a)) :
    Steady (m >>= f) :=
  fun d => (hm d).trans (hf (m d).1 (m d).2)

end Steady

theorem steady_add (span : Span) (form : Form NodeId) (docs : Option Doc.Block) :
    Steady (add span form docs) := by
  intro d
  refine ⟨[span.stored], ?_⟩
  show _ = (d.slots.push _).toList.map Slot.span
  simp [Draft.spans]

theorem steady_take (offset : Nat) : Steady (take offset) := fun d => List.prefix_refl d.spans

theorem steady_claim (offered : Option Doc.Block) (offset : Nat) :
    Steady (claim offered offset) := by
  cases offered with
  | none => exact steady_take offset
  | some docs => exact .pure _

theorem span_give (docs : Option Doc.Block) (slot : Slot) : (slot.give docs).span = slot.span := by
  unfold Slot.give
  split <;> rfl

theorem steady_give (docs : Option Doc.Block) (n : NodeId) : Steady (give docs n) := by
  intro d
  have hspans : d.spans = (give docs n d).2.spans := by
    refine List.ext_getElem? fun i => ?_
    show _ = ((d.slots.modify n (·.give docs)).toList.map Slot.span)[i]?
    simp only [Draft.spans, List.getElem?_map, Array.getElem?_toList, Array.getElem?_modify]
    split
    · rw [Option.map_map]
      exact congrArg (Option.map · d.slots[i]?) (funext fun slot => (span_give docs slot).symm)
    · rfl
  rw [← hspans]

theorem Steady.forM {o : Option NodeId} {f : NodeId → Lowering Unit} (h : ∀ n, Steady (f n)) :
    Steady (o.forM f) := by
  cases o with
  | none => exact .pure ()
  | some n => exact h n

theorem steady_giveAssigned (docs : Option Doc.Block) (n : NodeId) :
    Steady (giveAssigned docs n) :=
  Steady.bind (fun d => List.prefix_refl d.spans) fun _ => .forM (steady_give docs)

end Lowering

open Lowering (Steady steady_add steady_claim steady_give steady_giveAssigned steady_take)

theorem Offer.steady_claimList (offer : Offer) (start : Nat) : Steady (offer.claimList start) := by
  unfold claimList
  split
  · exact steady_take start
  · exact .pure _

theorem Offer.steady_claimDeclaration (offer : Offer) (start : Nat) :
    Steady (offer.claimDeclaration start) := by
  unfold claimDeclaration
  split
  · exact .pure _
  · exact steady_claim _ start

mutual

theorem steady_visit (offer : Offer) (t : Tree) : Steady (t.visit offer) := by
  cases t with
  | node span form =>
    exact .bind (steady_visitForm offer span.start form) fun _ => steady_add _ _ _

theorem steady_visitForm (offer : Offer) (start : Nat) (f : Form Tree) :
    Steady (visitForm offer start f) := by
  cases f with
  | program items | block items | parameters items | comma items | array items | object items =>
    exact .bind (steady_visitAll items) fun _ => .pure _
  | var items =>
    exact .bind (offer.steady_claimList start) fun docs =>
      .bind (steady_visitDeclarations _ items) fun _ => .pure _
  | declaration _ _ value =>
    exact .bind (offer.steady_claimDeclaration start) fun docs =>
      .bind (steady_visitOption {} value) fun _ => .bind (.forM (steady_give docs)) fun _ => .pure _
  | function _ _ params body =>
    exact .bind (steady_take start) fun _ => .bind (steady_visit {} params) fun _ =>
      .bind (steady_visit {} body) fun _ => .pure _
  | returns value => exact .bind (steady_visitOption {} value) fun _ => .pure _
  | throws t | handler _ t | member t _ | group t | unary _ t | update _ t =>
    exact .bind (steady_visit {} t) fun _ => .pure _
  | statement e =>
    exact .bind (steady_take start) fun docs => .bind (steady_visit {} e) fun n =>
      .bind (steady_giveAssigned docs n) fun _ => .pure _
  | pair _ value =>
    exact .bind (steady_take start) fun docs => .bind (steady_visit {} value) fun n =>
      .bind (steady_give docs n) fun _ => .pure _
  | whileLoop a b | doWhile a b | binary _ a b | assign _ a b | element a b =>
    exact .bind (steady_visit {} a) fun _ => .bind (steady_visit {} b) fun _ => .pure _
  | forIn binding target body =>
    exact .bind (steady_visit {} body) fun _ => .bind (steady_visit _ binding) fun _ =>
      .bind (steady_visit {} target) fun _ => .pure _
  | conditional a b c =>
    exact .bind (steady_visit {} a) fun _ => .bind (steady_visit {} b) fun _ =>
      .bind (steady_visit {} c) fun _ => .pure _
  | construct callee args | invoke callee args =>
    exact .bind (steady_visit {} callee) fun _ => .bind (steady_visitAll args) fun _ => .pure _
  | branch cond yes no =>
    exact .bind (steady_visit {} cond) fun _ => .bind (steady_visit {} yes) fun _ =>
      .bind (steady_visitOption {} no) fun _ => .pure _
  | tryBlock block handler final =>
    exact .bind (steady_visit {} block) fun _ => .bind (steady_visitOption {} handler) fun _ =>
      .bind (steady_visitOption {} final) fun _ => .pure _
  | forLoop init test step body =>
    exact .bind (steady_visit {} body) fun _ => .bind (steady_visitOption _ init) fun _ =>
      .bind (steady_visitOption {} test) fun _ => .bind (steady_visitOption {} step) fun _ =>
        .pure _
  | breaks | continues | empty | identifier _ | this | null | literal _ => exact .pure _

theorem steady_visitAll (ts : List Tree) : Steady (visitAll ts) := by
  cases ts with
  | nil => exact .pure _
  | cons t ts =>
    exact .bind (steady_visit {} t) fun _ => .bind (steady_visitAll ts) fun _ => .pure _

theorem steady_visitDeclarations (offer : Offer) (ts : List Tree) :
    Steady (visitDeclarations offer ts) := by
  cases ts with
  | nil => exact .pure _
  | cons t ts =>
    exact .bind (steady_visit offer t) fun _ =>
      .bind (steady_visitDeclarations _ ts) fun _ => .pure _

theorem steady_visitOption (offer : Offer) (o : Option Tree) : Steady (visitOption offer o) := by
  cases o with
  | none => exact .pure _
  | some t => exact .bind (steady_visit offer t) fun _ => .pure _

end

/-! ### Reading spans back -/

theorem getElem?_spans_visit (offer : Offer) (t : Tree) (d : Draft) :
    (t.visit offer d).2.spans[(t.visit offer d).1]? = some t.span.stored := by
  cases t with
  | node span form =>
    generalize hform : visitForm offer span.start form d = r
    have hvisit : (Tree.node span form).visit offer d = add span r.1.1 r.1.2 r.2 := by
      rw [← hform]
      rfl
    rw [hvisit]
    show ((r.2.slots.push _).toList.map Slot.span)[r.2.slots.size]? = _
    simp [Tree.span]

variable {α β : Type}

/-- The root of a visited tree has the tree's span, also when more has been added to the draft. -/
theorem spanAt_of_steady (offer : Offer) (t : Tree) {m : NodeId → Lowering β}
    (hm : ∀ n, Steady (m n)) (k : NodeId → β → Option Span → Lowering α) :
    (do let n ← t.visit offer
        let b ← m n
        k n b (← spanAt n))
      = (do let n ← t.visit offer
            let b ← m n
            k n b (some t.span.stored)) := by
  funext d
  have hspan : (m (t.visit offer d).1 (t.visit offer d).2).2.spans[(t.visit offer d).1]?
      = some t.span.stored := by
    obtain ⟨hlt, heq⟩ := List.getElem?_eq_some_iff.1 (getElem?_spans_visit offer t d)
    rw [← heq]
    exact List.prefix_iff_getElem?.1 (hm _ _) _ hlt
  rw [Draft.spans, List.getElem?_map, Array.getElem?_toList] at hspan
  exact congrArg (k _ _ · _) hspan

theorem spanAt_visit (offer : Offer) (t : Tree) (k : NodeId → Option Span → Lowering α) :
    (do let n ← t.visit offer
        k n (← spanAt n))
      = (do let n ← t.visit offer
            k n (some t.span.stored)) :=
  spanAt_of_steady offer t (m := fun _ => pure ()) (fun _ => .pure ()) fun n _ => k n

end ScriptTypes.Script
