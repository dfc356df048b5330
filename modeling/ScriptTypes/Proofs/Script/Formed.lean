import Mathlib
import ScriptTypes.Script.Documented
import ScriptTypes.Script.Lexeme

/-!
# Well-formed trees

Each child of a construct has a place, which says what may stand there: a statement, an expression,
the parameters of a function and so on. A tree is well-formed if every child is of the kind that
its place asks for, if names are names, and if the spans of children follow one another inside the
span of their parent, each of them covering some text.
-/

namespace ScriptTypes.Script

/-- What a construct asks for at one of its places. -/
inductive Place where
  | statement
  | block
  | declaration
  | parameters
  | name
  | handler
  | pair
  /-- An expression. -/
  | expression
  /-- An expression that is no list with commas. -/
  | operand
  /-- What a loop that counts begins with: declarations or an expression. -/
  | loopHead
  /-- What a loop over keys assigns to: one declaration or an expression. -/
  | keyHead
  deriving DecidableEq, Repr

namespace Form

variable {α β : Type}

def isOperand : Form α → Bool
  | function .. | identifier _ | this | null | literal _ | array _ | object _ | binary .. | assign ..
  | conditional .. | construct .. | invoke .. | member .. | element .. | group _ | unary ..
  | update .. => true
  | _ => false

def isExpression : Form α → Bool
  | comma _ => true
  | f => f.isOperand

def isStatement : Form α → Bool
  | block _ | var _ | function (some _) .. | returns _ | branch .. | forLoop .. | forIn ..
  | whileLoop .. | doWhile .. | throws _ | tryBlock .. | breaks | continues | empty
  | statement _ => true
  | _ => false

/-- The children of a construct with their places, in the order of the text. -/
def parts : Form α → List (Place × α)
  | program items | block items => items.map fun t => (.statement, t)
  | var items => items.map fun t => (.declaration, t)
  | parameters items => items.map fun t => (.name, t)
  | comma items | array items => items.map fun t => (.operand, t)
  | object items => items.map fun t => (.pair, t)
  | declaration _ _ value => value.toList.map fun t => (.operand, t)
  | returns value => value.toList.map fun t => (.expression, t)
  | function _ _ params body => [(.parameters, params), (.block, body)]
  | branch cond yes no =>
    (.expression, cond) :: (.statement, yes) :: no.toList.map fun t => (.statement, t)
  | forLoop init test step body =>
    init.toList.map (fun t => (.loopHead, t)) ++ test.toList.map (fun t => (.expression, t))
      ++ step.toList.map (fun t => (.expression, t)) ++ [(.statement, body)]
  | forIn binding target body => [(.keyHead, binding), (.expression, target), (.statement, body)]
  | whileLoop cond body => [(.expression, cond), (.statement, body)]
  | doWhile body cond => [(.statement, body), (.expression, cond)]
  | tryBlock body onThrow atEnd =>
    (.block, body) :: onThrow.toList.map (fun t => (.handler, t))
      ++ atEnd.toList.map (fun t => (.block, t))
  | handler _ body => [(.block, body)]
  | throws e | statement e | group e => [(.expression, e)]
  | pair _ e | member e _ | unary _ e | update _ e => [(.operand, e)]
  | binary _ lhs rhs | assign _ lhs rhs => [(.operand, lhs), (.operand, rhs)]
  | element target index => [(.operand, target), (.expression, index)]
  | conditional cond yes no => [(.operand, cond), (.operand, yes), (.operand, no)]
  | construct callee args | invoke callee args =>
    (.operand, callee) :: args.map fun t => (.operand, t)
  | breaks | continues | empty | identifier _ | this | null | literal _ => []

theorem map_snd_parts (f : Form α) : f.parts.map Prod.snd = f.children := by
  cases f <;> simp [parts, children, Function.comp_def]

/-- The least number of bytes in front of the first child. -/
def lead : Form α → Nat
  | program _ | var _ | statement _ | comma _ | binary .. | assign .. | conditional .. | invoke ..
  | member .. | element .. | update .. => 0
  | _ => 1

theorem lead_le_one (f : Form α) : f.lead ≤ 1 := by
  cases f <;> simp [lead]

end Form

namespace Place

variable {α : Type}

/-- May a construct stand at a place? -/
def admits : Place → Form α → Bool
  | statement, f => f.isStatement
  | block, .block _ => true
  | declaration, .declaration .. => true
  | parameters, .parameters _ => true
  | name, .identifier _ => true
  | handler, .handler .. => true
  | pair, .pair .. => true
  | expression, f => f.isExpression
  | operand, f => f.isOperand
  | loopHead, .var _ => true
  | loopHead, f => f.isExpression
  | keyHead, .var [_] => true
  | keyHead, f => f.isExpression
  | _, _ => false

end Place

/-- A name has characters, which are those of names. -/
structure IsName (name : String) : Prop where
  ne_nil : name.toList ≠ []
  isNameChar : ∀ c ∈ name.toList, Lexeme.isNameChar c = true

/-- What a construct calls a name is one. -/
def Form.Named {α : Type} : Form α → Prop
  | identifier name | declaration name _ _ | function (some name) _ _ _ | handler name _
  | member _ name => IsName name
  | _ => True

/-! ### Spans in a row -/

/-- Spans that cover some text each and follow one another between two offsets. -/
def Lined : (start : Nat) → List Span → (stop : Nat) → Prop
  | start, [], stop => start ≤ stop
  | start, s :: spans, stop => start ≤ s.start ∧ s.start < s.stop ∧ Lined s.stop spans stop

namespace Lined

variable {start stop : Nat} {spans spans' : List Span}

theorem le (h : Lined start spans stop) : start ≤ stop := by
  induction spans generalizing start with
  | nil => exact h
  | cons s spans ih =>
    obtain ⟨hstart, hs, hrest⟩ := h
    have := ih hrest
    omega

theorem lt (h : Lined start spans stop) (hne : spans ≠ []) : start < stop := by
  match spans with
  | [] => exact absurd rfl hne
  | s :: spans =>
    obtain ⟨hstart, hs, hrest⟩ := h
    have := hrest.le
    omega

theorem widen {start' stop' : Nat} (h : Lined start spans stop) (hstart : start' ≤ start)
    (hstop : stop ≤ stop') : Lined start' spans stop' := by
  induction spans generalizing start start' with
  | nil => exact Nat.le_trans hstart (Nat.le_trans h hstop)
  | cons s spans ih =>
    obtain ⟨hs, hne, hrest⟩ := h
    exact ⟨Nat.le_trans hstart hs, hne, ih hrest (Nat.le_refl _)⟩

theorem append_iff :
    Lined start (spans ++ spans') stop ↔ ∃ middle, Lined start spans middle ∧ Lined middle spans' stop := by
  induction spans generalizing start with
  | nil =>
    refine ⟨fun h => ⟨start, Nat.le_refl _, h⟩, ?_⟩
    rintro ⟨middle, hstart, h⟩
    exact h.widen hstart (Nat.le_refl _)
  | cons s spans ih =>
    constructor
    · rintro ⟨hs, hne, hrest⟩
      obtain ⟨middle, hleft, hright⟩ := ih.1 hrest
      exact ⟨middle, ⟨hs, hne, hleft⟩, hright⟩
    · rintro ⟨middle, ⟨hs, hne, hleft⟩, hright⟩
      exact ⟨hs, hne, ih.2 ⟨middle, hleft, hright⟩⟩

end Lined

/-! ### Trees -/

inductive Tree.Formed : Tree → Prop
  | node {span : Span} {form : Form Tree} (formed : ∀ t ∈ form.children, Tree.Formed t)
      (placed : ∀ p ∈ form.parts, p.1.admits p.2.form = true)
      (lined : Lined (span.start + form.lead) (form.children.map Tree.span) span.stop)
      (named : form.Named) : Tree.Formed (.node span form)

/-- Well-formed trees of the kinds that the given places ask for, in a row. -/
structure Row (start : Nat) (parts : List (Place × Tree)) (stop : Nat) : Prop where
  formed : ∀ p ∈ parts, p.2.Formed
  placed : ∀ p ∈ parts, p.1.admits p.2.form = true
  lined : Lined start (parts.map fun p => p.2.span) stop

namespace Row

variable {start stop : Nat} {parts parts' : List (Place × Tree)}

theorem le (h : Row start parts stop) : start ≤ stop := h.lined.le

theorem lt (h : Row start parts stop) (hne : parts ≠ []) : start < stop :=
  h.lined.lt (by simpa using hne)

theorem nil (h : start ≤ stop) : Row start [] stop := ⟨by simp, by simp, h⟩

theorem widen {start' stop' : Nat} (h : Row start parts stop) (hstart : start' ≤ start)
    (hstop : stop ≤ stop') : Row start' parts stop' :=
  { h with lined := h.lined.widen hstart hstop }

theorem append_iff :
    Row start (parts ++ parts') stop ↔ ∃ middle, Row start parts middle ∧ Row middle parts' stop := by
  constructor
  · rintro ⟨hformed, hplaced, hlined⟩
    obtain ⟨hformed, hformed'⟩ := List.forall_mem_append.1 hformed
    obtain ⟨hplaced, hplaced'⟩ := List.forall_mem_append.1 hplaced
    rw [List.map_append] at hlined
    obtain ⟨middle, hlined, hlined'⟩ := Lined.append_iff.1 hlined
    exact ⟨middle, ⟨hformed, hplaced, hlined⟩, ⟨hformed', hplaced', hlined'⟩⟩
  · rintro ⟨middle, h, h'⟩
    refine ⟨List.forall_mem_append.2 ⟨h.formed, h'.formed⟩,
      List.forall_mem_append.2 ⟨h.placed, h'.placed⟩, ?_⟩
    rw [List.map_append]
    exact Lined.append_iff.2 ⟨middle, h.lined, h'.lined⟩

theorem append {middle : Nat} (h : Row start parts middle) (h' : Row middle parts' stop) :
    Row start (parts ++ parts') stop :=
  append_iff.2 ⟨middle, h, h'⟩

theorem cons_iff {place : Place} {t : Tree} :
    Row start ((place, t) :: parts) stop ↔ t.Formed ∧ place.admits t.form = true ∧
      start ≤ t.span.start ∧ t.span.start < t.span.stop ∧ Row t.span.stop parts stop := by
  constructor
  · rintro ⟨hformed, hplaced, hstart, hspan, hlined⟩
    obtain ⟨ht, hformed⟩ := List.forall_mem_cons.1 hformed
    obtain ⟨hplace, hplaced⟩ := List.forall_mem_cons.1 hplaced
    exact ⟨ht, hplace, hstart, hspan, hformed, hplaced, hlined⟩
  · rintro ⟨ht, hplace, hstart, hspan, hformed, hplaced, hlined⟩
    exact ⟨List.forall_mem_cons.2 ⟨ht, hformed⟩, List.forall_mem_cons.2 ⟨hplace, hplaced⟩,
      hstart, hspan, hlined⟩

/-- A construct over children in a row. -/
theorem tree {span : Span} {form : Form Tree}
    (h : Row (span.start + form.lead) form.parts span.stop) (hnamed : form.Named) :
    (Tree.node span form).Formed := by
  have hspans : form.parts.map (fun p => p.2.span) = form.children.map Tree.span := by
    rw [← form.map_snd_parts, List.map_map]
    rfl
  refine .node (fun t ht => ?_) h.placed (hspans ▸ h.lined) hnamed
  rw [← form.map_snd_parts] at ht
  obtain ⟨p, hp, rfl⟩ := List.mem_map.1 ht
  exact h.formed p hp

/-- A construct over children in a row, at a place of its own. -/
theorem single {place : Place} {span : Span} {form : Form Tree}
    (h : Row (span.start + form.lead) form.parts span.stop) (hnamed : form.Named)
    (hplace : place.admits form = true) (hstart : start ≤ span.start)
    (hspan : span.start < span.stop) (hstop : span.stop ≤ stop) :
    Row start [(place, .node span form)] stop :=
  cons_iff.2 ⟨h.tree hnamed, hplace, hstart, hspan, .nil hstop⟩

/-- What stands at a place can stand at one that asks for less. -/
theorem relax {place place' : Place} {t : Tree} (h : Row start [(place, t)] stop)
    (himp : place.admits t.form = true → place'.admits t.form = true) :
    Row start [(place', t)] stop := by
  obtain ⟨hformed, hplace, hrest⟩ := cons_iff.1 h
  exact cons_iff.2 ⟨hformed, himp hplace, hrest⟩

end Row

/-! ### Documentation -/

/-- The first tree can stand in place of the second one. -/
structure Tree.Replaces (t' t : Tree) : Prop where
  formed : t'.Formed
  span : t'.span = t.span
  admits : ∀ place : Place, place.admits t'.form = place.admits t.form

theorem Tree.Replaces.refl {t : Tree} (h : t.Formed) : t.Replaces t := ⟨h, rfl, fun _ => rfl⟩

/-- Parts that can stand in place of others. -/
abbrev Replaced (parts' parts : List (Place × Tree)) : Prop :=
  List.Forall₂ (fun p' p => p'.1 = p.1 ∧ p'.2.Replaces p.2) parts' parts

theorem Row.replace {start stop : Nat} {parts parts' : List (Place × Tree)}
    (h : Row start parts stop) (hparts : Replaced parts' parts) : Row start parts' stop := by
  induction hparts generalizing start with
  | nil => exact h
  | @cons p' p parts' parts hp _ ih =>
    obtain ⟨place, t⟩ := p
    obtain ⟨place', t'⟩ := p'
    obtain ⟨rfl, hreplaces⟩ : place' = place ∧ t'.Replaces t := hp
    obtain ⟨-, hplace, hstart, hspan, hrest⟩ := Row.cons_iff.1 h
    rw [← hreplaces.span] at hstart hspan hrest
    exact Row.cons_iff.2
      ⟨hreplaces.formed, (hreplaces.admits place').trans hplace, hstart, hspan, ih hrest⟩

theorem Tree.Formed.row {span : Span} {form : Form Tree} (h : (Tree.node span form).Formed) :
    Row (span.start + form.lead) form.parts span.stop := by
  cases h with
  | node formed placed lined named =>
    refine ⟨fun p hp => ?_, placed, ?_⟩
    · exact formed _ (form.map_snd_parts ▸ List.mem_map_of_mem hp)
    · rw [← form.map_snd_parts, List.map_map] at lined
      exact lined

theorem Tree.Formed.named {span : Span} {form : Form Tree} (h : (Tree.node span form).Formed) :
    form.Named := by
  cases h with
  | node _ _ _ named => exact named

/-- A construct can be replaced together with its parts. -/
theorem Tree.Formed.replaces {span : Span} {form form' : Form Tree}
    (h : (Tree.node span form).Formed) (hparts : Replaced form'.parts form.parts)
    (hlead : form'.lead = form.lead) (hnamed : form.Named → form'.Named)
    (hadmits : ∀ place : Place, place.admits form' = place.admits form) :
    (Tree.node span form').Replaces (.node span form) :=
  ⟨Row.tree (hlead ▸ h.row.replace hparts) (hnamed h.named), rfl, hadmits⟩

theorem Tree.Replaces.trans {t t' t'' : Tree} (h : t''.Replaces t') (h' : t'.Replaces t) :
    t''.Replaces t :=
  ⟨h.formed, h.span.trans h'.span, fun place => (h.admits place).trans (h'.admits place)⟩

theorem Replaced.refl {parts : List (Place × Tree)} (h : ∀ p ∈ parts, p.2.Formed) :
    Replaced parts parts :=
  List.forall₂_same.2 fun p hp => ⟨rfl, .refl (h p hp)⟩

theorem replaces_giveToFunction {t : Tree} (h : t.Formed) (docs : Option Doc.Block) :
    (giveToFunction docs t).Replaces t := by
  unfold giveToFunction
  split
  · rename_i span name params body
    refine h.replaces (.refl h.row.formed) rfl ?_ ?_
    · cases name <;> exact id
    · intro place
      cases place <;> cases name <;> rfl
  · exact .refl h

theorem replaces_giveToAssigned {t : Tree} (h : t.Formed) (docs : Option Doc.Block) :
    (giveToAssigned docs t).Replaces t := by
  unfold giveToAssigned
  split
  · rename_i span op lhs rhs
    have hlhs : lhs.Formed := h.row.formed (.operand, lhs) (by simp [Form.parts])
    have hrhs : rhs.Formed := h.row.formed (.operand, rhs) (by simp [Form.parts])
    refine h.replaces ?_ rfl id ?_
    · exact .cons ⟨rfl, .refl hlhs⟩ (.cons ⟨rfl, replaces_giveToFunction hrhs docs⟩ .nil)
    · intro place
      cases place <;> rfl
  · exact .refl h

section Documentation

variable {blockAt : Nat → Option Doc.Block}

/-- Documenting a tree keeps it well-formed. -/
def Tree.Documents (blockAt : Nat → Option Doc.Block) (t : Tree) : Prop :=
  ∀ ctx, (t.document blockAt ctx).Replaces t

theorem replaced_documentAll {place : Place} {items : List Tree}
    (h : ∀ t ∈ items, t.Documents blockAt) (ctx : Context) :
    Replaced ((documentAll blockAt ctx items).map fun t => (place, t))
      (items.map fun t => (place, t)) := by
  induction items with
  | nil => exact .nil
  | cons t items ih =>
    obtain ⟨ht, hitems⟩ := List.forall_mem_cons.1 h
    exact .cons ⟨rfl, ht ctx⟩ (ih hitems)

theorem replaced_documentDeclarations {place : Place} {items : List Tree}
    (h : ∀ t ∈ items, t.Documents blockAt) (ctx : Context) :
    Replaced ((documentDeclarations blockAt ctx items).map fun t => (place, t))
      (items.map fun t => (place, t)) := by
  induction items generalizing ctx with
  | nil => exact .nil
  | cons t items ih =>
    obtain ⟨ht, hitems⟩ := List.forall_mem_cons.1 h
    exact .cons ⟨rfl, ht ctx⟩ (ih hitems _)

theorem replaced_documentOption (place : Place) {item : Option Tree}
    (h : ∀ t ∈ item.toList, t.Documents blockAt) (ctx : Context) :
    Replaced ((documentOption blockAt ctx item).toList.map fun t => (place, t))
      (item.toList.map fun t => (place, t)) := by
  cases item with
  | none => exact .nil
  | some t => exact .cons ⟨rfl, h t List.mem_cons_self ctx⟩ .nil

theorem replaced_documentForm {form : Form Tree} (h : ∀ t ∈ form.children, t.Documents blockAt)
    (ctx : Context) (start : Nat) :
    Replaced (documentForm blockAt ctx start form).parts form.parts := by
  cases form with
  | program items | block items | parameters items | comma items | array items | object items =>
    exact replaced_documentAll h _
  | var items => exact replaced_documentDeclarations h _
  | returns value => exact replaced_documentOption _ h _
  | declaration name docs value =>
    cases value with
    | none => exact .nil
    | some t =>
      have ht := h t List.mem_cons_self ctx.inside
      exact .cons ⟨rfl, (replaces_giveToFunction ht.formed _).trans ht⟩ .nil
  | throws t | handler _ t | member t _ | group t | unary _ t | update _ t =>
    exact .cons ⟨rfl, h t List.mem_cons_self _⟩ .nil
  | statement t =>
    have ht := h t List.mem_cons_self { claimed := some start }
    exact .cons ⟨rfl, (replaces_giveToAssigned ht.formed _).trans ht⟩ .nil
  | pair key t =>
    have ht := h t List.mem_cons_self ctx.inside
    exact .cons ⟨rfl, (replaces_giveToFunction ht.formed _).trans ht⟩ .nil
  | function _ _ a b | whileLoop a b | doWhile a b | binary _ a b | assign _ a b | element a b =>
    obtain ⟨ha, hb, -⟩ : a.Documents blockAt ∧ b.Documents blockAt ∧ True := by
      simpa [Form.children] using h
    exact .cons ⟨rfl, ha _⟩ (.cons ⟨rfl, hb _⟩ .nil)
  | forIn a b d | conditional a b d =>
    obtain ⟨ha, hb, hd⟩ : a.Documents blockAt ∧ b.Documents blockAt ∧ d.Documents blockAt := by
      simpa [Form.children] using h
    exact .cons ⟨rfl, ha _⟩ (.cons ⟨rfl, hb _⟩ (.cons ⟨rfl, hd _⟩ .nil))
  | construct callee args | invoke callee args =>
    obtain ⟨hcallee, hargs⟩ := List.forall_mem_cons.1 h
    exact .cons ⟨rfl, hcallee _⟩ (replaced_documentAll hargs _)
  | branch cond yes no =>
    obtain ⟨hcond, h⟩ := List.forall_mem_cons.1 h
    obtain ⟨hyes, hno⟩ := List.forall_mem_cons.1 h
    exact .cons ⟨rfl, hcond _⟩ (.cons ⟨rfl, hyes _⟩ (replaced_documentOption _ hno _))
  | tryBlock body onThrow atEnd =>
    obtain ⟨hbody, h⟩ := List.forall_mem_cons.1 h
    obtain ⟨hthrow, hend⟩ := List.forall_mem_append.1 h
    exact .cons ⟨rfl, hbody _⟩
      (List.rel_append (replaced_documentOption _ hthrow _) (replaced_documentOption _ hend _))
  | forLoop init test step body =>
    obtain ⟨h, hbody⟩ := List.forall_mem_append.1 h
    obtain ⟨h, hstep⟩ := List.forall_mem_append.1 h
    obtain ⟨hinit, htest⟩ := List.forall_mem_append.1 h
    have hhead := List.rel_append
      (replaced_documentOption .loopHead hinit { ctx.inside with position := .loopHead })
      (replaced_documentOption .expression htest ctx.inside)
    exact List.rel_append (List.rel_append hhead (replaced_documentOption _ hstep _))
      (.cons ⟨rfl, hbody body List.mem_cons_self _⟩ .nil)
  | breaks | continues | empty | identifier _ | this | null | literal _ => exact .nil

theorem lead_documentForm (ctx : Context) (start : Nat) (form : Form Tree) :
    (documentForm blockAt ctx start form).lead = form.lead := by
  cases form <;> rfl

theorem Form.Named.documentForm {form : Form Tree} (h : form.Named) (ctx : Context) (start : Nat) :
    (documentForm blockAt ctx start form).Named := by
  cases form with
  | function name _ _ _ => cases name <;> exact h
  | _ => exact h

theorem admits_documentForm (ctx : Context) (start : Nat) (form : Form Tree) (place : Place) :
    place.admits (documentForm blockAt ctx start form) = place.admits form := by
  cases form with
  | function name _ _ _ => cases place <;> cases name <;> rfl
  | var items =>
    match items with
    | [] | [_] | _ :: _ :: _ => cases place <;> rfl
  | _ => cases place <;> rfl

theorem Tree.Formed.documents {t : Tree} (h : t.Formed) : t.Documents blockAt := by
  induction h with
  | @node span form formed placed lined named ih =>
    intro ctx
    exact (Tree.Formed.node formed placed lined named).replaces
      (replaced_documentForm ih ctx span.start) (lead_documentForm ctx span.start form)
      (fun h => h.documentForm ctx span.start) (admits_documentForm ctx span.start form)

end Documentation

end ScriptTypes.Script
