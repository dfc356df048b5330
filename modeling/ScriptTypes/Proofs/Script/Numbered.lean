import Mathlib
import ScriptTypes.Script.Numbering

/-!
# Numbering keeps trees

Numbering a tree adds one entry for each construct. All numbers that it gives out are children of
the new entries, each of them once, except for that of the root; and the entry of the root reads
back as the tree.

Main statement: `Tree.number_adopts`.
-/

namespace ScriptTypes.Script

/-- The same construct over other children. -/
def Form.map {α β : Type} (g : α → β) : Form α → Form β
  | program items => program (items.map g)
  | block items => block (items.map g)
  | var items => var (items.map g)
  | declaration name docs value => declaration name docs (value.map g)
  | function name docs params body => function name docs (g params) (g body)
  | parameters items => parameters (items.map g)
  | returns value => returns (value.map g)
  | branch cond yes no => branch (g cond) (g yes) (no.map g)
  | forLoop init test step body => forLoop (init.map g) (test.map g) (step.map g) (g body)
  | forIn binding target body => forIn (g binding) (g target) (g body)
  | whileLoop cond body => whileLoop (g cond) (g body)
  | doWhile body cond => doWhile (g body) (g cond)
  | throws e => throws (g e)
  | tryBlock body onThrow atEnd => tryBlock (g body) (onThrow.map g) (atEnd.map g)
  | handler param body => handler param (g body)
  | breaks => breaks
  | continues => continues
  | empty => empty
  | statement e => statement (g e)
  | comma items => comma (items.map g)
  | identifier name => identifier name
  | this => this
  | null => null
  | literal value => literal value
  | array items => array (items.map g)
  | object items => object (items.map g)
  | pair key e => pair key (g e)
  | binary op lhs rhs => binary op (g lhs) (g rhs)
  | assign op lhs rhs => assign op (g lhs) (g rhs)
  | conditional cond yes no => conditional (g cond) (g yes) (g no)
  | construct callee args => construct (g callee) (args.map g)
  | invoke callee args => invoke (g callee) (args.map g)
  | member e property => member (g e) property
  | element target index => element (g target) (g index)
  | group e => group (g e)
  | unary op e => unary op (g e)
  | update op e => update op (g e)

theorem Form.children_map {α β : Type} (g : α → β) (f : Form α) :
    (f.map g).children = f.children.map g := by
  cases f <;> simp [Form.map, Form.children, Option.toList_map]

theorem Form.map_congr {α β : Type} {g g' : α → β} {f : Form α}
    (h : ∀ c ∈ f.children, g c = g' c) : f.map g = f.map g' := by
  have hoption {o : Option α} (h : ∀ c ∈ o.toList, g c = g' c) : o.map g = o.map g' :=
    Option.map_congr fun c hc => h c (Option.mem_toList.2 hc)
  cases f with
  | program items | block items | var items | parameters items | comma items | array items
  | object items => rw [Form.map, List.map_congr_left (l := items) h, Form.map]
  | declaration _ _ value | returns value => rw [Form.map, hoption h, Form.map]
  | throws t | handler _ t | statement t | pair _ t | member t _ | group t | unary _ t
  | update _ t => rw [Form.map, h t (List.mem_singleton_self t), Form.map]
  | function _ _ a b | whileLoop a b | doWhile a b | binary _ a b | assign _ a b | element a b =>
    simp only [Form.children, List.forall_mem_cons] at h
    rw [Form.map, h.1, h.2.1, Form.map]
  | forIn a b d | conditional a b d =>
    simp only [Form.children, List.forall_mem_cons] at h
    rw [Form.map, h.1, h.2.1, h.2.2.1, Form.map]
  | construct a as | invoke a as =>
    obtain ⟨ha, has⟩ := List.forall_mem_cons.1 h
    rw [Form.map, ha, List.map_congr_left has, Form.map]
  | branch cond yes no =>
    simp only [Form.children, List.forall_mem_cons] at h
    rw [Form.map, h.1, h.2.1, hoption h.2.2, Form.map]
  | forLoop init test step body =>
    simp only [Form.children, List.forall_mem_append, List.forall_mem_singleton] at h
    obtain ⟨⟨⟨hinit, htest⟩, hstep⟩, hbody⟩ := h
    rw [Form.map, hoption hinit, hoption htest, hoption hstep, hbody, Form.map]
  | tryBlock body onThrow atEnd =>
    simp only [Form.children, List.cons_append, List.forall_mem_cons, List.forall_mem_append] at h
    rw [Form.map, h.1, hoption h.2.1, hoption h.2.2, Form.map]
  | breaks | continues | empty | identifier _ | this | null | literal _ => rfl

/-- A table read as trees: the tree of an entry has the entry's construct over the trees of its
children. -/
def Reads (g : NodeId → Tree) (entries : List Entry) : Prop :=
  ∀ n e, entries[n]? = some e → g n = .node e.span (e.form.map g)

theorem Reads.left {g : NodeId → Tree} {entries added : List Entry}
    (h : Reads g (entries ++ added)) : Reads g entries := by
  intro n e he
  obtain ⟨hn, -⟩ := List.getElem?_eq_some_iff.1 he
  exact h n e ((List.getElem?_append_left hn).trans he)

namespace Numbering

variable {α β : Type} {pending : List NodeId} {roots : α → List NodeId}
  {roots' : β → List NodeId} {Q : (NodeId → Tree) → α → Prop} {Q' : (NodeId → Tree) → β → Prop}

/-- The numbers without a parent are `pending` before and `roots` after the numbering: all others,
and all new numbers, become children of new entries, each of them once. However the table is read
then, the result satisfies `Q`. -/
def Adopts (pending : List NodeId) (m : Numbering α) (roots : α → List NodeId)
    (Q : (NodeId → Tree) → α → Prop) : Prop :=
  ∀ es, ∃ added, (m es).2.toList = es.toList ++ added ∧
    (added.flatMap (·.form.children) ++ roots (m es).1).Perm
      (pending ++ List.range' es.size added.length) ∧
    ∀ g, Reads g (m es).2.toList → Q g (m es).1

namespace Adopts

theorem pure {a : α} (hroots : (roots a).Perm pending) (hread : ∀ g, Q g a) :
    Adopts pending (pure a) roots Q :=
  fun es => ⟨[], (List.append_nil _).symm, hroots.trans (by simp), fun g _ => hread g⟩

theorem bind {m : Numbering α} {f : α → Numbering β} (hm : Adopts pending m roots Q)
    (hf : ∀ a, Adopts (roots a) (f a) roots' fun g b => Q g a → Q' g b) :
    Adopts pending (m >>= f) roots' Q' := by
  intro es
  obtain ⟨added, htable, hperm, hread⟩ := hm es
  obtain ⟨added', htable', hperm', hread'⟩ := hf (m es).1 (m es).2
  refine ⟨added ++ added', ?_, ?_, fun g hg => ?_⟩
  · rw [← List.append_assoc, ← htable]
    exact htable'
  · have hsize : (m es).2.size = es.size + added.length := by
      rw [← Array.length_toList, htable, List.length_append, Array.length_toList]
    rw [List.flatMap_append, List.append_assoc, List.length_append]
    rw [hsize] at hperm'
    refine (hperm'.append_left _).trans ?_
    rw [← List.append_assoc, ← List.range'_append_1, ← List.append_assoc]
    exact hperm.append_right _
  · have hg' : Reads g ((m es).2.toList ++ added') := htable' ▸ hg
    exact hread' g hg (hread g hg'.left)

/-- A new entry adopts its children. -/
theorem push (span : Span) (form : Form NodeId) (pending : List NodeId) :
    Adopts (form.children ++ pending) (modifyGet fun es => (es.size, es.push ⟨span, form⟩))
      (fun id => id :: pending) fun g id => g id = .node span (form.map g) := by
  intro es
  refine ⟨[⟨span, form⟩], ?_, ?_, fun g hg => hg es.size ⟨span, form⟩ ?_⟩
  · exact Array.toList_push
  · rw [List.flatMap_singleton, List.append_assoc]
    exact (List.perm_append_singleton _ _).symm.append_left _
  · show (es.push ⟨span, form⟩).toList[es.size]? = _
    simp

end Adopts

end Numbering

open ScriptTypes.Script.Numbering (Adopts)

mutual

/-- Numbering a tree leaves its root without a parent, and the root reads back as the tree. -/
theorem Tree.number_adopts (t : Tree) (pending : List NodeId) :
    Adopts pending t.number (fun id => id :: pending) fun g id => g id = t := by
  cases t with
  | node span form =>
    refine .bind (numberForm_adopts form pending) fun f => ?_
    intro es
    obtain ⟨added, htable, hperm, hread⟩ := Adopts.push span f pending es
    exact ⟨added, htable, hperm, fun g hg hform => (hread g hg).trans (by rw [hform])⟩

theorem numberForm_adopts (f : Form Tree) (pending : List NodeId) :
    Adopts pending (numberForm f) (fun f' => f'.children ++ pending) fun g f' => f'.map g = f := by
  cases f with
  | program items | block items | var items | parameters items | comma items | array items
  | object items =>
    exact .bind (numberAll_adopts items pending) fun ids => .pure (.refl _) fun g h =>
      by rw [Form.map, h]
  | declaration _ _ value | returns value =>
    exact .bind (numberOption_adopts value pending) fun ids => .pure (.refl _) fun g h =>
      by rw [Form.map, h]
  | throws t | handler _ t | statement t | pair _ t | member t _ | group t | unary _ t
  | update _ t =>
    exact .bind (t.number_adopts pending) fun a => .pure (.refl _) fun g h => by rw [Form.map, h]
  | function _ _ a b | whileLoop a b | doWhile a b | binary _ a b | assign _ a b | element a b =>
    exact .bind (a.number_adopts pending) fun a => .bind (b.number_adopts _) fun b =>
      .pure (.swap _ _ _) fun g hb ha => by rw [Form.map, ha, hb]
  | forIn a b d =>
    exact .bind (d.number_adopts pending) fun d => .bind (a.number_adopts _) fun a =>
      .bind (b.number_adopts _) fun b =>
        .pure (List.perm_iff_count.2 fun x => by simp [Form.children, List.count_cons]; omega)
          fun g hb ha hd => by rw [Form.map, ha, hb, hd]
  | conditional a b d =>
    exact .bind (a.number_adopts pending) fun a => .bind (b.number_adopts _) fun b =>
      .bind (d.number_adopts _) fun d =>
        .pure (List.perm_iff_count.2 fun x => by simp [Form.children, List.count_cons]; omega)
          fun g hd hb ha => by rw [Form.map, ha, hb, hd]
  | construct a as | invoke a as =>
    exact .bind (a.number_adopts pending) fun a => .bind (numberAll_adopts as _) fun as =>
      .pure (List.perm_iff_count.2 fun x => by simp [Form.children, List.count_cons]; omega)
        fun g has ha => by rw [Form.map, ha, has]
  | branch a b o =>
    exact .bind (a.number_adopts pending) fun a => .bind (b.number_adopts _) fun b =>
      .bind (numberOption_adopts o _) fun o =>
        .pure (List.perm_iff_count.2 fun x => by simp [Form.children, List.count_cons]; omega)
          fun g ho hb ha => by rw [Form.map, ha, hb, ho]
  | tryBlock a o p =>
    exact .bind (a.number_adopts pending) fun a => .bind (numberOption_adopts o _) fun o =>
      .bind (numberOption_adopts p _) fun p =>
        .pure (List.perm_iff_count.2 fun x => by simp [Form.children, List.count_cons]; omega)
          fun g hp ho ha => by rw [Form.map, ha, ho, hp]
  | forLoop o p q b =>
    exact .bind (b.number_adopts pending) fun b => .bind (numberOption_adopts o _) fun o =>
      .bind (numberOption_adopts p _) fun p => .bind (numberOption_adopts q _) fun q =>
        .pure (List.perm_iff_count.2 fun x => by simp [Form.children, List.count_cons]; omega)
          fun g hq hp ho hb => by rw [Form.map, hb, ho, hp, hq]
  | breaks | continues | empty | identifier _ | this | null | literal _ =>
    exact .pure (.refl _) fun g => rfl

theorem numberAll_adopts (ts : List Tree) (pending : List NodeId) :
    Adopts pending (numberAll ts) (fun ids => ids ++ pending) fun g ids => ids.map g = ts := by
  cases ts with
  | nil => exact .pure (.refl _) fun g => rfl
  | cons t ts =>
    exact .bind (t.number_adopts pending) fun a => .bind (numberAll_adopts ts _) fun as =>
      .pure List.perm_middle.symm fun g has ha => by rw [List.map_cons, ha, has]

theorem numberOption_adopts (o : Option Tree) (pending : List NodeId) :
    Adopts pending (numberOption o) (fun o' => o'.toList ++ pending) fun g o' => o'.map g = o := by
  cases o with
  | none => exact .pure (.refl _) fun g => rfl
  | some t =>
    exact .bind (t.number_adopts pending) fun a => .pure (.refl _) fun g h => congrArg some h

end

end ScriptTypes.Script
