import ScriptTypes.Script.Tree

/-!
# Numbering the constructs of a tree

A construct gets its number after its children, so that a table of all constructs lists children
before their parents. The body of a `for` statement is numbered before its head, and all other
children in the order of the text.

Main statement: `Tree.number_sound`. Numbering a tree keeps the table in order, and the root's
number is below the size of the table then.
-/

namespace ScriptTypes.Script

/-- The number of a node. -/
abbrev NodeId := Nat

/-- A construct whose children are nodes, and its span. -/
structure Entry where
  span : Span
  form : Form NodeId

/-- Numbering appends to the table of entries. -/
abbrev Numbering := StateM (Array Entry)

mutual

/-- Number a tree and return the number of its root. -/
def Tree.number : Tree → Numbering NodeId
  | .node span form => do
    let form ← numberForm form
    modifyGet fun entries => (entries.size, entries.push ⟨span, form⟩)

def numberForm : Form Tree → Numbering (Form NodeId)
  | .program items => return .program (← numberAll items)
  | .block items => return .block (← numberAll items)
  | .var items => return .var (← numberAll items)
  | .declaration name docs value => return .declaration name docs (← numberOption value)
  | .function name docs params body => do
    let params ← params.number
    let body ← body.number
    return .function name docs params body
  | .parameters items => return .parameters (← numberAll items)
  | .returns value => return .returns (← numberOption value)
  | .branch cond yes no => do
    let cond ← cond.number
    let yes ← yes.number
    let no ← numberOption no
    return .branch cond yes no
  | .forLoop init test update body => do
    let body ← body.number
    let init ← numberOption init
    let test ← numberOption test
    let update ← numberOption update
    return .forLoop init test update body
  | .forIn binding object body => do
    let body ← body.number
    let binding ← binding.number
    let object ← object.number
    return .forIn binding object body
  | .whileLoop cond body => do
    let cond ← cond.number
    let body ← body.number
    return .whileLoop cond body
  | .doWhile body cond => do
    let body ← body.number
    let cond ← cond.number
    return .doWhile body cond
  | .throws value => return .throws (← value.number)
  | .tryBlock block handler final => do
    let block ← block.number
    let handler ← numberOption handler
    let final ← numberOption final
    return .tryBlock block handler final
  | .handler param body => return .handler param (← body.number)
  | .breaks => return .breaks
  | .continues => return .continues
  | .empty => return .empty
  | .statement expr => return .statement (← expr.number)
  | .comma items => return .comma (← numberAll items)
  | .identifier name => return .identifier name
  | .this => return .this
  | .null => return .null
  | .literal value => return .literal value
  | .array items => return .array (← numberAll items)
  | .object items => return .object (← numberAll items)
  | .pair key value => return .pair key (← value.number)
  | .binary op lhs rhs => do
    let lhs ← lhs.number
    let rhs ← rhs.number
    return .binary op lhs rhs
  | .assign op lhs rhs => do
    let lhs ← lhs.number
    let rhs ← rhs.number
    return .assign op lhs rhs
  | .conditional cond yes no => do
    let cond ← cond.number
    let yes ← yes.number
    let no ← no.number
    return .conditional cond yes no
  | .construct callee args => do
    let callee ← callee.number
    let args ← numberAll args
    return .construct callee args
  | .invoke callee args => do
    let callee ← callee.number
    let args ← numberAll args
    return .invoke callee args
  | .member object property => return .member (← object.number) property
  | .element object index => do
    let object ← object.number
    let index ← index.number
    return .element object index
  | .group inner => return .group (← inner.number)
  | .unary op operand => return .unary op (← operand.number)
  | .update op operand => return .update op (← operand.number)

def numberAll : List Tree → Numbering (List NodeId)
  | [] => return []
  | t :: ts => do
    let t ← t.number
    let ts ← numberAll ts
    return t :: ts

def numberOption : Option Tree → Numbering (Option NodeId)
  | none => return none
  | some t => return some (← t.number)

end

/-! ### Children come first -/

/-- Every child of an entry stands before it. -/
def Ordered (entries : Array Entry) : Prop :=
  ∀ (i : Nat) (e : Entry), entries[i]? = some e → ∀ c : Nat, c ∈ e.form.children → c < i

/-- Started on at least `k` entries in order, the numbering keeps them, keeps the order, and ends
with a result that satisfies `P` for the number of entries then. -/
def Numbering.Sound {α : Type} (k : Nat) (m : Numbering α) (P : α → Nat → Prop) : Prop :=
  ∀ es : Array Entry, k ≤ es.size → Ordered es →
    Ordered (m es).2 ∧ k ≤ (m es).2.size ∧ P (m es).1 (m es).2.size

namespace Numbering

variable {α β : Type} {k : Nat} {P : α → Nat → Prop} {Q : β → Nat → Prop}

theorem Sound.pure {a : α} (h : ∀ n, k ≤ n → P a n) : Sound k (pure a) P :=
  fun es hk ho => ⟨ho, hk, h es.size hk⟩

theorem Sound.bind {m : Numbering α} {f : α → Numbering β} (hm : Sound k m P)
    (hf : ∀ a n, k ≤ n → P a n → Sound n (f a) Q) : Sound k (m >>= f) Q := by
  intro es hk ho
  obtain ⟨ho', hk', hp⟩ := hm es hk ho
  obtain ⟨ho'', hk'', hq⟩ := hf _ _ hk' hp (m es).2 (Nat.le_refl _) ho'
  exact ⟨ho'', Nat.le_trans hk' hk'', hq⟩

theorem Sound.push {span : Span} {form : Form NodeId} (h : ∀ c : Nat, c ∈ form.children → c < k) :
    Sound k (modifyGet fun es => (es.size, es.push ⟨span, form⟩)) fun (id : Nat) n => id < n := by
  intro es hk ho
  refine ⟨fun i e hi c hc => ?_, ?_, ?_⟩
  · change (es.push ⟨span, form⟩)[i]? = some e at hi
    rw [Array.getElem?_push] at hi
    split at hi
    · cases hi
      have := h c hc
      omega
    · exact ho i e hi c hc
  · change k ≤ (es.push _).size
    simp
    omega
  · change es.size < (es.push _).size
    simp

end Numbering

open ScriptTypes.Script.Numbering (Sound)

mutual

theorem Tree.number_sound (t : Tree) (k : Nat) : Sound k t.number fun (id : Nat) n => id < n := by
  cases t with
  | node span form =>
    exact .bind (numberForm_sound form k) fun f n _ hf => .push hf

theorem numberForm_sound (f : Form Tree) (k : Nat) :
    Sound k (numberForm f) fun f n => ∀ c : Nat, c ∈ f.children → c < n := by
  cases f with
  | program items | block items | var items | parameters items | comma items | array items
  | object items =>
    exact .bind (numberAll_sound items k) fun ids n _ h => .pure fun n' hn c hc =>
      Nat.lt_of_lt_of_le (h c hc) hn
  | declaration _ _ value | returns value =>
    exact .bind (numberOption_sound value k) fun ids n _ h => .pure fun n' hn c hc =>
      Nat.lt_of_lt_of_le (h c hc) hn
  | throws t | handler _ t | statement t | pair _ t | member t _ | group t | unary _ t
  | update _ t =>
    exact .bind (t.number_sound k) fun a n _ h => .pure fun n' hn c hc => by
      simp only [Form.children, List.mem_singleton] at hc
      omega
  | function _ _ a b | whileLoop a b | doWhile a b | binary _ a b | assign _ a b
  | element a b =>
    exact .bind (a.number_sound k) fun a n _ ha => .bind (b.number_sound n) fun b n _ hb =>
      .pure fun n' hn c hc => by
        simp only [Form.children, List.mem_cons, List.not_mem_nil, or_false] at hc
        omega
  | forIn a b d =>
    exact .bind (d.number_sound k) fun d n _ hd => .bind (a.number_sound n) fun a n _ ha =>
      .bind (b.number_sound n) fun b n _ hb => .pure fun n' hn c hc => by
        simp only [Form.children, List.mem_cons, List.not_mem_nil, or_false] at hc
        omega
  | conditional a b d =>
    exact .bind (a.number_sound k) fun a n _ ha => .bind (b.number_sound n) fun b n _ hb =>
      .bind (d.number_sound n) fun d n _ hd => .pure fun n' hn c hc => by
        simp only [Form.children, List.mem_cons, List.not_mem_nil, or_false] at hc
        omega
  | construct a as | invoke a as =>
    exact .bind (a.number_sound k) fun a n _ ha => .bind (numberAll_sound as n) fun as n _ has =>
      .pure fun n' hn c hc => by
        simp only [Form.children, List.mem_cons] at hc
        rcases hc with rfl | hc
        · omega
        · exact Nat.lt_of_lt_of_le (has c hc) hn
  | branch a b o =>
    exact .bind (a.number_sound k) fun a n _ ha => .bind (b.number_sound n) fun b n _ hb =>
      .bind (numberOption_sound o n) fun o n _ ho => .pure fun n' hn c hc => by
        simp only [Form.children, List.mem_cons] at hc
        rcases hc with rfl | rfl | hc
        · omega
        · omega
        · exact Nat.lt_of_lt_of_le (ho c hc) hn
  | tryBlock a o p =>
    exact .bind (a.number_sound k) fun a n _ ha => .bind (numberOption_sound o n) fun o n ho' ho =>
      .bind (numberOption_sound p n) fun p n hp' hp => .pure fun n' hn c hc => by
        simp only [Form.children, List.cons_append, List.mem_cons, List.mem_append] at hc
        rcases hc with rfl | hc | hc
        · omega
        · have := ho c hc
          omega
        · have := hp c hc
          omega
  | forLoop o p q b =>
    exact .bind (b.number_sound k) fun b n _ hb => .bind (numberOption_sound o n) fun o n _ ho =>
      .bind (numberOption_sound p n) fun p n _ hp => .bind (numberOption_sound q n) fun q n _ hq =>
        .pure fun n' hn c hc => by
          simp only [Form.children, List.mem_append, List.mem_singleton] at hc
          rcases hc with ((hc | hc) | hc) | hc
          · have := ho c hc
            omega
          · have := hp c hc
            omega
          · have := hq c hc
            omega
          · omega
  | breaks | continues | empty | identifier _ | this | null | literal _ =>
    exact .pure fun n hn c hc => by simp [Form.children] at hc

theorem numberAll_sound (ts : List Tree) (k : Nat) :
    Sound k (numberAll ts) fun ids n => ∀ c : Nat, c ∈ ids → c < n := by
  cases ts with
  | nil => exact .pure fun n hn c hc => by simp at hc
  | cons t ts =>
    exact .bind (t.number_sound k) fun a n _ ha => .bind (numberAll_sound ts n) fun as n _ has =>
      .pure fun n' hn c hc => by
        rcases List.mem_cons.1 hc with rfl | hc
        · omega
        · exact Nat.lt_of_lt_of_le (has c hc) hn

theorem numberOption_sound (o : Option Tree) (k : Nat) :
    Sound k (numberOption o) fun id n => ∀ c : Nat, c ∈ id.toList → c < n := by
  cases o with
  | none => exact .pure fun n hn c hc => by simp at hc
  | some t =>
    exact .bind (t.number_sound k) fun a n _ ha => .pure fun n' hn c hc => by
      simp only [Option.toList_some, List.mem_singleton] at hc
      omega

end

end ScriptTypes.Script
