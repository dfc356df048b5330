import ScriptTypes.Proofs.Script.Atoms
import ScriptTypes.Proofs.Script.Lowered

/-!
# Printed terms are recovered

A printed term is read as the tree that shows it, for every term: one lemma for each kind of term
says so of the term if it holds of its operands. Nesting is bounded by the length of the text, so
the bounds on repetitions and on nested calls that come from the length are never met.
-/

namespace ScriptTypes.Script

open Grammar (Matches Refuses)
open Syntax (EndsAssignment EndsOperand ReadsItem endsAssignment_of_closes)

theorem skipped_parens (text cs : List Char) :
    rules.skipped (parens text ++ cs) = parens text ++ cs := by
  rw [parens_append]
  rfl

/-- The bounds are enough for a text. -/
def Fits (limit depth : Nat) (text : List Char) : Prop := text.length ≤ limit ∧ text.length < depth

theorem Fits.inside {limit depth n : Nat} {text inner : List Char}
    (h : Fits limit (depth + n) text) (hlength : inner.length + n ≤ text.length) :
    Fits limit depth inner := by
  obtain ⟨hlimit, hdepth⟩ := h
  exact ⟨by omega, by omega⟩

namespace Term

variable {limit depth : Nat} {e e' : Term} {cs rest : List Char}

theorem skipped_print (e : Term) (cs : List Char) :
    rules.skipped (e.print ++ cs) = e.print ++ cs := by
  cases e with
  | identifier name => exact name.skipped_eq cs
  | number digits => exact digits.skipped_eq cs
  | boolean value => cases value <;> rfl
  | unary op operand => cases op <;> rfl
  | _ => rfl

/-- The text of the term is read as the term, up to a parenthesis. -/
def Reads (e : Term) : Prop :=
  ∀ (limit depth : Nat) (cs : List Char), Fits limit (depth + 2) e.print →
    Matches rules limit (depth + 2) Syntax.assignment (e.print ++ ')' :: cs) e.Shown (')' :: cs)

/-! ### Operands -/

namespace Reads

theorem group (h : e.Reads) (hfits : Fits limit depth e.print) (cs : List Char) :
    Matches rules limit depth Syntax.group (parens e.print ++ cs) e.Grouped cs := by
  have hpos := List.length_pos_of_ne_nil e.print_ne_nil
  obtain ⟨depth, rfl⟩ : ∃ d, depth = d + 2 := ⟨depth - 2, by have := hfits.2; omega⟩
  rw [parens_append e.print]
  exact Syntax.group_of_assignment (e.skipped_print _) (h limit depth cs hfits) fun _ _ => .group

theorem operand (h : e.Reads) (hfits : Fits limit depth e.print) (cs : List Char) :
    Matches rules limit depth Syntax.operand (parens e.print ++ cs) e.Grouped cs := by
  have hgroup := h.group hfits cs
  rw [parens_append e.print] at hgroup ⊢
  exact .alt_right (.call fun _ _ _ => ⟨_, rfl⟩) (Syntax.primary_of_group hgroup)

theorem unary (h : e.Reads) (hfits : Fits limit depth e.print) (hskip : rules.skipped cs = rest)
    (hends : EndsOperand rest) :
    Matches rules limit depth Syntax.unary (parens e.print ++ cs) e.Grouped rest := by
  have hoperand := h.operand hfits cs
  rw [parens_append e.print] at hoperand ⊢
  exact Syntax.unary_of_operand rfl (fun _ _ => ⟨_, rfl⟩) hoperand hskip hends

theorem assignment (h : e.Reads) (hfits : Fits limit depth e.print)
    (hskip : rules.skipped cs = rest) (hends : EndsAssignment rest) :
    Matches rules limit (depth + 1) Syntax.assignment (parens e.print ++ cs) e.Grouped rest :=
  Syntax.assignment_of_unary (h.unary hfits hskip hends.toEndsOperand) hends

theorem item (h : e.Reads) (hfits : Fits limit depth e.print) :
    ReadsItem limit (depth + 1) Syntax.assignment (parens e.print) e.Grouped where
  skipped_eq := skipped_parens e.print
  reads c cs hc := by
    have hends := endsAssignment_of_closes hc cs
    exact h.assignment hfits hends.skipped_eq hends

end Reads

/-! ### Operators -/

theorem reads_binary (op : BinaryOp) (h : e.Reads) (h' : e'.Reads) : (binary op e e').Reads := by
  intro limit depth cs hfits
  have hlength := length_between e.print e'.print op.symbol
  have hends := endsAssignment_of_closes (c := ')') rfl cs
  have hop := Syntax.endsOperand_binaryOp op (parens e'.print ++ ')' :: cs)
  rw [print] at hfits ⊢
  rw [between_append]
  have hlhs := h.unary (hfits.inside (n := 1) (by omega))
    ((skipped_space _).trans hop.skipped_eq) hop
  have hrhs := h'.unary (hfits.inside (n := 1) (by omega)) hends.skipped_eq hends.toEndsOperand
  refine Syntax.assignment_of_binary ?_ hends
  exact Syntax.binary_of_binaryOp hlhs (skipped_parens _ _) hrhs hends.toEndsChain
    fun _ _ _ => .binary

theorem reads_assign (op : AssignOp) (h : e.Reads) (h' : e'.Reads) : (assign op e e').Reads := by
  intro limit depth cs hfits
  have hlength := length_between e.print e'.print op.symbol
  have hends := endsAssignment_of_closes (c := ')') rfl cs
  have hop := Syntax.endsConditional_assignOp op (parens e'.print ++ ')' :: cs)
  rw [print] at hfits ⊢
  rw [between_append]
  have hlhs := h.unary (hfits.inside (n := 1) (by omega)) ((skipped_space _).trans hop.skipped_eq)
    hop.toEndsOperand
  have hchain := Syntax.binary_of_unary hlhs hop.skipped_eq hop.toEndsChain
  have hrhs := h'.assignment (hfits.inside (n := 2) (by omega)) hends.skipped_eq hends
  exact Syntax.assignment_of_assignOp (Syntax.conditional_of_binary hchain hop.skipped_eq hop)
    (skipped_parens _ _) hrhs fun _ _ _ => .assign

theorem reads_conditional {e'' : Term} (h : e.Reads) (h' : e'.Reads) (h'' : e''.Reads) :
    (conditional e e' e'').Reads := by
  intro limit depth cs hfits
  have hends := endsAssignment_of_closes (c := ')') rfl cs
  have hcolon := endsAssignment_of_closes (c := ':') rfl (' ' :: (parens e''.print ++ ')' :: cs))
  have hquestion := Syntax.endsChain_question
    (parens e'.print ++ (' ' :: ':' :: ' ' :: (parens e''.print ++ ')' :: cs)))
  rw [print] at hfits ⊢
  have htext : parens e.print ++ ' ' :: '?' :: ' ' :: parens e'.print ++
      ' ' :: ':' :: ' ' :: parens e''.print ++ ')' :: cs = parens e.print ++ (' ' :: '?' :: ' ' ::
        (parens e'.print ++ (' ' :: ':' :: ' ' :: (parens e''.print ++ ')' :: cs)))) := by
    simp
  have hlength : e.print.length + e'.print.length + e''.print.length + 2 ≤ (parens e.print ++
      ' ' :: '?' :: ' ' :: parens e'.print ++ ' ' :: ':' :: ' ' :: parens e''.print).length := by
    simp
    omega
  rw [htext]
  have hcond := h.unary (hfits.inside (n := 1) (by omega))
    ((skipped_space _).trans hquestion.skipped_eq) hquestion.toEndsOperand
  have hyes := h'.assignment (hfits.inside (n := 2) (by omega))
    ((skipped_space _).trans hcolon.skipped_eq) hcolon
  have hno := h''.assignment (hfits.inside (n := 2) (by omega)) hends.skipped_eq hends
  refine Syntax.assignment_of_conditional ?_ hends.skipped_eq hends
  exact Syntax.conditional_of_branches (Syntax.binary_of_unary hcond hquestion.skipped_eq hquestion)
    (skipped_parens _ _) hyes (skipped_parens _ _) hno fun _ _ _ _ => .conditional

theorem reads_unary (op : UnaryOp) (h : e.Reads) : (unary op e).Reads := by
  intro limit depth cs hfits
  have hends := endsAssignment_of_closes (c := ')') rfl cs
  rw [print] at hfits ⊢
  have hoperand := h.operand (hfits.inside (n := 1) (by simp; omega)) (')' :: cs)
  have hside := Syntax.leftHandSide_of_operand hoperand hends.skipped_eq hends.accessor
  have hpostfixed := Syntax.postfixed_of_leftHandSide hside hends.skipped_eq hends.toEndsOperand
  rw [parens_append e.print] at hpostfixed
  rw [List.append_assoc, parens_append e.print]
  exact Syntax.assignment_of_unary (Syntax.unary_of_unaryOp hpostfixed fun _ _ => .unary) hends

theorem reads_update (op : UpdateOp) (h : e.Reads) : (update op e).Reads := by
  intro limit depth cs hfits
  have hends := endsAssignment_of_closes (c := ')') rfl cs
  rw [print] at hfits ⊢
  have hoperand := h.operand (hfits.inside (n := 1) (by simp; omega))
    (op.symbol.toList ++ ')' :: cs)
  have hside := Syntax.leftHandSide_of_operand hoperand (Syntax.skipped_updateOp op _)
    (Syntax.accessor_updateOp op _)
  rw [List.append_assoc]
  refine Syntax.assignment_of_unary ?_ hends
  rw [parens_append e.print] at hside ⊢
  exact Syntax.unary_of_postfixed rfl (fun _ _ => ⟨_, rfl⟩)
    (Syntax.postfixed_of_updateOp hside fun _ _ => .update)

/-! ### Accesses and calls -/

/-- An operand with one accessor behind it. -/
theorem reads_accessor {whole : Term} {Acc : Syntax.Accessor → Prop} (h : e.Reads)
    (hfits : Fits limit depth e.print) (hskip : rules.skipped cs = cs)
    (hacc : Matches rules limit depth Syntax.accessor cs Acc (')' :: rest))
    (hshown : ∀ start t span a, e.Grouped t → Acc a →
      whole.Shown (Syntax.access start t (span, a))) :
    Matches rules limit (depth + 1) Syntax.assignment (parens e.print ++ cs) whole.Shown
      (')' :: rest) := by
  have hends := endsAssignment_of_closes (c := ')') rfl rest
  have hside := Syntax.leftHandSide_of_accessor (h.operand hfits cs) hskip hacc hends.toEndsOperand
    hshown
  rw [parens_append e.print] at hside ⊢
  exact Syntax.assignment_of_unary
    (Syntax.unary_of_leftHandSide rfl (fun _ _ => ⟨_, rfl⟩) hside hends.toEndsOperand) hends

theorem reads_member (property : PropertyName) (h : e.Reads) : (member e property).Reads := by
  intro limit depth cs hfits
  rw [print] at hfits ⊢
  have hname : Matches rules limit (depth + 1) Syntax.propertyName
      (property.text.toList ++ ')' :: cs) (· = property.text) (')' :: cs) :=
    Syntax.propertyName_append property rfl cs
  rw [← property.skipped_eq] at hname
  have hacc : Matches rules limit (depth + 1) Syntax.accessor
      ('.' :: (property.text.toList ++ ')' :: cs)) (· = .member property.text) (')' :: cs) :=
    .alt_left ((((Syntax.mark_append "." _).right hname).map fun _ h => h ▸ rfl).labelled _)
  rw [List.append_assoc]
  refine reads_accessor h (hfits.inside (n := 1) (by simp; omega)) rfl hacc ?_
  rintro start t span _ ht rfl
  exact .member ht

theorem reads_element (h : e.Reads) (h' : e'.Reads) : (element e e').Reads := by
  intro limit depth cs hfits
  rw [print] at hfits ⊢
  have hbracket := endsAssignment_of_closes (c := ']') rfl (')' :: cs)
  have hindex := h'.assignment (hfits.inside (n := 2) (by simp; omega)) hbracket.skipped_eq hbracket
  have hexpression := Syntax.expression_of_assignment hindex rfl (by decide)
  rw [← skipped_parens] at hexpression
  have hacc : Matches rules limit (depth + 1) Syntax.accessor
      ('[' :: (parens e'.print ++ ']' :: ')' :: cs)) (fun a => ∃ t, a = .element t ∧ e'.Grouped t)
      (')' :: cs) := by
    have hbrackets := Syntax.between_marks "[" "]" hexpression hbracket.skipped_eq
    refine .alt_right (fun _ _ => ⟨_, rfl⟩) (.alt_left ((hbrackets.map ?_).labelled _))
    intro t ht
    exact ⟨t, rfl, ht⟩
  have htext : parens e.print ++ '[' :: parens e'.print ++ [']'] ++ ')' :: cs
      = parens e.print ++ '[' :: (parens e'.print ++ ']' :: ')' :: cs) := by
    simp
  rw [htext]
  refine reads_accessor h (hfits.inside (n := 1) (by simp; omega)) rfl hacc ?_
  rintro start t span _ ht ⟨t', rfl, ht'⟩
  exact .element ht ht'

/-! ### Lists of operands -/

section Lists

variable {es : List Term} {pairs : List (PropertyName × Term)}

theorem items_fit {β : Type} (text : β → List Char) (xs : List β) {whole : List Char}
    (hfits : Fits limit depth whole)
    (hlength : (separated (xs.map text)).length + 2 ≤ whole.length) :
    xs.length ≤ limit ∧ ∀ x ∈ xs, (text x).length + 2 ≤ whole.length := by
  obtain ⟨hcount, hall⟩ := length_le_separated (xs.map text)
  rw [List.length_map] at hcount
  refine ⟨by have := hfits.1; omega, fun x hx => ?_⟩
  have := hall (text x) (List.mem_map_of_mem hx)
  omega

theorem items_operands (h : ∀ e ∈ es, e.Reads) {whole : List Char}
    (hfits : Fits limit (depth + 2) whole)
    (hlength : (separated (printOperands es)).length + 2 ≤ whole.length) :
    es.length ≤ limit ∧
      ∀ e ∈ es, ReadsItem limit (depth + 1) Syntax.assignment (parens e.print) e.Grouped := by
  rw [printOperands_eq] at hlength
  obtain ⟨hlimit, hall⟩ := items_fit _ es hfits hlength
  refine ⟨hlimit, fun e he => (h e he).item (hfits.inside (n := 2) ?_)⟩
  have := hall e he
  rw [length_parens] at this
  omega

theorem refuses_assignment {c : Char} (hc : Syntax.startsExpression c = false)
    (hcloses : Syntax.closes c = true) (cs : List Char) :
    Refuses rules limit depth Syntax.assignment (c :: cs) :=
  (Syntax.opens_assignment fun _ h => h).refuses hc (endsAssignment_of_closes hcloses cs).skipped_eq

theorem arguments_operands (h : ∀ e ∈ es, e.Reads)
    (hfits : Fits limit (depth + 2) (parens (separated (printOperands es)))) (cs : List Char) :
    Matches rules limit (depth + 1) Syntax.arguments (parens (separated (printOperands es)) ++ cs)
      (GroupedAll es) cs := by
  obtain ⟨hlimit, hitems⟩ := items_operands h hfits (by simp)
  have hend : Refuses rules limit (depth + 1) Syntax.assignment (')' :: cs) :=
    refuses_assignment rfl rfl cs
  have hlist := Syntax.optional_separated hitems rfl (by decide) hlimit hend
  rw [← Syntax.skipped_separated hitems rfl] at hlist
  rw [parens_append, printOperands_eq]
  have hskip := (endsAssignment_of_closes (c := ')') rfl cs).skipped_eq
  refine (Syntax.between_marks "(" ")" hlist hskip).labelled _ |>.weaken ?_
  exact fun _ => .of_forall₂

theorem reads_invoke (h : e.Reads) (hs : ∀ e ∈ es, e.Reads) : (invoke e es).Reads := by
  intro limit depth cs hfits
  rw [print] at hfits ⊢
  have hargs := arguments_operands hs (hfits.inside (n := 0) (by simp)) (')' :: cs)
  have hacc : Matches rules limit (depth + 1) Syntax.accessor
      (parens (separated (printOperands es)) ++ ')' :: cs)
      (fun a => ∃ ts, a = .arguments ts ∧ GroupedAll es ts) (')' :: cs) := by
    rw [parens_append] at hargs ⊢
    refine .alt_right (fun _ _ => ⟨_, rfl⟩) (.alt_right (fun _ _ => ⟨_, rfl⟩) (hargs.map ?_))
    intro ts hts
    exact ⟨ts, rfl, hts⟩
  rw [List.append_assoc]
  refine reads_accessor h (hfits.inside (n := 1) (by simp; omega)) (skipped_parens _ _) hacc ?_
  rintro start t span _ ht ⟨ts, rfl, hts⟩
  exact .invoke ht hts

theorem reads_construct (h : e.Reads) (hs : ∀ e ∈ es, e.Reads) : (construct e es).Reads := by
  intro limit depth cs hfits
  rw [print] at hfits ⊢
  have hends := endsAssignment_of_closes (c := ')') rfl cs
  obtain ⟨depth, rfl⟩ : ∃ d, depth = d + 1 := ⟨depth - 1, by
    have hdepth := hfits.2
    simp at hdepth
    omega⟩
  have hargs := arguments_operands hs (hfits.inside (n := 1) (by simp; omega)) (')' :: cs)
  have hcallee := h.operand (hfits.inside (n := 2) (by simp; omega))
    (parens (separated (printOperands es)) ++ ')' :: cs)
  rw [parens_append (separated (printOperands es))] at hargs hcallee
  have hnew := Syntax.newExpression_of_operand (B := (construct e es).Shown)
    (skipped_parens e.print _) hcallee hargs fun _ _ _ => .construct
  have htext : 'n' :: 'e' :: 'w' :: ' ' :: parens e.print ++ parens (separated (printOperands es))
      ++ ')' :: cs = 'n' :: 'e' :: 'w' :: ' ' :: (parens e.print ++
        '(' :: (separated (printOperands es) ++ ')' :: ')' :: cs)) := by
    simp [parens_append (separated (printOperands es))]
  rw [htext]
  refine Syntax.assignment_of_unary ?_ hends
  exact Syntax.unary_of_operand rfl (fun _ _ => ⟨_, rfl⟩) (.alt_left (.call hnew)) hends.skipped_eq
    hends.toEndsOperand

theorem reads_array (hs : ∀ e ∈ es, e.Reads) : (array es).Reads := by
  intro limit depth cs hfits
  rw [print] at hfits ⊢
  obtain ⟨hlimit, hitems⟩ := items_operands hs hfits (by simp)
  have hend : Refuses rules limit (depth + 1) Syntax.assignment (']' :: ')' :: cs) :=
    refuses_assignment rfl rfl _
  have hlist := Syntax.items_between_marks "[" "]" hitems rfl rfl (by decide) hlimit hend
  have hread : Matches rules limit (depth + 1) Syntax.arrayLit
      ('[' :: (separated (printOperands es) ++ ']' :: ')' :: cs)) (array es).Shown (')' :: cs) := by
    rw [printOperands_eq]
    refine (hlist.spanned.map ?_).labelled _
    rintro ⟨span, ts⟩ hts
    exact .array (.of_forall₂ hts)
  have htext : '[' :: separated (printOperands es) ++ [']'] ++ ')' :: cs
      = '[' :: (separated (printOperands es) ++ ']' :: ')' :: cs) := by
    simp
  rw [htext]
  exact Syntax.assignment_of_primary rfl (.call fun _ _ _ => ⟨_, rfl⟩) (fun _ _ => ⟨_, rfl⟩)
    (Syntax.primary_of_arrayLit hread) rfl

/-! ### Pairs -/

theorem Reads.property {pair : PropertyName × Term} (h : pair.2.Reads)
    (hfits : Fits limit depth pair.2.print) :
    ReadsItem limit (depth + 1) Syntax.property (pairText pair) (PairShown pair) where
  skipped_eq cs := by
    rw [pairText, keyed, List.append_assoc]
    exact pair.1.skipped_eq _
  reads c cs hc := by
    have hends := endsAssignment_of_closes hc cs
    have hvalue := h.assignment hfits hends.skipped_eq hends
    rw [← skipped_parens, ← skipped_space] at hvalue
    have hkey : Matches rules limit (depth + 1) Syntax.propertyKey
        (pair.1.text.toList ++ ':' :: ' ' :: (parens pair.2.print ++ c :: cs))
        (· = pair.1.text) _ :=
      Syntax.propertyKey_append pair.1 rfl _
    rw [pairText, keyed, List.append_assoc]
    refine ((hkey.seq ((Syntax.mark_append ":" _).right hvalue)).spanned.map ?_).labelled _
    rintro ⟨span, _, t⟩ ⟨rfl, ht⟩
    exact ⟨span, t, rfl, ht⟩

theorem reads_object (hs : ∀ pair ∈ pairs, pair.2.Reads) : (object pairs).Reads := by
  intro limit depth cs hfits
  rw [print, printPairs_eq] at hfits ⊢
  obtain ⟨hlimit, hall⟩ := items_fit pairText pairs hfits (by simp)
  have hitems : ∀ pair ∈ pairs,
      ReadsItem limit (depth + 1) Syntax.property (pairText pair) (PairShown pair) := by
    intro pair hpair
    have hvalue : pair.2.print.length ≤ (pairText pair).length := by
      simp [pairText, keyed]
      omega
    have hlength := hall pair hpair
    exact (hs pair hpair).property (hfits.inside (n := 2) (by omega))
  have hend : Refuses rules limit (depth + 1) Syntax.property ('\x7d' :: ')' :: cs) :=
    (Syntax.opens_property fun _ h => h).refuses rfl rfl
  have hlist := Syntax.items_between_marks "\x7b" "\x7d" hitems rfl rfl (by decide)
    hlimit hend
  have hread : Matches rules limit (depth + 1) Syntax.objectLit
      ('\x7b' :: (separated (pairs.map pairText) ++ '\x7d' :: ')' :: cs)) (object pairs).Shown
      (')' :: cs) := by
    refine (hlist.spanned.map ?_).labelled _
    rintro ⟨span, ts⟩ hts
    exact .object (.of_forall₂ hts)
  have htext : '\x7b' :: separated (pairs.map pairText) ++ ['\x7d'] ++ ')' :: cs
      = '\x7b' :: (separated (pairs.map pairText) ++ '\x7d' :: ')' :: cs) := by
    simp
  rw [htext]
  exact Syntax.assignment_of_primary rfl (.call fun _ _ _ => ⟨_, rfl⟩) (fun _ _ => ⟨_, rfl⟩)
    (Syntax.primary_of_objectLit hread) rfl

end Lists

/-! ### All terms -/

mutual

theorem reads : (e : Term) → e.Reads
  | identifier name => fun _ _ cs _ => Syntax.assignment_identifier name cs
  | number digits => fun _ _ cs _ => Syntax.assignment_number digits cs
  | string letters => by
    intro limit depth cs _
    rw [print, List.append_assoc]
    exact Syntax.assignment_string letters cs
  | boolean value => fun _ _ cs _ => Syntax.assignment_boolean value cs
  | null => fun _ _ cs _ => Syntax.assignment_null cs
  | this => fun _ _ cs _ => Syntax.assignment_this cs
  | binary op lhs rhs => reads_binary op lhs.reads rhs.reads
  | unary op operand => reads_unary op operand.reads
  | update op operand => reads_update op operand.reads
  | conditional cond yes no => reads_conditional cond.reads yes.reads no.reads
  | assign op lhs rhs => reads_assign op lhs.reads rhs.reads
  | invoke callee args => reads_invoke callee.reads (reads_operands args)
  | construct callee args => reads_construct callee.reads (reads_operands args)
  | member target property => reads_member property target.reads
  | element target index => reads_element target.reads index.reads
  | array items => reads_array (reads_operands items)
  | object pairs => reads_object (reads_pairs pairs)

theorem reads_operands : (es : List Term) → ∀ e ∈ es, e.Reads
  | [] => List.forall_mem_nil _
  | e :: es => List.forall_mem_cons.2 ⟨e.reads, reads_operands es⟩

theorem reads_pairs : (pairs : List (PropertyName × Term)) → ∀ pair ∈ pairs, pair.2.Reads
  | [] => List.forall_mem_nil _
  | (_, value) :: pairs => List.forall_mem_cons.2 ⟨value.reads, reads_pairs pairs⟩

end

/-! ### Terms as programs -/

/-- At the end of the text there is no statement. -/
theorem refuses_statement : Refuses rules limit depth Syntax.statement [] := by
  obtain ⟨hblock, hothers⟩ := Syntax.opens_statements (S := fun _ => true) fun _ _ => rfl
  have hexpression : Grammar.Opens rules (fun _ => true) Syntax.expressionStatement :=
    Syntax.opens_construct (Syntax.opens_expression fun _ _ => rfl).left _ _
  have hbody : Grammar.Opens rules (fun _ => true) Syntax.statementBody := by
    refine .oneOf hblock ?_
    have hlast := List.forall_mem_append.2 ⟨hothers, List.forall_mem_singleton.2 hexpression⟩
    exact hlast
  exact .call fun depth => hbody limit depth [] rfl (by simp)

/-- A term in parentheses is a statement. -/
theorem Reads.statement (h : e.Reads) (hfits : Fits limit depth e.print) :
    Matches rules limit (depth + 2) Syntax.statement (parens e.print ++ [';'])
      (fun t => ∃ span t', t = .node span (.statement t') ∧ e.Grouped t') [] := by
  have hends := endsAssignment_of_closes (c := ';') rfl []
  have hassignment := h.assignment hfits hends.skipped_eq hends
  have hexpression := Syntax.expression_of_assignment hassignment rfl (by decide)
  have hsemicolon : Matches rules limit (depth + 1) Syntax.semicolon (rules.skipped [';'])
      (fun _ => True) [] := fun _ _ => ⟨_, _, _, rfl, trivial⟩
  have hread : Matches rules limit (depth + 1) Syntax.expressionStatement (parens e.print ++ [';'])
      (fun t => ∃ span t', t = .node span (.statement t') ∧ e.Grouped t') [] := by
    refine ((hexpression.left hsemicolon).spanned.map ?_).labelled _
    rintro ⟨span, t⟩ ht
    exact ⟨span, t, rfl, ht⟩
  obtain ⟨hblock, hothers⟩ := Syntax.opens_statements (S := (· != '(')) fun _ hc => hc
  rw [parens_append e.print] at hread ⊢
  refine .call ?_
  exact Matches.oneOf Syntax.keywordStatements (hblock.refuses rfl rfl)
    (fun p hp => (hothers p hp).refuses rfl rfl) hread

/-- A text of one statement is a program. -/
theorem program_of_statement {cs : List Char} {A : Tree → Prop} (hstart : rules.skipped cs = cs)
    (h : Matches rules limit depth Syntax.statement cs A []) :
    Matches rules limit depth Syntax.program cs (fun ts => ∃ t, ts = [t] ∧ A t) [] := by
  have hmany := Matches.many_cons h (.nil refuses_statement _)
  have hend : Matches rules limit depth Syntax.endOfInput (rules.skipped []) (fun _ => True)
      [] := fun _ _ => ⟨_, _, _, rfl, trivial⟩
  have hnothing : Matches rules limit depth (.lexeme Grammar.Lexeme.nothing) cs (· = []) cs :=
    .lexeme rfl
  rw [← hstart] at hmany
  refine ((hnothing.right (hmany.left hend)).labelled _).weaken ?_
  rintro _ ⟨t, _, rfl, ht, rfl⟩
  exact ⟨t, rfl, ht⟩

/-- What a text of one statement is parsed to. -/
theorem exists_parse_of_statement {cs : List Char} {A : Tree → Prop} {depth : Nat}
    (hstart : rules.skipped cs = cs) (hdepth : depth = callDepth cs)
    (h : Matches rules (cs.length + 1) depth Syntax.statement cs A []) :
    ∃ t, parse cs = .ok (.node ⟨0, Text.byteSize cs⟩ (.program [t])) ∧ A t := by
  subst hdepth
  obtain ⟨ts, offset, f, hrun, t, rfl, ht⟩ := program_of_statement hstart h 0 {}
  have hparse : rules.parseText Syntax.program (callDepth cs) cs
      = (some ([t], ⟨[], offset⟩), f) := hrun
  refine ⟨t, ?_, ht⟩
  unfold parse
  simp only [hparse]

theorem parse_print (e : Term) : ∃ span span' t,
    parse (parens e.print ++ [';']) = .ok (.node span (.program [.node span' (.statement t)])) ∧
      e.Grouped t := by
  have hstart := skipped_parens e.print [';']
  generalize hcs : parens e.print ++ [';'] = cs at hstart ⊢
  have hlength : e.print.length + 3 = cs.length := by simp [← hcs]
  have hfits : Fits (cs.length + 1) (3 * cs.length + 4) e.print := ⟨by omega, by omega⟩
  have hstatement := e.reads.statement hfits
  rw [hcs] at hstatement
  obtain ⟨_, hparse, span', t, rfl, ht⟩ := exists_parse_of_statement hstart rfl hstatement
  exact ⟨_, span', t, hparse, ht⟩

/-- Every term in parentheses is recovered from its text: the text has a module, whose program is
one statement, and its expression is the term with a group around it and around every operand. -/
theorem parenthesized_terms_are_recovered (e : Term) :
    ∃ m, Module.ofText (parens e.print ++ [';']) = .ok m ∧
      ∃ span span' t, m.tree m.root = .node span (.program [.node span' (.statement t)]) ∧
        e.Grouped t := by
  obtain ⟨span, span', t, hparse, ht⟩ := e.parse_print
  generalize parens e.print ++ [';'] = cs at hparse ⊢
  let blockAt := DocComments.blockAt? (DocComments.scan cs)
  have hmodule : Module.ofText cs = .ok (Module.ofTree (Tree.document blockAt {}
      (.node span (.program [.node span' (.statement t)])))) := by
    unfold Module.ofText
    simp only [hparse, blockAt]
  refine ⟨_, hmodule, ?_⟩
  rw [Module.tree_root_ofTree]
  have hdocument : e.Grouped (t.document blockAt { claimed := some span'.start }) := ht.document _
  cases ht with
  | group h => exact ⟨span, span', _, rfl, hdocument⟩

end Term

end ScriptTypes.Script
