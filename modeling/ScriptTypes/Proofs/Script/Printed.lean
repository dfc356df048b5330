import ScriptTypes.Proofs.Script.Opening
import ScriptTypes.Script.Documented

/-!
# Terms and how they are printed

A term is an expression without statements inside: names, numbers, strings and the words that are
expressions of their own, and the operators, calls, accesses and literals over them. It is printed
with every operand in parentheses. A tree shows a term if it is the term with a group around every
operand; documentation does not change that, as there is nothing in a term to document.
-/

namespace ScriptTypes.Script

/-! ### Terms -/

def isPropertyName (name : String) : Bool :=
  match name.toList with
  | [] => false
  | c :: cs => Lexeme.isNameStart c && cs.all Lexeme.isNameChar

/-- A name that a property can have; it may be reserved. -/
structure PropertyName where
  text : String
  valid : isPropertyName text = true

theorem PropertyName.exists_chars (name : PropertyName) :
    ∃ c cs, name.text.toList = c :: cs ∧ Lexeme.isNameStart c = true ∧ Lexeme.IsWord cs := by
  have hvalid := name.valid
  unfold isPropertyName at hvalid
  split at hvalid
  · cases hvalid
  · rename_i c cs heq
    obtain ⟨hc, hcs⟩ := Bool.and_eq_true_iff.1 hvalid
    exact ⟨c, cs, heq, hc, List.all_eq_true.1 hcs⟩

/-- A name that a variable can have. -/
structure Identifier extends PropertyName where
  free : text ∉ Lexeme.reserved

/-- The digits of an integer. -/
structure Digits where
  chars : List Char
  ne_nil : chars ≠ []
  digit : ∀ c ∈ chars, Lexeme.isDigit c = true

/-- A text of lower-case letters. -/
structure Letters where
  chars : List Char
  letter : ∀ c ∈ chars, 'a' ≤ c ∧ c ≤ 'z'

inductive Term where
  | identifier (name : Identifier)
  | number (digits : Digits)
  | string (letters : Letters)
  | boolean (value : Bool)
  | null
  | this
  | binary (op : BinaryOp) (lhs rhs : Term)
  | unary (op : UnaryOp) (operand : Term)
  | update (op : UpdateOp) (operand : Term)
  | conditional (cond yes no : Term)
  | assign (op : AssignOp) (lhs rhs : Term)
  | invoke (callee : Term) (args : List Term)
  | construct (callee : Term) (args : List Term)
  | member (object : Term) (property : PropertyName)
  | element (object index : Term)
  | array (items : List Term)
  | object (pairs : List (PropertyName × Term))

/-! ### Printing -/

def parens (text : List Char) : List Char := '(' :: text ++ [')']

/-- Texts with a comma and a space before each. -/
def following : List (List Char) → List Char
  | [] => []
  | text :: texts => ',' :: ' ' :: text ++ following texts

/-- Texts with a comma and a space between them. -/
def separated : List (List Char) → List Char
  | [] => []
  | text :: texts => text ++ following texts

/-- A key and its value. -/
def keyed (key : PropertyName) (value : List Char) : List Char :=
  key.text.toList ++ ':' :: ' ' :: parens value

/-- Two operands with an operator between them. -/
def between (lhs : List Char) (symbol : String) (rhs : List Char) : List Char :=
  parens lhs ++ ' ' :: symbol.toList ++ ' ' :: parens rhs

theorem parens_append (text cs : List Char) : parens text ++ cs = '(' :: (text ++ ')' :: cs) := by
  simp [parens]

@[simp]
theorem length_parens (text : List Char) : (parens text).length = text.length + 2 := by
  simp [parens]

theorem between_append (lhs rhs : List Char) (symbol : String) (cs : List Char) :
    between lhs symbol rhs ++ cs
      = parens lhs ++ (' ' :: (symbol.toList ++ ' ' :: (parens rhs ++ cs))) := by
  simp [between]

theorem length_between (lhs rhs : List Char) (symbol : String) :
    lhs.length + rhs.length + 6 ≤ (between lhs symbol rhs).length := by
  simp [between]
  omega

theorem length_le_following (texts : List (List Char)) :
    texts.length ≤ (following texts).length ∧
      ∀ text ∈ texts, text.length ≤ (following texts).length := by
  induction texts with
  | nil => exact ⟨Nat.le_refl 0, List.forall_mem_nil _⟩
  | cons text texts ih =>
    obtain ⟨hcount, hall⟩ := ih
    have hlength : (following (text :: texts)).length
        = text.length + (following texts).length + 2 := by
      simp [following, Nat.add_right_comm]
    refine ⟨by rw [hlength, List.length_cons]; omega, List.forall_mem_cons.2 ⟨by omega, ?_⟩⟩
    intro text' htext'
    have := hall text' htext'
    omega

/-- A list is at least as long as each of its texts, and has hardly more texts than characters. -/
theorem length_le_separated (texts : List (List Char)) :
    texts.length ≤ (separated texts).length + 1 ∧
      ∀ text ∈ texts, text.length ≤ (separated texts).length := by
  cases texts with
  | nil => exact ⟨Nat.zero_le _, List.forall_mem_nil _⟩
  | cons text texts =>
    obtain ⟨hcount, hall⟩ := length_le_following texts
    have hlength : (separated (text :: texts)).length = text.length + (following texts).length := by
      simp [separated]
    refine ⟨by rw [hlength, List.length_cons]; omega, List.forall_mem_cons.2 ⟨by omega, ?_⟩⟩
    intro text' htext'
    have := hall text' htext'
    omega

namespace Term

mutual

/-- The text of a term, with every operand in parentheses. -/
def print : Term → List Char
  | identifier name => name.text.toList
  | number digits => digits.chars
  | string letters => '\x27' :: letters.chars ++ ['\x27']
  | boolean true => ['t', 'r', 'u', 'e']
  | boolean false => ['f', 'a', 'l', 's', 'e']
  | null => ['n', 'u', 'l', 'l']
  | this => ['t', 'h', 'i', 's']
  | binary op lhs rhs => between lhs.print op.symbol rhs.print
  | unary op operand => op.symbol.toList ++ parens operand.print
  | update op operand => parens operand.print ++ op.symbol.toList
  | conditional cond yes no =>
    parens cond.print ++ ' ' :: '?' :: ' ' :: parens yes.print ++
      ' ' :: ':' :: ' ' :: parens no.print
  | assign op lhs rhs => between lhs.print op.symbol rhs.print
  | invoke callee args => parens callee.print ++ parens (separated (printOperands args))
  | construct callee args =>
    'n' :: 'e' :: 'w' :: ' ' :: parens callee.print ++ parens (separated (printOperands args))
  | member target property => parens target.print ++ '.' :: property.text.toList
  | element target index => parens target.print ++ '[' :: parens index.print ++ [']']
  | array items => '[' :: separated (printOperands items) ++ [']']
  | object pairs => '\x7b' :: separated (printPairs pairs) ++ ['\x7d']

def printOperands : List Term → List (List Char)
  | [] => []
  | e :: es => parens e.print :: printOperands es

def printPairs : List (PropertyName × Term) → List (List Char)
  | [] => []
  | (key, value) :: pairs => keyed key value.print :: printPairs pairs

end

theorem print_ne_nil (e : Term) : e.print ≠ [] := by
  cases e with
  | identifier name =>
    obtain ⟨c, cs, heq, -⟩ := name.exists_chars
    rw [print, heq]
    exact List.cons_ne_nil c cs
  | number digits => exact digits.ne_nil
  | boolean value => cases value <;> exact List.cons_ne_nil _ _
  | unary op operand => cases op <;> exact List.cons_ne_nil _ _
  | _ => exact List.cons_ne_nil _ _

theorem printOperands_eq (es : List Term) : printOperands es = es.map fun e => parens e.print := by
  induction es with
  | nil => rfl
  | cons e es ih => rw [printOperands, ih, List.map_cons]

def pairText (pair : PropertyName × Term) : List Char := keyed pair.1 pair.2.print

theorem printPairs_eq (pairs : List (PropertyName × Term)) :
    printPairs pairs = pairs.map pairText := by
  induction pairs with
  | nil => rfl
  | cons pair pairs ih => rw [printPairs, ih, List.map_cons, pairText]

/-! ### Trees that show terms -/

mutual

/-- The tree is the term with a group around every operand. -/
inductive Shown : Term → Tree → Prop
  | identifier {name : Identifier} {span : Span} :
    Shown (.identifier name) (.node span (.identifier name.text))
  | number {digits : Digits} {span : Span} : Shown (.number digits) (.node span
      (.literal (.number (Numeral.decimalWord (Numeral.spell 10 digits.chars) 0))))
  | string {letters : Letters} {span : Span} :
    Shown (.string letters) (.node span (.literal (.string (String.ofList letters.chars))))
  | boolean {value : Bool} {span : Span} :
    Shown (.boolean value) (.node span (.literal (.boolean value)))
  | null {span : Span} : Shown .null (.node span .null)
  | this {span : Span} : Shown .this (.node span .this)
  | binary {op : BinaryOp} {e e' : Term} {t t' : Tree} {span : Span} (h : Grouped e t)
      (h' : Grouped e' t') : Shown (.binary op e e') (.node span (.binary op t t'))
  | unary {op : UnaryOp} {e : Term} {t : Tree} {span : Span} (h : Grouped e t) :
    Shown (.unary op e) (.node span (.unary op t))
  | update {op : UpdateOp} {e : Term} {t : Tree} {span : Span} (h : Grouped e t) :
    Shown (.update op e) (.node span (.update op t))
  | conditional {c y n : Term} {tc ty tn : Tree} {span : Span} (hc : Grouped c tc)
      (hy : Grouped y ty) (hn : Grouped n tn) :
    Shown (.conditional c y n) (.node span (.conditional tc ty tn))
  | assign {op : AssignOp} {e e' : Term} {t t' : Tree} {span : Span} (h : Grouped e t)
      (h' : Grouped e' t') : Shown (.assign op e e') (.node span (.assign op t t'))
  | invoke {e : Term} {es : List Term} {t : Tree} {ts : List Tree} {span : Span} (h : Grouped e t)
      (hs : GroupedAll es ts) : Shown (.invoke e es) (.node span (.invoke t ts))
  | construct {e : Term} {es : List Term} {t : Tree} {ts : List Tree} {span : Span}
      (h : Grouped e t) (hs : GroupedAll es ts) :
    Shown (.construct e es) (.node span (.construct t ts))
  | member {e : Term} {property : PropertyName} {t : Tree} {span : Span} (h : Grouped e t) :
    Shown (.member e property) (.node span (.member t property.text))
  | element {e e' : Term} {t t' : Tree} {span : Span} (h : Grouped e t) (h' : Grouped e' t') :
    Shown (.element e e') (.node span (.element t t'))
  | array {es : List Term} {ts : List Tree} {span : Span} (hs : GroupedAll es ts) :
    Shown (.array es) (.node span (.array ts))
  | object {pairs : List (PropertyName × Term)} {ts : List Tree} {span : Span}
      (hs : PairsShown pairs ts) : Shown (.object pairs) (.node span (.object ts))

inductive Grouped : Term → Tree → Prop
  | group {e : Term} {t : Tree} {span : Span} (h : Shown e t) : Grouped e (.node span (.group t))

inductive GroupedAll : List Term → List Tree → Prop
  | nil : GroupedAll [] []
  | cons {e : Term} {es : List Term} {t : Tree} {ts : List Tree} (h : Grouped e t)
      (hs : GroupedAll es ts) : GroupedAll (e :: es) (t :: ts)

inductive PairsShown : List (PropertyName × Term) → List Tree → Prop
  | nil : PairsShown [] []
  | cons {key : PropertyName} {e : Term} {pairs : List (PropertyName × Term)} {t : Tree}
      {ts : List Tree} {span : Span} (h : Grouped e t) (hs : PairsShown pairs ts) :
    PairsShown ((key, e) :: pairs) (.node span (.pair key.text t) :: ts)

end

theorem GroupedAll.of_forall₂ {es : List Term} {ts : List Tree}
    (h : List.Forall₂ Grouped es ts) : GroupedAll es ts := by
  induction h with
  | nil => exact .nil
  | cons h _ ih => exact .cons h ih

/-- The tree of a pair. -/
def PairShown (pair : PropertyName × Term) (t : Tree) : Prop :=
  ∃ span t', t = .node span (.pair pair.1.text t') ∧ pair.2.Grouped t'

theorem PairsShown.of_forall₂ {pairs : List (PropertyName × Term)} {ts : List Tree}
    (h : List.Forall₂ PairShown pairs ts) : PairsShown pairs ts := by
  induction h with
  | nil => exact .nil
  | cons h _ ih =>
    obtain ⟨span, t, rfl, ht⟩ := h
    exact .cons ht ih

section Document

variable {blockAt : Nat → Option Doc.Block}

mutual

theorem Shown.document {e : Term} {t : Tree} (h : Shown e t) (ctx : Context) :
    Shown e (t.document blockAt ctx) := by
  cases h with
  | identifier => exact .identifier
  | number => exact .number
  | string => exact .string
  | boolean => exact .boolean
  | null => exact .null
  | this => exact .this
  | binary h h' => exact .binary (h.document _) (h'.document _)
  | unary h => exact .unary (h.document _)
  | update h => exact .update (h.document _)
  | conditional hc hy hn => exact .conditional (hc.document _) (hy.document _) (hn.document _)
  | assign h h' => exact .assign (h.document _) (h'.document _)
  | invoke h hs => exact .invoke (h.document _) (hs.document _)
  | construct h hs => exact .construct (h.document _) (hs.document _)
  | member h => exact .member (h.document _)
  | element h h' => exact .element (h.document _) (h'.document _)
  | array hs => exact .array (hs.document _)
  | object hs => exact .object (hs.document _)

theorem Grouped.document {e : Term} {t : Tree} (h : Grouped e t) (ctx : Context) :
    Grouped e (t.document blockAt ctx) := by
  cases h with
  | group h => exact .group (h.document _)

theorem GroupedAll.document {es : List Term} {ts : List Tree} (h : GroupedAll es ts)
    (ctx : Context) : GroupedAll es (documentAll blockAt ctx ts) := by
  cases h with
  | nil => exact .nil
  | cons h hs => exact .cons (h.document _) (hs.document _)

theorem PairsShown.document {pairs : List (PropertyName × Term)} {ts : List Tree}
    (h : PairsShown pairs ts) (ctx : Context) : PairsShown pairs (documentAll blockAt ctx ts) := by
  cases h with
  | nil => exact .nil
  | cons h hs =>
    cases h with
    | group h => exact .cons (.group (h.document _)) (hs.document _)

end

end Document

end Term

end ScriptTypes.Script
