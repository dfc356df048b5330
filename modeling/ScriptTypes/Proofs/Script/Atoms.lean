import Mathlib.Data.List.TakeDrop
import Mathlib.Data.List.TakeWhile
import ScriptTypes.Proofs.Script.Operands

/-!
# Reading the smallest terms

Names, words, numbers and strings, each up to the parenthesis behind it. They are primary
expressions; so are groups, array literals and object literals, each of which is known by its first
mark. What is read as a primary expression is an operand as long as neither an operator nor `new`
can be read in its place.
-/

namespace ScriptTypes.Script

open Grammar (Matches Opens Refuses)

/-! ### Characters of names -/

namespace Lexeme

theorem not_isNameStart_of_isDigit {c : Char} (h : isDigit c = true) :
    (!isNameStart c) = true := by
  have hdigits : ∀ n < 10, (!isNameStart (Char.ofNat (48 + n))) = true := by decide
  simp only [isDigit, Char.isDigit, Bool.and_eq_true, decide_eq_true_eq] at h
  obtain ⟨hlow, hhigh⟩ : 48 ≤ c.toNat ∧ c.toNat ≤ 57 := h
  have hc := hdigits (c.toNat - 48) (by omega)
  rwa [Nat.add_sub_cancel' hlow, Char.ofNat_toNat] at hc

theorem isNameChar_eq_false_of_isSpace {c : Char} (h : isSpace c = true) :
    isNameChar c = false := by
  simp only [isSpace, isLineEnd, Bool.or_eq_true, beq_iff_eq] at h
  rcases h with ((((((rfl | rfl) | ((rfl | rfl) | rfl) | rfl) | rfl) | rfl) | rfl) | rfl) <;>
    decide +kernel

theorem isWord_of_mem_reserved {w : String} (h : w ∈ reserved) : IsWord w.toList := by
  have hall : ∀ w ∈ reserved, w.toList.all isNameChar = true := by decide +kernel
  exact List.all_eq_true.1 (hall w h)

end Lexeme

theorem skipped_of_isNameChar {c : Char} (h : Lexeme.isNameChar c = true) (cs : List Char) :
    rules.skipped (c :: cs) = c :: cs := by
  refine skipped_of_solid ?_ ?_ cs
  · rw [Bool.eq_false_iff]
    intro hspace
    exact Bool.false_ne_true ((Lexeme.isNameChar_eq_false_of_isSpace hspace).symm.trans h)
  · rintro rfl
    cases h

namespace PropertyName

variable (name : PropertyName)

theorem isWord : Lexeme.IsWord name.text.toList := by
  obtain ⟨c, cs, heq, hc, hcs⟩ := name.exists_chars
  rw [heq]
  exact List.forall_mem_cons.2 ⟨Bool.or_eq_true_iff.2 (.inl hc), hcs⟩

theorem skipped_eq (cs : List Char) :
    rules.skipped (name.text.toList ++ cs) = name.text.toList ++ cs := by
  obtain ⟨c, ds, heq, hc, -⟩ := name.exists_chars
  rw [heq]
  exact skipped_of_isNameChar (Bool.or_eq_true_iff.2 (.inl hc)) _

/-- What starts with no name refuses one. -/
theorem refuses {α : Type} {p : Syntax.Expr α} (h : Opens rules (!Lexeme.isNameStart ·) p)
    {limit depth : Nat} (cs : List Char) :
    Refuses rules limit depth p (name.text.toList ++ cs) := by
  have hskip := name.skipped_eq cs
  obtain ⟨c, ds, heq, hc, -⟩ := name.exists_chars
  rw [heq, List.cons_append] at hskip ⊢
  exact h.refuses (by rw [hc]; rfl) hskip

theorem lexeme_append {c : Char} (hc : Lexeme.isNameChar c = false) (cs : List Char) :
    Lexeme.propertyName (name.text.toList ++ c :: cs) = some (name.text.toList, c :: cs) := by
  obtain ⟨d, ds, heq, hd, hds⟩ := name.exists_chars
  rw [heq]
  exact Lexeme.propertyName_append hd hds hc cs

end PropertyName

namespace Identifier

variable (name : Identifier) {c : Char}

theorem lexeme_append (hc : Lexeme.isNameChar c = false) (cs : List Char) :
    Lexeme.identifier (name.text.toList ++ c :: cs) = some (name.text.toList, c :: cs) := by
  obtain ⟨d, ds, heq, hd, hds⟩ := name.exists_chars
  have hfree : String.ofList (d :: ds) ∉ Lexeme.reserved := by
    rw [← heq, String.ofList_toList]
    exact name.free
  rw [heq]
  exact Lexeme.identifier_append hd hds hfree hc cs

/-- No reserved word is taken off an identifier. -/
theorem word_append {w : String} (hw : w ∈ Lexeme.reserved) (hc : Lexeme.isNameChar c = false)
    (cs : List Char) : Lexeme.word w.toList (name.text.toList ++ c :: cs) = none := by
  rw [Lexeme.word_append name.isWord (Lexeme.isWord_of_mem_reserved hw) hc, if_neg]
  intro heq
  rw [String.toList_inj] at heq
  exact name.free (heq ▸ hw)

end Identifier

namespace Digits

variable (digits : Digits)

theorem exists_chars : ∃ c cs, digits.chars = c :: cs ∧ Lexeme.isDigit c = true := by
  obtain ⟨c, cs, heq⟩ := List.exists_cons_of_ne_nil digits.ne_nil
  exact ⟨c, cs, heq, digits.digit c (by rw [heq]; exact List.mem_cons_self)⟩

theorem skipped_eq (cs : List Char) :
    rules.skipped (digits.chars ++ cs) = digits.chars ++ cs := by
  obtain ⟨c, ds, heq, hc⟩ := digits.exists_chars
  rw [heq]
  exact skipped_of_isNameChar (Bool.or_eq_true_iff.2 (.inr hc)) _

/-- What starts with no digit refuses one. -/
theorem refuses {α : Type} {p : Syntax.Expr α} (h : Opens rules (!Lexeme.isDigit ·) p)
    {limit depth : Nat} (cs : List Char) :
    Refuses rules limit depth p (digits.chars ++ cs) := by
  have hskip := digits.skipped_eq cs
  obtain ⟨c, ds, heq, hc⟩ := digits.exists_chars
  rw [heq, List.cons_append] at hskip ⊢
  exact h.refuses (by rw [hc]; rfl) hskip

end Digits

namespace Syntax

variable {limit depth : Nat} {cs rest : List Char} {A : Tree → Prop}

/-! ### Leaves -/

theorem leaf_of_lexeme {lex : Grammar.Lexeme} {taken : List Char} (h : lex cs = some (taken, rest))
    {form : List Char → Form Tree} (hA : ∀ span, A (.node span (form taken))) (label : Label) :
    Matches rules limit depth (leaf label lex form) cs A rest := by
  refine ((Matches.lexeme h).spanned.map ?_).labelled label
  rintro ⟨span, _⟩ rfl
  exact hA span

theorem refuses_leaf {lex : Grammar.Lexeme} (h : lex cs = none) (label : Label)
    (form : List Char → Form Tree) : Refuses rules limit depth (leaf label lex form) cs :=
  (Refuses.lexeme h).spanned.map.labelled label

theorem refuses_means {α : Type} {lex : Grammar.Lexeme} (h : lex cs = none) (label : Label)
    (a : α) : Refuses rules limit depth (means label lex a) cs :=
  ((Refuses.lexeme h).labelled label).map

theorem refuses_keyword {w : String} (h : Lexeme.word w.toList cs = none) (label : Label) :
    Refuses rules limit depth (keyword label w) cs :=
  (Refuses.lexeme h).labelled label

/-! ### Primary expressions as operands -/

theorem assignment_of_ends (hstart : rules.skipped cs = cs)
    (hnew : Refuses rules limit depth (.call .newExpression) cs)
    (hop : Refuses rules limit depth unaryOp cs)
    (h : Matches rules limit depth primary cs A rest) (hends : EndsAssignment rest) :
    Matches rules limit (depth + 1) assignment cs A rest := by
  have hoperand : Matches rules limit depth operand cs A rest := .alt_right hnew h
  exact assignment_of_unary (unary_of_operand hstart hop hoperand hends.skipped_eq
    hends.toEndsOperand) hends

theorem assignment_of_primary {c : Char} (hstart : rules.skipped cs = cs)
    (hnew : Refuses rules limit depth (.call .newExpression) cs)
    (hop : Refuses rules limit depth unaryOp cs)
    (h : Matches rules limit depth primary cs A (c :: rest)) (hc : closes c = true) :
    Matches rules limit (depth + 1) assignment cs A (c :: rest) :=
  assignment_of_ends hstart hnew hop h (endsAssignment_of_closes hc rest)

/-! ### Marks that open a primary expression -/

/-- The primary expressions that are one lexeme, but for names. -/
def literals : List (Expr Tree) :=
  [thisLit, nullLit, booleanLit, numberLit, stringLit, templateLit, regexLit]

theorem refuses_literals {c : Char} (hc : c ∈ ['[', '\x7b', '(']) (cs : List Char) :
    Refuses rules limit depth functionExpression (c :: cs) ∧
      ∀ p ∈ literals, Refuses rules limit depth p (c :: cs) := by
  simp only [List.mem_cons, List.not_mem_nil, or_false] at hc
  simp only [literals, List.forall_mem_cons]
  rcases hc with rfl | rfl | rfl <;>
  exact ⟨fun _ _ => ⟨_, rfl⟩, fun _ _ => ⟨_, rfl⟩, fun _ _ => ⟨_, rfl⟩, fun _ _ => ⟨_, rfl⟩,
    fun _ _ => ⟨_, rfl⟩, fun _ _ => ⟨_, rfl⟩, fun _ _ => ⟨_, rfl⟩, fun _ _ => ⟨_, rfl⟩,
    List.forall_mem_nil _⟩

theorem primary_of_arrayLit (h : Matches rules limit depth arrayLit ('[' :: cs) A rest) :
    Matches rules limit depth primary ('[' :: cs) A rest := by
  obtain ⟨hfunction, hliterals⟩ := refuses_literals (c := '[') (by decide) cs
  exact Matches.oneOf literals hfunction hliterals h

theorem primary_of_objectLit (h : Matches rules limit depth objectLit ('\x7b' :: cs) A rest) :
    Matches rules limit depth primary ('\x7b' :: cs) A rest := by
  obtain ⟨hfunction, hliterals⟩ := refuses_literals (c := '\x7b') (by decide) cs
  have harray : Refuses rules limit depth arrayLit ('\x7b' :: cs) := fun _ _ => ⟨_, rfl⟩
  have hbefore := List.forall_mem_append.2 ⟨hliterals, List.forall_mem_singleton.2 harray⟩
  exact Matches.oneOf (literals ++ [arrayLit]) hfunction hbefore h

theorem primary_of_group (h : Matches rules limit depth group ('(' :: cs) A rest) :
    Matches rules limit depth primary ('(' :: cs) A rest := by
  obtain ⟨hfunction, hliterals⟩ := refuses_literals (c := '(') (by decide) cs
  have harray : Refuses rules limit depth arrayLit ('(' :: cs) := fun _ _ => ⟨_, rfl⟩
  have hobject : Refuses rules limit depth objectLit ('(' :: cs) := fun _ _ => ⟨_, rfl⟩
  have hbefore := List.forall_mem_append.2
    ⟨hliterals, List.forall_mem_cons.2 ⟨harray, List.forall_mem_singleton.2 hobject⟩⟩
  exact Matches.oneOf (literals ++ [arrayLit, objectLit]) hfunction hbefore h

/-! ### Names -/

theorem propertyName_append (name : PropertyName) {c : Char} (hc : Lexeme.isNameChar c = false)
    (cs : List Char) :
    Matches rules limit depth propertyName (name.text.toList ++ c :: cs) (· = name.text)
      (c :: cs) := by
  refine ((Matches.lexeme (name.lexeme_append hc cs)).labelled _).map ?_
  rintro _ rfl
  exact String.ofList_toList

theorem propertyKey_append (name : PropertyName) {c : Char} (hc : Lexeme.isNameChar c = false)
    (cs : List Char) :
    Matches rules limit depth propertyKey (name.text.toList ++ c :: cs) (· = name.text)
      (c :: cs) := by
  have hstring := opens_stringText (S := (!Lexeme.isNameStart ·)) rfl
    rfl
  have hnumber := opens_numberText (S := (!Lexeme.isNameStart ·))
    (fun _ => Lexeme.not_isNameStart_of_isDigit) rfl
  exact .alt_right (name.refuses hstring _)
    (.alt_right (name.refuses hnumber.map _) (propertyName_append name hc cs))

theorem unaryOp_identifier (name : Identifier) (cs : List Char) :
    Refuses rules limit depth unaryOp (name.text.toList ++ ')' :: cs) := by
  have hword {w : String} (hw : w ∈ Lexeme.reserved) :=
    name.word_append hw (c := ')') rfl cs
  have hmark {s : String} (hs : s.toList.head?.any (!Lexeme.isNameStart ·) = true) (label : Label)
      (op : UnaryOp) : Refuses rules limit depth (meansMark label s op)
        (name.text.toList ++ ')' :: cs) := name.refuses (opens_meansMark hs label op) _
  refine .oneOf (refuses_means (hword (w := "delete") (by decide)) _ _) ?_
  simp only [List.forall_mem_cons]
  exact ⟨refuses_means (hword (w := "void") (by decide)) _ _,
    refuses_means (hword (w := "typeof") (by decide)) _ _,
    hmark (s := "++") rfl _ _, hmark (s := "--") rfl _ _,
    hmark (s := "+") rfl _ _, hmark (s := "-") rfl _ _,
    hmark (s := "~") rfl _ _, hmark (s := "!") rfl _ _,
    List.forall_mem_nil _⟩

theorem primary_identifier (name : Identifier) (cs : List Char) :
    Matches rules limit depth primary (name.text.toList ++ ')' :: cs)
      (Term.Shown (.identifier name)) (')' :: cs) := by
  have hparen : Lexeme.isNameChar ')' = false := rfl
  have hword {w : String} (hw : w ∈ Lexeme.reserved) := name.word_append hw hparen cs
  have hother {p : Expr Tree} (hp : Opens rules (!Lexeme.isNameStart ·) p) :
      Refuses rules limit depth p (name.text.toList ++ ')' :: cs) := name.refuses hp _
  have hread : Matches rules limit depth Syntax.name (name.text.toList ++ ')' :: cs)
      (Term.Shown (.identifier name)) (')' :: cs) := by
    refine leaf_of_lexeme (name.lexeme_append hparen cs) (fun span => ?_) _
    rw [text, String.ofList_toList]
    exact .identifier
  have hfunction : Refuses rules limit depth functionExpression (name.text.toList ++ ')' :: cs) :=
    (refuses_keyword (hword (w := "function") (by decide)) _).seq_left.map.spanned.map.labelled _
  have hboolean : Refuses rules limit depth booleanLit (name.text.toList ++ ')' :: cs) :=
    refuses_leaf (Lexeme.unlessNext_orElse_eq_none (hword (w := "true") (by decide))
      (hword (w := "false") (by decide))) _ _
  refine Matches.oneOf [thisLit, nullLit, booleanLit, numberLit, stringLit,
    templateLit, regexLit, arrayLit, objectLit, group] hfunction ?_ hread
  simp only [List.forall_mem_cons]
  exact ⟨refuses_leaf (hword (w := "this") (by decide)) _ _,
    refuses_leaf (hword (w := "null") (by decide)) _ _, hboolean,
    hother (opens_numberLit (fun _ => Lexeme.not_isNameStart_of_isDigit) rfl),
    hother (opens_stringLit rfl rfl),
    hother (opens_templateLit rfl), hother (opens_regexLit rfl),
    hother (opens_arrayLit rfl), hother (opens_objectLit rfl),
    hother (opens_group rfl), List.forall_mem_nil _⟩

theorem assignment_identifier (name : Identifier) (cs : List Char) :
    Matches rules limit (depth + 1) assignment (name.text.toList ++ ')' :: cs)
      (Term.Shown (.identifier name)) (')' :: cs) := by
  have hnew (depth : Nat) :
      Refuses rules limit depth newExpression (name.text.toList ++ ')' :: cs) :=
    (refuses_keyword (w := "new") (name.word_append (by decide) rfl cs)
      _).seq_left.map.spanned.map.labelled _
  exact assignment_of_primary (name.skipped_eq _) (.call hnew) (unaryOp_identifier name cs)
    (primary_identifier name cs) rfl

/-! ### Numbers and strings -/

theorem word_digits (digits : Digits) :
    Numeral.word digits.chars = Numeral.decimalWord (Numeral.spell 10 digits.chars) 0 := by
  have hne {x c : Char} (hx : Lexeme.isDigit x = false) (hc : c ∈ digits.chars) : c ≠ x := by
    rintro rfl
    exact Bool.false_ne_true (hx.symm.trans (digits.digit c hc))
  have hspan {k : Char → Bool} (hk : ∀ c ∈ digits.chars, k c = true) :
      digits.chars.span k = (digits.chars, []) := by
    rw [List.span_eq_takeWhile_dropWhile, List.takeWhile_eq_self_iff.2 hk,
      List.dropWhile_eq_nil_iff.2 hk]
  have hmark : digits.chars.span (fun c => c != 'e' && c != 'E') = (digits.chars, []) :=
    hspan fun c hc => by simp [hne (x := 'e') rfl hc, hne (x := 'E') rfl hc]
  have hpoint : digits.chars.span (· != '.') = (digits.chars, []) :=
    hspan fun c hc => by simp [hne (x := '.') rfl hc]
  rw [Numeral.word]
  · simp only [hmark, hpoint]
    simp [Numeral.exponent, Numeral.spell]
  · rintro rest heq
    exact hne (x := 'x') rfl (heq ▸ by simp) rfl
  · rintro rest heq
    exact hne (x := 'X') rfl (heq ▸ by simp) rfl

theorem assignment_number (digits : Digits) (cs : List Char) :
    Matches rules limit (depth + 1) assignment (digits.chars ++ ')' :: cs)
      (Term.Shown (.number digits)) (')' :: cs) := by
  have hother {α : Type} {p : Expr α} (hp : Opens rules (!Lexeme.isDigit ·) p) :
      Refuses rules limit depth p (digits.chars ++ ')' :: cs) := digits.refuses hp _
  have hread : Matches rules limit depth numberLit (digits.chars ++ ')' :: cs)
      (Term.Shown (.number digits)) (')' :: cs) := by
    refine leaf_of_lexeme (Lexeme.number_append digits.ne_nil digits.digit cs) (fun span => ?_) _
    rw [word_digits]
    exact .number
  have hprimary : Matches rules limit depth primary (digits.chars ++ ')' :: cs)
      (Term.Shown (.number digits)) (')' :: cs) := by
    refine Matches.oneOf [thisLit, nullLit, booleanLit]
      (hother (opens_functionExpression rfl)) ?_ hread
    simp only [List.forall_mem_cons]
    exact ⟨hother (opens_thisLit rfl), hother (opens_nullLit rfl),
      hother (opens_booleanLit rfl rfl), List.forall_mem_nil _⟩
  exact assignment_of_primary (digits.skipped_eq _) (hother (opens_newExpression rfl))
    (hother (opens_unaryOp rfl)) hprimary rfl

theorem assignment_string (letters : Letters) (cs : List Char) :
    Matches rules limit (depth + 1) assignment ('\x27' :: letters.chars ++ '\x27' :: ')' :: cs)
      (Term.Shown (.string letters)) (')' :: cs) := by
  have hread : Matches rules limit depth stringLit ('\x27' :: letters.chars ++ '\x27' :: ')' :: cs)
      (Term.Shown (.string letters)) (')' :: cs) := by
    refine leaf_of_lexeme (Lexeme.string_append letters.letter _) (fun span => ?_) _
    have hinner : inner ('\x27' :: letters.chars ++ ['\x27']) = letters.chars := by
      rw [inner, List.cons_append, List.drop_succ_cons, List.drop_zero, List.dropLast_concat]
    rw [hinner, Lexeme.unescape_eq fun c hc => (Lexeme.letter_stays (letters.letter c hc)).1]
    exact .string
  have hprimary : Matches rules limit depth primary
      ('\x27' :: letters.chars ++ '\x27' :: ')' :: cs) (Term.Shown (.string letters))
      (')' :: cs) := by
    refine Matches.oneOf [thisLit, nullLit, booleanLit, numberLit]
      (fun _ _ => ⟨_, rfl⟩) ?_ hread
    simp only [List.forall_mem_cons]
    exact ⟨fun _ _ => ⟨_, rfl⟩, fun _ _ => ⟨_, rfl⟩, fun _ _ => ⟨_, rfl⟩, fun _ _ => ⟨_, rfl⟩,
      List.forall_mem_nil _⟩
  exact assignment_of_primary rfl (.call fun _ _ _ => ⟨_, rfl⟩) (fun _ _ => ⟨_, rfl⟩) hprimary rfl

/-! ### Words -/

theorem assignment_boolean (value : Bool) (cs : List Char) :
    Matches rules limit (depth + 1) assignment ((Term.boolean value).print ++ ')' :: cs)
      (Term.Shown (.boolean value)) (')' :: cs) := by
  cases value with
  | false =>
    exact assignment_of_primary rfl (.call fun _ _ _ => ⟨_, rfl⟩) (fun _ _ => ⟨_, rfl⟩)
      (fun _ _ => ⟨_, _, _, rfl, .boolean⟩) rfl
  | true =>
    exact assignment_of_primary rfl (.call fun _ _ _ => ⟨_, rfl⟩) (fun _ _ => ⟨_, rfl⟩)
      (fun _ _ => ⟨_, _, _, rfl, .boolean⟩) rfl

theorem assignment_null (cs : List Char) :
    Matches rules limit (depth + 1) assignment (Term.null.print ++ ')' :: cs) (Term.Shown .null)
      (')' :: cs) :=
  assignment_of_primary rfl (.call fun _ _ _ => ⟨_, rfl⟩) (fun _ _ => ⟨_, rfl⟩)
    (fun _ _ => ⟨_, _, _, rfl, .null⟩) rfl

theorem assignment_this (cs : List Char) :
    Matches rules limit (depth + 1) assignment (Term.this.print ++ ')' :: cs) (Term.Shown .this)
      (')' :: cs) :=
  assignment_of_primary rfl (.call fun _ _ _ => ⟨_, rfl⟩) (fun _ _ => ⟨_, rfl⟩)
    (fun _ _ => ⟨_, _, _, rfl, .this⟩) rfl

end Syntax

end ScriptTypes.Script
