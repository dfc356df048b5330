import Mathlib.Data.List.Basic
import ScriptTypes.Proofs.Grammar.Matches
import ScriptTypes.Script.Grammar

/-!
# How the constructs of scripts start

The lexemes of scripts on texts of which the beginning is known, and the characters that the
constructs of scripts start with. A word is taken only if the whole name that it starts is that
word, so reserved words and other names do not get into each other's way.
-/

namespace ScriptTypes.Script

open Grammar (Matches Opens Refuses)

/-! ### Blanks -/

theorem skipped_eq (cs : List Char) : rules.skipped cs = (Lexeme.blanks cs).2 := rfl

theorem skipped_space (cs : List Char) : rules.skipped (' ' :: cs) = rules.skipped cs := by
  have hspaces : (' ' :: cs).dropWhile Lexeme.isSpace = cs.dropWhile Lexeme.isSpace := rfl
  rw [skipped_eq, skipped_eq, Lexeme.blanks, Lexeme.blanks, hspaces]
  split <;> rfl

/-- Nothing is skipped where neither a blank nor a comment can start. -/
theorem skipped_of_solid {c : Char} (hspace : Lexeme.isSpace c = false) (hslash : c ≠ '/')
    (cs : List Char) : rules.skipped (c :: cs) = c :: cs := by
  have hspaces : (c :: cs).dropWhile Lexeme.isSpace = c :: cs := by
    rw [List.dropWhile_cons, hspace]
    rfl
  rw [skipped_eq, Lexeme.blanks, hspaces]
  split
  · rename_i heq
    exact absurd (List.cons.inj heq).1 hslash
  · rfl

/-! ### Names and words -/

namespace Lexeme

/-- A text made of characters of names. -/
def IsWord (w : List Char) : Prop := ∀ c ∈ w, isNameChar c = true

variable {name w : List Char} {c : Char}

/-- A word is taken off a name exactly if it is the name. -/
theorem word_append (hname : IsWord name) (hw : IsWord w) (hc : isNameChar c = false)
    (cs : List Char) : word w (name ++ c :: cs) = if w = name then some (w, c :: cs) else none := by
  rw [word, Grammar.Lexeme.unlessNext, Grammar.Lexeme.exactly]
  cases hdrop : Text.dropPrefix? w (name ++ c :: cs) with
  | none =>
    have hne : w ≠ name := by
      rintro rfl
      cases hdrop.symm.trans (Text.dropPrefix?_eq_some_iff.2 rfl)
    rw [if_neg hne]
    rfl
  | some rest =>
    obtain ⟨more, rfl, hrest⟩ | ⟨more, rfl, rfl⟩ :=
      List.append_eq_append_iff.1 (Text.dropPrefix?_eq_some_iff.1 hdrop)
    · -- the word cannot reach beyond the name
      cases more with
      | nil =>
        obtain rfl : rest = c :: cs := by simpa using hrest.symm
        simp [hc]
      | cons d more =>
        obtain ⟨rfl, -⟩ := List.cons.inj hrest
        rw [hw c (by simp)] at hc
        cases hc
    · cases more with
      | nil => simp [hc]
      | cons d more => simp [hname d (by simp)]

theorem unlessNext_orElse_eq_none {a b : Grammar.Lexeme} {k : Char → Bool} {cs : List Char}
    (ha : Grammar.Lexeme.unlessNext a k cs = none) (hb : Grammar.Lexeme.unlessNext b k cs = none) :
    Grammar.Lexeme.unlessNext (Grammar.Lexeme.orElse a b) k cs = none := by
  rw [Grammar.Lexeme.unlessNext] at ha hb ⊢
  rw [Grammar.Lexeme.orElse]
  cases hcs : a cs with
  | none => exact hb
  | some r =>
    rw [hcs] at ha
    exact ha

theorem takeWhile_append_cons {k : Char → Bool} (h : ∀ d ∈ name, k d = true) (hc : k c = false)
    (cs : List Char) : (name ++ c :: cs).takeWhile k = name := by
  rw [List.takeWhile_append_of_pos h, List.takeWhile_cons, hc]
  simp

theorem dropWhile_append_cons {k : Char → Bool} (h : ∀ d ∈ name, k d = true) (hc : k c = false)
    (cs : List Char) : (name ++ c :: cs).dropWhile k = c :: cs := by
  rw [List.dropWhile_append_of_pos h, List.dropWhile_cons, hc]
  simp

theorem propertyName_append {d : Char} (hd : isNameStart d = true) (hname : IsWord name)
    (hc : isNameChar c = false) (cs : List Char) :
    propertyName (d :: name ++ c :: cs) = some (d :: name, c :: cs) := by
  rw [propertyName, Grammar.Lexeme.andThen, List.cons_append, Grammar.Lexeme.one, if_pos hd]
  simp [Grammar.Lexeme.run, takeWhile_append_cons hname hc, dropWhile_append_cons hname hc]

theorem identifier_append {d : Char} (hd : isNameStart d = true) (hname : IsWord name)
    (hreserved : String.ofList (d :: name) ∉ reserved) (hc : isNameChar c = false)
    (cs : List Char) : identifier (d :: name ++ c :: cs) = some (d :: name, c :: cs) := by
  rw [identifier, propertyName_append hd hname hc]
  exact if_neg (by rwa [List.contains_iff_mem])

theorem andThen_eq_some {a b : Grammar.Lexeme} {cs x mid y rest : List Char}
    (ha : a cs = some (x, mid)) (hb : b mid = some (y, rest)) :
    Grammar.Lexeme.andThen a b cs = some (x ++ y, rest) := by
  rw [Grammar.Lexeme.andThen, ha]
  simp only [hb, Option.map_some]

theorem orElse_of_eq_none {a b : Grammar.Lexeme} {cs : List Char} (ha : a cs = none) :
    Grammar.Lexeme.orElse a b cs = b cs := by
  rw [Grammar.Lexeme.orElse, ha]

theorem orElse_of_eq_some {a b : Grammar.Lexeme} {cs : List Char} {r : List Char × List Char}
    (ha : a cs = some r) : Grammar.Lexeme.orElse a b cs = some r := by
  rw [Grammar.Lexeme.orElse, ha]

/-- Digits are no hexadecimal number, whose second character is a letter. -/
theorem hexNumber_append (h : ∀ d ∈ name, isDigit d = true) (cs : List Char) :
    hexNumber (name ++ ')' :: cs) = none := by
  have hmark {ds : List Char} (hds : ∀ d ∈ ds, isDigit d = true) :
      Grammar.Lexeme.one (fun c => c == 'x' || c == 'X') (ds ++ ')' :: cs) = none := by
    cases ds with
    | nil => rfl
    | cons e ds =>
      refine if_neg fun he => ?_
      obtain rfl | rfl := by simpa using he
      · exact Bool.false_ne_true (hds 'x' (by simp))
      · exact Bool.false_ne_true (hds 'X' (by simp))
  rw [hexNumber, Grammar.Lexeme.andThen]
  cases hzero : Grammar.Lexeme.exactly ['0'] (name ++ ')' :: cs) with
  | none => rfl
  | some taken =>
    obtain ⟨rest, hrest, rfl⟩ := Option.map_eq_some_iff.1 hzero
    have hsplit := Text.dropPrefix?_eq_some_iff.1 hrest
    cases name with
    | nil => cases hsplit
    | cons d ds =>
      have hrest : ds ++ ')' :: cs = rest := (List.cons.inj hsplit).2
      have hnone := hmark (List.forall_mem_cons.1 h).2
      rw [hrest] at hnone
      simp only [Grammar.Lexeme.andThen, hnone, Option.map_none]

theorem number_append (hne : name ≠ []) (h : ∀ d ∈ name, isDigit d = true) (cs : List Char) :
    number (name ++ ')' :: cs) = some (name, ')' :: cs) := by
  obtain ⟨d, ds, rfl⟩ := List.exists_cons_of_ne_nil hne
  obtain ⟨hd, hds⟩ := List.forall_mem_cons.1 h
  have hdigits : Grammar.Lexeme.run1 isDigit (d :: ds ++ ')' :: cs)
      = some (d :: ds, ')' :: cs) := by
    have hfirst : Grammar.Lexeme.one isDigit (d :: ds ++ ')' :: cs) = some ([d], ds ++ ')' :: cs) :=
      if_pos hd
    refine andThen_eq_some hfirst ?_
    rw [Grammar.Lexeme.run, takeWhile_append_cons hds rfl, dropWhile_append_cons hds rfl]
  have hpoint : Grammar.Lexeme.orNothing (Grammar.Lexeme.andThen (Grammar.Lexeme.exactly ['.'])
      (Grammar.Lexeme.run isDigit)) (')' :: cs) = some ([], ')' :: cs) := rfl
  have hexponent : Grammar.Lexeme.orNothing exponent (')' :: cs) = some ([], ')' :: cs) := rfl
  rw [number, orElse_of_eq_none (hexNumber_append h cs), decimalNumber,
    andThen_eq_some (orElse_of_eq_some (andThen_eq_some hdigits hpoint)) hexponent]
  simp

/-- Inside a string, all characters are taken that neither end it nor escape one. -/
theorem body_append {stops : Char → Bool} (h : ∀ d ∈ name, d ≠ '\\' ∧ stops d = false)
    (hc : c ≠ '\\') (hstops : stops c = true) (cs : List Char) :
    body stops (name ++ c :: cs) = (name, c :: cs) := by
  induction name with
  | nil =>
    rw [List.nil_append, body.eq_3 _ _ _ fun _ _ heq _ => hc heq]
    exact if_pos hstops
  | cons d name ih =>
    obtain ⟨⟨hd, hgoes⟩, h⟩ := List.forall_mem_cons.1 h
    rw [List.cons_append, body.eq_3 _ _ _ fun _ _ heq _ => hd heq, ih h, hgoes]
    rfl

/-- Lower-case letters are neither marks nor line ends. -/
theorem letter_stays {d : Char} (h : 'a' ≤ d ∧ d ≤ 'z') :
    d ≠ '\\' ∧ (d == '\x27' || d == '\\' || isLineEnd d) = false := by
  have hne (x : Char) (hx : x < 'a' ∨ 'z' < x) : d ≠ x := by
    rintro rfl
    obtain hx | hx := hx
    · exact absurd h.1 (Char.not_le.2 hx)
    · exact absurd h.2 (Char.not_le.2 hx)
  simp [isLineEnd, hne '\\' (by decide), hne '\x27' (by decide), hne '\n' (by decide),
    hne '\r' (by decide), hne '\u2028' (by decide), hne '\u2029' (by decide)]

theorem string_append (h : ∀ d ∈ name, 'a' ≤ d ∧ d ≤ 'z') (cs : List Char) :
    string ('\x27' :: name ++ '\x27' :: cs) = some ('\x27' :: name ++ ['\x27'], cs) := by
  have hdouble : quoted '\x22' ('\x27' :: name ++ '\x27' :: cs) = none := rfl
  rw [string, orElse_of_eq_none hdouble, quoted, List.cons_append, between, if_pos rfl,
    body_append (fun d hd => letter_stays (h d hd)) (by decide) rfl]
  rfl

/-- Where nothing is escaped, the characters stand for themselves. -/
theorem unescape_eq (h : ∀ d ∈ name, d ≠ '\\') : unescape name = name := by
  induction name with
  | nil => rfl
  | cons d name ih =>
    obtain ⟨hd, h⟩ := List.forall_mem_cons.1 h
    rw [unescape, ih h]
    · exact fun heq _ => hd heq
    · exact fun _ _ heq _ => hd heq

end Lexeme

/-! ### First characters of lexemes -/

namespace Lexeme

variable {S : Char → Bool}

theorem opens_word {w : List Char} (h : w.head?.any S = true) : (word w).Opens S :=
  .unlessNext (.exactly h) _

theorem opens_between {mark : Char} (h : S mark = true) (stops : Char → Bool) :
    (between mark stops).Opens S := by
  intro cs hcs
  cases cs with
  | nil => rfl
  | cons c cs =>
    refine if_neg ?_
    rintro rfl
    exact Bool.false_ne_true ((hcs c rfl).symm.trans h)

theorem opens_propertyName (h : ∀ c, isNameStart c = true → S c = true) : propertyName.Opens S :=
  .andThen (.one h)

theorem opens_identifier (h : ∀ c, isNameStart c = true → S c = true) : identifier.Opens S := by
  intro cs hcs
  rw [identifier, opens_propertyName h cs hcs]

theorem opens_number (h : ∀ c, isDigit c = true → S c = true) (hpoint : S '.' = true) :
    number.Opens S :=
  .orElse (.andThen (.exactly (h '0' rfl)))
    (.andThen (.orElse (.andThen (.andThen (.one h))) (.andThen (.exactly hpoint))))

theorem opens_string (h : S '\x22' = true) (h' : S '\x27' = true) : string.Opens S :=
  .orElse (opens_between h _) (opens_between h' _)

theorem opens_regex (h : S '/' = true) : regex.Opens S := by
  have hslash : (Grammar.Lexeme.exactly ['/']).Opens S := .exactly h
  exact (hslash.unlessNext _).andThen

end Lexeme

/-! ### First characters of expressions -/

namespace Syntax

open Grammar (Lexeme)

variable {S : Char → Bool} {α : Type} {p : Expr α}

theorem opens_mark {s : String} (h : s.toList.head?.any S = true) : Opens rules S (mark s) :=
  .lexeme (.exactly h)

theorem opens_token {lex : Lexeme} (h : lex.Opens S) (label : Label) :
    Opens rules S (token label lex) :=
  (Opens.lexeme h).labelled label

theorem opens_means {lex : Lexeme} (h : lex.Opens S) (label : Label) (a : α) :
    Opens rules S (means label lex a) :=
  (opens_token h label).map

theorem opens_meansMark {s : String} (h : s.toList.head?.any S = true) (label : Label) (a : α) :
    Opens rules S (meansMark label s a) :=
  opens_means (.exactly h) label a

theorem opens_keyword {w : String} (h : w.toList.head?.any S = true) (label : Label) :
    Opens rules S (keyword label w) :=
  opens_token (Lexeme.opens_word h) label

theorem opens_construct (h : Opens rules S p) (label : Label) (form : α → Form Tree) :
    Opens rules S (construct label p form) :=
  h.spanned.map.labelled label

theorem opens_leaf {lex : Lexeme} (h : lex.Opens S) (label : Label) (form : List Char → Form Tree) :
    Opens rules S (leaf label lex form) :=
  opens_construct (.lexeme h) label form

theorem opens_inParens (h : S '(' = true) : Opens rules S (inParens p) :=
  (opens_mark (s := "(") h).right

/-! #### Primary expressions -/

theorem opens_functionExpression (h : S 'f' = true) : Opens rules S functionExpression :=
  opens_construct (opens_keyword (w := "function") h _).right _ _

theorem opens_thisLit (h : S 't' = true) : Opens rules S thisLit :=
  opens_leaf (Lexeme.opens_word (w := "this".toList) h) _ _

theorem opens_nullLit (h : S 'n' = true) : Opens rules S nullLit :=
  opens_leaf (Lexeme.opens_word (w := "null".toList) h) _ _

theorem opens_booleanLit (ht : S 't' = true) (hf : S 'f' = true) : Opens rules S booleanLit := by
  have htrue : (Grammar.Lexeme.exactly "true".toList).Opens S := .exactly ht
  have hfalse : (Grammar.Lexeme.exactly "false".toList).Opens S := .exactly hf
  exact opens_leaf ((htrue.orElse hfalse).unlessNext _) _ _

theorem opens_numberText (h : ∀ c, Lexeme.isDigit c = true → S c = true) (hpoint : S '.' = true) :
    Opens rules S numberText :=
  opens_token (Lexeme.opens_number h hpoint) _

theorem opens_stringText (h : S '\x22' = true) (h' : S '\x27' = true) :
    Opens rules S stringText :=
  (opens_token (Lexeme.opens_string h h') _).map

theorem opens_numberLit (h : ∀ c, Lexeme.isDigit c = true → S c = true) (hpoint : S '.' = true) :
    Opens rules S numberLit :=
  opens_leaf (Lexeme.opens_number h hpoint) _ _

theorem opens_stringLit (h : S '\x22' = true) (h' : S '\x27' = true) : Opens rules S stringLit :=
  opens_leaf (Lexeme.opens_string h h') _ _

theorem opens_templateLit (h : S '\x60' = true) : Opens rules S templateLit :=
  opens_leaf (Lexeme.opens_between h _) _ _

theorem opens_regexLit (h : S '/' = true) : Opens rules S regexLit :=
  opens_leaf (Lexeme.opens_regex h) _ _

theorem opens_arrayLit (h : S '[' = true) : Opens rules S arrayLit :=
  opens_construct (opens_mark (s := "[") h).right _ _

theorem opens_objectLit (h : S '\x7b' = true) : Opens rules S objectLit :=
  opens_construct (opens_mark (s := "\x7b") h).right _ _

theorem opens_group (h : S '(' = true) : Opens rules S group :=
  opens_construct (opens_inParens h) _ _

theorem opens_name (h : ∀ c, Lexeme.isNameStart c = true → S c = true) : Opens rules S name :=
  opens_leaf (Lexeme.opens_identifier h) _ _

theorem opens_newExpression (h : S 'n' = true) : Opens rules S (.call .newExpression) := by
  have hbody : Opens rules S newExpression :=
    opens_construct (opens_keyword (w := "new") h _).right _ _
  exact hbody.call

/-! #### Expressions -/

theorem opens_unaryOp (h : ['d', 'v', 't', '+', '-', '~', '!'].all S = true) :
    Opens rules S unaryOp := by
  simp only [List.all_cons, List.all_nil, Bool.and_eq_true] at h
  obtain ⟨hd, hv, ht, hplus, hminus, htilde, hnot, -⟩ := h
  refine .oneOf (opens_means (Lexeme.opens_word (w := "delete".toList) hd) _ _) ?_
  simp only [List.forall_mem_cons]
  exact ⟨opens_means (Lexeme.opens_word (w := "void".toList) hv) _ _,
    opens_means (Lexeme.opens_word (w := "typeof".toList) ht) _ _,
    opens_meansMark (s := "++") hplus _ _, opens_meansMark (s := "--") hminus _ _,
    opens_meansMark (s := "+") hplus _ _, opens_meansMark (s := "-") hminus _ _,
    opens_meansMark (s := "~") htilde _ _, opens_meansMark (s := "!") hnot _ _,
    List.forall_mem_nil _⟩

/-- The characters that expressions start with. -/
def startsExpression (c : Char) : Bool :=
  Lexeme.isNameStart c || Lexeme.isDigit c
    || ['.', '\x22', '\x27', '\x60', '/', '[', '\x7b', '(', '+', '-', '~', '!'].contains c

section

variable (hS : ∀ c, startsExpression c = true → S c = true)
include hS

theorem of_isNameStart (c : Char) (hc : Lexeme.isNameStart c = true) : S c = true :=
  hS c (by simp [startsExpression, hc])

theorem of_isDigit (c : Char) (hc : Lexeme.isDigit c = true) : S c = true :=
  hS c (by simp [startsExpression, hc])

theorem opens_primary : Opens rules S primary := by
  refine .oneOf (opens_functionExpression (hS 'f' rfl)) ?_
  simp only [List.forall_mem_cons]
  exact ⟨opens_thisLit (hS 't' rfl), opens_nullLit (hS 'n' rfl),
    opens_booleanLit (hS 't' rfl) (hS 'f' rfl),
    opens_numberLit (of_isDigit hS) (hS '.' rfl),
    opens_stringLit (hS '\x22' rfl) (hS '\x27' rfl),
    opens_templateLit (hS '\x60' rfl), opens_regexLit (hS '/' rfl),
    opens_arrayLit (hS '[' rfl), opens_objectLit (hS '\x7b' rfl),
    opens_group (hS '(' rfl), opens_name (of_isNameStart hS), List.forall_mem_nil _⟩

theorem opens_unary : Opens rules S unary := by
  have hop : Opens rules S unaryOp := by
    have hstarts : ['d', 'v', 't', '+', '-', '~', '!'].all startsExpression = true := rfl
    exact opens_unaryOp (List.all_eq_true.2 fun c hc => hS c (List.all_eq_true.1 hstarts c hc))
  have hoperand : Opens rules S (Grammar.Peg.oneOf (.call .newExpression) [primary]) :=
    (opens_newExpression (hS 'n' rfl)).alt (opens_primary hS)
  have hpostfixed : Opens rules S postfixed :=
    ((hoperand.seq.spanned.map.labelled _).seq.spanned.map).labelled _
  exact (hop.spanned.many_seq hpostfixed).map.labelled _

theorem opens_assignment : Opens rules S assignment := by
  have hconditional : Opens rules S conditional :=
    (((opens_unary hS).seq.map.labelled _).seq.spanned.map).labelled _
  have hbody : Opens rules S assignmentBody := (hconditional.seq.spanned.map).labelled _
  refine .call ?_
  exact hbody

theorem opens_property : Opens rules S property := by
  have hpropertyName := Lexeme.opens_propertyName (of_isNameStart hS)
  have hstring := opens_stringText (hS '\x22' rfl) (hS '\x27' rfl)
  have hnumber := opens_numberText (of_isDigit hS) (hS '.' rfl)
  have hkey : Opens rules S propertyKey :=
    hstring.alt (hnumber.map.alt (opens_token hpropertyName _).map)
  exact opens_construct hkey.seq _ _

theorem opens_expression : Opens rules S expression :=
  ((opens_assignment hS).seq.map.spanned.map).labelled _

end

/-! #### Statements -/

/-- The statements between blocks and expressions. -/
def keywordStatements : List (Expr Tree) :=
  [varStatement, functionDeclaration, returnStatement, ifStatement, forStatement, whileStatement,
   doWhileStatement, throwStatement, tryStatement, breakStatement, continueStatement,
   emptyStatement]

/-- No statement but an expression starts with a parenthesis. -/
theorem opens_statements (h : ∀ c, (c != '(') = true → S c = true) :
    Opens rules S block ∧ ∀ p ∈ keywordStatements, Opens rules S p := by
  have hvar : Opens rules S kVar := by
    have hlexeme {w : List Char} (hw : w.head?.any S = true) : (Grammar.Lexeme.exactly w).Opens S :=
      .exactly hw
    have hwords := (hlexeme (w := "var".toList) (h 'v' rfl)).orElse
      ((hlexeme (w := "let".toList) (h 'l' rfl)).orElse
        (hlexeme (w := "const".toList) (h 'c' rfl)))
    exact opens_token (hwords.unlessNext _) _
  have hconstruct {β γ : Type} {q : Expr β} {q' : Expr γ} (hq : Opens rules S q) (label : Label)
      (form : γ → Form Tree) : Opens rules S (construct label (Grammar.Peg.right q q') form) :=
    opens_construct hq.right label form
  refine ⟨hconstruct (opens_mark (s := "\x7b") (h _ rfl)) _ _, ?_⟩
  simp only [keywordStatements, List.forall_mem_cons]
  exact ⟨(hconstruct hvar _ _).left.labelled _,
    hconstruct (opens_keyword (w := "function") (h _ rfl) _) _ _,
    hconstruct (opens_keyword (w := "return") (h _ rfl) _) _ _,
    hconstruct (opens_keyword (w := "if") (h _ rfl) _) _ _,
    hconstruct (opens_keyword (w := "for") (h _ rfl) _) _ _,
    hconstruct (opens_keyword (w := "while") (h _ rfl) _) _ _,
    hconstruct (opens_keyword (w := "do") (h _ rfl) _) _ _,
    hconstruct (opens_keyword (w := "throw") (h _ rfl) _) _ _,
    hconstruct (opens_keyword (w := "try") (h _ rfl) _) _ _,
    hconstruct (opens_keyword (w := "break") (h _ rfl) _) _ _,
    hconstruct (opens_keyword (w := "continue") (h _ rfl) _) _ _,
    opens_construct (opens_mark (s := ";") (h _ rfl)) _ _, List.forall_mem_nil _⟩

end Syntax

end ScriptTypes.Script
