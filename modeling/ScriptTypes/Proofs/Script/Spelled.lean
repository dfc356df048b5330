import ScriptTypes.Proofs.Grammar.Pieces
import ScriptTypes.Proofs.Script.Lays

/-!
# The pieces of a script

A script is spelled by words, blanks and comments. What follows a piece matters to a reader that
does not know the grammar: it could see a comment where a word ends, or a string that begins in one
word and ends in another. `FitsBefore` says why it does not. Most words have no character at which a
comment, a string or a template begins; strings and templates are read as a whole; and a division
stands where no comment does, since those were skipped. Regular expressions may hold anything.

Main statement: `exists_pieces`, the pieces of every text that is a script fit.
-/

namespace ScriptTypes.Script

open Grammar (Peg Piece Spells)

namespace Lexeme

/-! ### Where comments, strings and templates begin -/

/-- A string or a template. -/
def marked : Grammar.Lexeme := Grammar.Lexeme.orElse string template

/-- No comment, string or template begins with this character. -/
def isQuiet (c : Char) : Bool := c != '/' && c != '\x22' && c != '\x27' && c != '\x60'

theorem exactly_eq_none {d : Char} {w : List Char} {c : Char} (h : c ≠ d) (cs : List Char) :
    Grammar.Lexeme.exactly (d :: w) (c :: cs) = none := by
  simp [Grammar.Lexeme.exactly, Text.dropPrefix?, h.symm]

theorem comment_eq_none {c : Char} (h : c ≠ '/') (cs : List Char) : comment (c :: cs) = none := by
  simp only [comment, Grammar.Lexeme.orElse, blockComment, lineComment, Grammar.Lexeme.andThen,
    exactly_eq_none h]

theorem between_eq_none {c mark : Char} (h : c ≠ mark) (stops : Char → Bool) (cs : List Char) :
    between mark stops (c :: cs) = none := by
  rw [between, if_neg h]

theorem marked_eq_none {c : Char} (hdouble : c ≠ '\x22') (hsingle : c ≠ '\x27') (hback : c ≠ '\x60')
    (cs : List Char) : marked (c :: cs) = none := by
  simp only [marked, string, template, quoted, Grammar.Lexeme.orElse, between_eq_none hdouble,
    between_eq_none hsingle, between_eq_none hback]

/-- Where a string or a template begins there is no comment. -/
theorem comment_eq_none_of_marked {cs : List Char} {r : List Char × List Char}
    (h : marked cs = some r) : comment cs = none := by
  match cs with
  | [] => rfl
  | c :: cs =>
    refine comment_eq_none ?_ cs
    rintro rfl
    cases (marked_eq_none (by decide) (by decide) (by decide) cs).symm.trans h

theorem refuse_of_isQuiet {c : Char} (h : isQuiet c = true) (cs : List Char) :
    comment (c :: cs) = none ∧ marked (c :: cs) = none := by
  simp only [isQuiet, Bool.and_eq_true, bne_iff_ne] at h
  obtain ⟨⟨⟨hslash, hdouble⟩, hsingle⟩, hback⟩ := h
  exact ⟨comment_eq_none hslash cs, marked_eq_none hdouble hsingle hback cs⟩

/-- No comment begins in a text, and a string or template that begins in it ends in it, when `rest`
follows. -/
def isContained : (w rest : List Char) → Bool
  | [], _ => true
  | c :: w, rest =>
    (comment (c :: w ++ rest)).isNone
      && (marked (c :: w ++ rest)).all (fun (taken, _) => taken.length ≤ w.length + 1)
      && isContained w rest

theorem isContained_cons {c : Char} {w rest : List Char}
    (hcomment : comment (c :: w ++ rest) = none) (hmarked : marked (c :: w ++ rest) = none)
    (h : isContained w rest = true) : isContained (c :: w) rest = true := by
  rw [isContained, hcomment, hmarked, h]
  rfl

theorem of_isContained_cons {c : Char} {w rest : List Char}
    (h : isContained (c :: w) rest = true) :
    comment (c :: w ++ rest) = none ∧
      (∀ {taken rest'}, marked (c :: w ++ rest) = some (taken, rest') →
        taken.length ≤ (c :: w).length) ∧ isContained w rest = true := by
  simp only [isContained, Bool.and_eq_true, Option.isNone_iff_eq_none] at h
  obtain ⟨⟨hcomment, hmarked⟩, hw⟩ := h
  refine ⟨hcomment, fun hsome => ?_, hw⟩
  rw [hsome] at hmarked
  simpa using hmarked

theorem isContained_of_append {u w rest : List Char} (h : isContained (u ++ w) rest = true) :
    isContained w rest = true := by
  induction u with
  | nil => exact h
  | cons c u ih => exact ih (of_isContained_cons h).2.2

theorem isContained_of_isQuiet {w : List Char} (h : ∀ c ∈ w, isQuiet c = true) (rest : List Char) :
    isContained w rest = true := by
  induction w with
  | nil => rfl
  | cons c w ih =>
    obtain ⟨hc, hw⟩ := List.forall_mem_cons.1 h
    obtain ⟨hcomment, hmarked⟩ := refuse_of_isQuiet hc (w ++ rest)
    exact isContained_cons hcomment hmarked (ih hw)

/-- A word that begins with a slash is a regular expression, unless it is an operator. -/
def isRegex : List Char → Bool
  | '/' :: cs => cs != [] && cs != ['=']
  | _ => false

theorem isRegex_of_mem {cs : List Char} (h : '/' ∈ cs) : isRegex ('/' :: cs) = true := by
  simp only [isRegex, Bool.and_eq_true, bne_iff_ne]
  constructor <;> rintro rfl <;> simp at h

end Lexeme

theorem Takes.exists_cons {lex : Grammar.Lexeme} (h : Takes lex) {cs w rest : List Char}
    (hlex : lex cs = some (w, rest)) : ∃ c cs', cs = c :: cs' := by
  have hne := List.append_ne_nil_of_left_ne_nil (h.ne_nil cs w rest hlex) rest
  rw [h.splits cs w rest hlex] at hne
  exact List.exists_cons_of_ne_nil hne

theorem Takes.marked : Takes Lexeme.marked := string.orElse (between _ _)

/-! ### Pieces that fit -/

/-- Why a piece does not run into what follows it. -/
inductive FitsBefore : Piece → List Char → Prop where
  | space {w rest : List Char} (h : ∀ c ∈ w, Lexeme.isSpace c = true) : FitsBefore (.space w) rest
  | comment {w rest : List Char} (h : Lexeme.comment (w ++ rest) = some (w, rest)) :
      FitsBefore (.comment w) rest
  | contained {w rest : List Char} (h : Lexeme.isContained w rest = true) :
      FitsBefore (.word w) rest
  | marked {w rest : List Char} (h : Lexeme.marked (w ++ rest) = some (w, rest)) :
      FitsBefore (.word w) rest
  | regex {w rest : List Char} (h : Lexeme.isRegex w = true) : FitsBefore (.word w) rest

/-- No comment is in front of a text. -/
def Settled (cs : List Char) : Prop := Lexeme.comment cs = none

/-- The lexeme takes fitting words off settled texts. -/
abbrev Fitting (lex : Grammar.Lexeme) : Prop := lex.Fitting FitsBefore Settled

/-! ### Blanks and comments -/

/-- At most `n` comments and the blanks after each of them. -/
def commentPieces : (n : Nat) → List Char → List Piece
  | 0, _ => []
  | n + 1, cs =>
    match Lexeme.comment cs with
    | none => []
    | some (taken, rest) =>
      .comment taken :: .space (rest.takeWhile Lexeme.isSpace)
        :: commentPieces n (rest.dropWhile Lexeme.isSpace)

/-- The blanks and comments in front of a text. -/
def blankPieces (cs : List Char) : List Piece :=
  .space (cs.takeWhile Lexeme.isSpace)
    :: commentPieces (cs.dropWhile Lexeme.isSpace).length (cs.dropWhile Lexeme.isSpace)

/-- Blanks are a piece of their own. -/
theorem spells_space {cs rest : List Char} {ps : List Piece}
    (h : Spells FitsBefore (cs.dropWhile Lexeme.isSpace) ps rest) :
    Spells FitsBefore cs (.space (cs.takeWhile Lexeme.isSpace) :: ps) rest := by
  have hfits : FitsBefore (.space (cs.takeWhile Lexeme.isSpace)) (cs.dropWhile Lexeme.isSpace) :=
    .space fun _ hc => List.mem_takeWhile_imp hc
  have hcons := Spells.cons hfits h
  rwa [Piece.text, List.takeWhile_append_dropWhile] at hcons

theorem spells_commentPieces (n : Nat) (cs : List Char) :
    Spells FitsBefore cs (commentPieces n cs) (Lexeme.commentsWithin n cs).2 := by
  induction n generalizing cs with
  | zero => exact .nil cs
  | succ n ih =>
    rw [commentPieces, Lexeme.commentsWithin]
    cases hcomment : Lexeme.comment cs with
    | none => exact .nil cs
    | some x =>
      obtain ⟨taken, rest⟩ := x
      have happend := Takes.comment.splits cs taken rest hcomment
      have hfits : FitsBefore (.comment taken) rest := .comment (by rw [happend, hcomment])
      have hcons := Spells.cons hfits (spells_space (ih (rest.dropWhile Lexeme.isSpace)))
      rwa [Piece.text, happend] at hcons

/-- There are at most as many comments as characters. -/
theorem settled_commentsWithin {n : Nat} {cs : List Char} (h : cs.length ≤ n) :
    Settled (Lexeme.commentsWithin n cs).2 := by
  induction n generalizing cs with
  | zero =>
    obtain rfl := List.length_eq_zero_iff.1 (Nat.le_zero.1 h)
    rfl
  | succ n ih =>
    rw [Lexeme.commentsWithin]
    cases hcomment : Lexeme.comment cs with
    | none => exact hcomment
    | some x =>
      obtain ⟨taken, rest⟩ := x
      have hlength := Takes.comment.length_lt hcomment
      have hdrop := (rest.dropWhile_sublist Lexeme.isSpace).length_le
      exact ih (by omega)

theorem snd_blanks (cs : List Char) :
    (Lexeme.blanks cs).2 = (Lexeme.commentsWithin (cs.dropWhile Lexeme.isSpace).length
      (cs.dropWhile Lexeme.isSpace)).2 := by
  unfold Lexeme.blanks
  split
  · rename_i rest hrest
    rw [hrest]
    rfl
  · rename_i hslash
    -- without a slash there is no comment
    match hrest : cs.dropWhile Lexeme.isSpace with
    | [] => rfl
    | d :: rest =>
      have hd : d ≠ '/' := fun hd => hslash rest (by rw [hrest, hd])
      rw [List.length_cons, Lexeme.commentsWithin, Lexeme.comment_eq_none hd]

/-- Where blanks have been skipped there is no comment. -/
theorem settles_skip : Grammar.Settles FitsBefore Settled rules.skip blankPieces := by
  intro c
  have hskip : (rules.skip c).rest = (Lexeme.blanks c.rest).2 := rfl
  rw [hskip, snd_blanks]
  exact ⟨spells_space (spells_commentPieces _ _), settled_commentsWithin (Nat.le_refl _)⟩

/-! ### Words -/

/-- A lexeme splits texts and takes quiet characters only. -/
structure Quiet (lex : Grammar.Lexeme) : Prop where
  splits : lex.Splits
  isQuiet : ∀ cs taken rest, lex cs = some (taken, rest) → ∀ c ∈ taken, Lexeme.isQuiet c = true

namespace Quiet

variable {lex lex' : Grammar.Lexeme}

theorem nothing : Quiet Grammar.Lexeme.nothing := by
  refine ⟨.nothing, ?_⟩
  rintro cs _ _ ⟨⟩ c hc
  cases hc

theorem atEnd : Quiet Grammar.Lexeme.atEnd := by
  refine ⟨.atEnd, fun cs taken rest h c hc => ?_⟩
  obtain ⟨-, rfl, -⟩ := Grammar.Lexeme.of_atEnd h
  cases hc

theorem exactly {w : List Char} (h : w.all Lexeme.isQuiet = true) :
    Quiet (Grammar.Lexeme.exactly w) := by
  refine ⟨.exactly w, fun cs taken rest hlex => ?_⟩
  obtain ⟨rfl, -⟩ := Grammar.Lexeme.of_exactly hlex
  exact List.all_eq_true.1 h

theorem one {p : Char → Bool} (h : ∀ c, p c = true → Lexeme.isQuiet c = true) :
    Quiet (Grammar.Lexeme.one p) := by
  refine ⟨.one p, fun cs taken rest hlex => ?_⟩
  obtain ⟨c, hc, rfl, -⟩ := Grammar.Lexeme.of_one hlex
  simpa using h c hc

theorem run {p : Char → Bool} (h : ∀ c, p c = true → Lexeme.isQuiet c = true) :
    Quiet (Grammar.Lexeme.run p) := by
  refine ⟨.run p, ?_⟩
  rintro cs _ _ ⟨⟩ c hc
  exact h c (List.mem_takeWhile_imp hc)

theorem andThen (h : Quiet lex) (h' : Quiet lex') : Quiet (Grammar.Lexeme.andThen lex lex') := by
  refine ⟨h.splits.andThen h'.splits, fun cs taken rest hlex c hc => ?_⟩
  obtain ⟨x, mid, y, hx, hy, rfl⟩ := Grammar.Lexeme.of_andThen hlex
  rcases List.mem_append.1 hc with hc | hc
  · exact h.isQuiet cs x mid hx c hc
  · exact h'.isQuiet mid y rest hy c hc

theorem orElse (h : Quiet lex) (h' : Quiet lex') : Quiet (Grammar.Lexeme.orElse lex lex') := by
  refine ⟨h.splits.orElse h'.splits, fun cs taken rest hlex => ?_⟩
  rcases Grammar.Lexeme.of_orElse hlex with hlex | hlex
  · exact h.isQuiet cs taken rest hlex
  · exact h'.isQuiet cs taken rest hlex

theorem orNothing (h : Quiet lex) : Quiet (Grammar.Lexeme.orNothing lex) := h.orElse nothing

theorem run1 {p : Char → Bool} (h : ∀ c, p c = true → Lexeme.isQuiet c = true) :
    Quiet (Grammar.Lexeme.run1 p) := (one h).andThen (run h)

theorem unlessNext (h : Quiet lex) (p : Char → Bool) :
    Quiet (Grammar.Lexeme.unlessNext lex p) :=
  ⟨h.splits.unlessNext p, fun cs taken rest hlex =>
    h.isQuiet cs taken rest (Grammar.Lexeme.of_unlessNext hlex)⟩

/-- A condition that fails for the four other characters holds of quiet ones only. -/
theorem of_not {p : Char → Bool}
    (h : p '/' = false ∧ p '\x22' = false ∧ p '\x27' = false ∧ p '\x60' = false) (c : Char)
    (hc : p c = true) : Lexeme.isQuiet c = true := by
  simp only [Lexeme.isQuiet, Bool.and_eq_true, bne_iff_ne]
  refine ⟨⟨⟨?_, ?_⟩, ?_⟩, ?_⟩ <;> rintro rfl <;> simp [h] at hc

theorem isNameChar (c : Char) (h : Lexeme.isNameChar c = true) : Lexeme.isQuiet c = true :=
  of_not (by decide +kernel) c h

theorem isSpace (c : Char) (h : Lexeme.isSpace c = true) : Lexeme.isQuiet c = true :=
  of_not (by decide) c h

theorem isDigit (c : Char) (h : Lexeme.isDigit c = true) : Lexeme.isQuiet c = true :=
  of_not (by decide) c h

theorem propertyName : Quiet Lexeme.propertyName :=
  (one (of_not (by decide +kernel))).andThen (run isNameChar)

theorem identifier : Quiet Lexeme.identifier where
  splits := Takes.identifier.splits
  isQuiet cs taken rest h :=
    propertyName.isQuiet cs taken rest (Takes.propertyName_of_identifier h)

theorem number : Quiet Lexeme.number := by
  refine orElse ?_ (andThen (orElse ?_ ?_) ?_)
  · exact (exactly (by decide)).andThen
      ((one (of_not (by decide))).andThen (run1 (of_not (by decide))))
  · exact (run1 isDigit).andThen ((exactly (by decide)).andThen (run isDigit)).orNothing
  · exact (exactly (by decide)).andThen (run1 isDigit)
  · exact ((one (of_not (by decide))).andThen
      ((one (of_not (by decide))).orNothing.andThen (run1 isDigit))).orNothing

theorem fitting (h : Quiet lex) : Fitting lex := by
  intro cs taken rest _ hlex
  refine ⟨h.splits cs taken rest hlex, .contained ?_⟩
  exact Lexeme.isContained_of_isQuiet (h.isQuiet cs taken rest hlex) rest

end Quiet

theorem fitting_of_marked {lex : Grammar.Lexeme}
    (h : ∀ cs taken rest, lex cs = some (taken, rest) → Lexeme.marked cs = some (taken, rest)) :
    Fitting lex := by
  intro cs taken rest _ hlex
  have hmarked := h cs taken rest hlex
  have happend := Takes.marked.splits cs taken rest hmarked
  exact ⟨happend, .marked (by rw [happend, hmarked])⟩

theorem fitting_string : Fitting Lexeme.string :=
  fitting_of_marked fun cs taken rest h => by simp only [Lexeme.marked, Grammar.Lexeme.orElse, h]

theorem fitting_template : Fitting Lexeme.template := by
  refine fitting_of_marked fun cs taken rest h => ?_
  have hstring : Lexeme.string cs = none := by
    match cs with
    | [] => cases h
    | c :: cs =>
      obtain rfl : c = '\x60' := by
        by_contra hc
        cases (Lexeme.between_eq_none hc _ cs).symm.trans h
      rfl
  simp only [Lexeme.marked, Grammar.Lexeme.orElse, hstring, h]

/-- A regular expression has its closing slash after the first one. -/
theorem fitting_regex : Fitting Lexeme.regex := by
  intro cs taken rest _ h
  refine ⟨Takes.regex.splits cs taken rest h, .regex ?_⟩
  obtain ⟨x, mid, y, hx, hy, rfl⟩ := Grammar.Lexeme.of_andThen h
  obtain ⟨rfl, -⟩ := Grammar.Lexeme.of_exactly (Grammar.Lexeme.of_unlessNext hx)
  obtain ⟨inside, mid', z, -, hz, rfl⟩ := Grammar.Lexeme.of_andThen hy
  obtain ⟨slash, mid'', flags, hslash, -, rfl⟩ := Grammar.Lexeme.of_andThen hz
  obtain ⟨rfl, -⟩ := Grammar.Lexeme.of_exactly hslash
  refine Lexeme.isRegex_of_mem ?_
  simp

/-- An operator stands where no comment begins. -/
theorem fitting_operator {lex : Grammar.Lexeme} {w : List Char} (hw : w.all Lexeme.isQuiet = true)
    (h : ∀ cs taken rest, lex cs = some (taken, rest) → taken = '/' :: w ∧ taken ++ rest = cs) :
    Fitting lex := by
  intro cs taken rest hsettled hlex
  obtain ⟨rfl, rfl⟩ := h cs taken rest hlex
  refine ⟨rfl, .contained (Lexeme.isContained_cons hsettled ?_ ?_)⟩
  · exact Lexeme.marked_eq_none (by decide) (by decide) (by decide) (w ++ rest)
  · exact Lexeme.isContained_of_isQuiet (List.all_eq_true.1 hw) rest

theorem fitting_unlessNext {w : List Char} (h : w.all Lexeme.isQuiet = true) (p : Char → Bool) :
    Fitting (Grammar.Lexeme.unlessNext (Grammar.Lexeme.exactly w) p) :=
  ((Quiet.exactly h).unlessNext p).fitting

/-! ### The lexemes of the grammar -/

namespace Syntax

@[simp] theorem words_mark {s : String} (h : s.toList.all Lexeme.isQuiet = true) :
    (mark s).Words Fitting := (Quiet.exactly h).fitting

@[simp] theorem words_keyword {label : Label} {w : String}
    (h : w.toList.all Lexeme.isQuiet = true) : (keyword label w).Words Fitting :=
  fitting_unlessNext h _

@[simp] theorem words_meansWord {α : Type} {label : Label} {w : List Char} {a : α}
    (h : w.all Lexeme.isQuiet = true) : (means label (Lexeme.word w) a).Words Fitting :=
  fitting_unlessNext h _

@[simp] theorem words_meansMark {α : Type} {label : Label} {s : String} {a : α}
    (h : s.toList.all Lexeme.isQuiet = true) : (meansMark label s a).Words Fitting :=
  (Quiet.exactly h).fitting

@[simp] theorem words_meansUnless {α : Type} {label : Label} {s next : String} {a : α}
    (h : s.toList.all Lexeme.isQuiet = true) : (meansUnless label s next a).Words Fitting :=
  fitting_unlessNext h _

@[simp] theorem words_divide {α : Type} {label : Label} {next : String} {a : α} :
    (meansUnless label "/" next a).Words Fitting := by
  have hw : ([] : List Char).all Lexeme.isQuiet = true := rfl
  refine fitting_operator hw fun cs taken rest h => ?_
  obtain ⟨rfl, rfl⟩ := Grammar.Lexeme.of_exactly (Grammar.Lexeme.of_unlessNext h)
  exact ⟨rfl, rfl⟩

@[simp] theorem words_divideAssign {α : Type} {label : Label} {a : α} :
    (meansMark label "/=" a).Words Fitting := by
  have hw : ['='].all Lexeme.isQuiet = true := by decide
  refine fitting_operator hw fun cs taken rest h => ?_
  obtain ⟨rfl, rfl⟩ := Grammar.Lexeme.of_exactly h
  exact ⟨rfl, rfl⟩

@[simp] theorem words_construct {α : Type} {label : Label} {p : Expr α} {form : α → Form Tree} :
    (construct label p form).Words Fitting ↔ p.Words Fitting := Iff.rfl

@[simp] theorem words_inParens {α : Type} {p : Expr α} :
    (inParens p).Words Fitting ↔ p.Words Fitting := by
  simp (disch := decide) [inParens]

@[simp] theorem words_commaList {α : Type} {p : Expr α} :
    (commaList p).Words Fitting ↔ p.Words Fitting := by
  simp (disch := decide) [commaList]

@[simp] theorem words_identifier : identifier.Words Fitting := Quiet.identifier.fitting

@[simp] theorem words_propertyName : propertyName.Words Fitting := Quiet.propertyName.fitting

@[simp] theorem words_name : name.Words Fitting := Quiet.identifier.fitting

@[simp] theorem words_kVar : kVar.Words Fitting :=
  Quiet.fitting (((Quiet.exactly (by decide)).orElse
    ((Quiet.exactly (by decide)).orElse (.exactly (by decide)))).unlessNext _)

@[simp] theorem words_semicolon : semicolon.Words Fitting := words_mark (by decide)

@[simp] theorem words_assignment : assignment.Words Fitting := trivial

@[simp] theorem words_statement : statement.Words Fitting := trivial

@[simp] theorem words_expression : expression.Words Fitting := by
  simp [expression]

@[simp] theorem words_items {p : Expr Tree} : (items p).Words Fitting ↔ p.Words Fitting := by
  simp (disch := decide) [items]

@[simp] theorem words_parameters : parameters.Words Fitting := by
  simp [parameters]

@[simp] theorem words_braced (label : Label) : (braced label).Words Fitting := by
  simp (disch := decide) [braced]

@[simp] theorem words_property : property.Words Fitting := by
  have hstring : stringText.Words Fitting := fitting_string
  have hnumber : numberText.Words Fitting := Quiet.number.fitting
  simp (disch := decide) [property, propertyKey, hstring, hnumber]

theorem words_booleanLit : booleanLit.Words Fitting :=
  Quiet.fitting (((Quiet.exactly (by decide)).orElse (.exactly (by decide))).unlessNext _)

@[simp] theorem words_primary : primary.Words Fitting := by
  have hthis : thisLit.Words Fitting := fitting_unlessNext (by decide) _
  have hnull : nullLit.Words Fitting := fitting_unlessNext (by decide) _
  have hnumber : numberLit.Words Fitting := Quiet.number.fitting
  have hstring : stringLit.Words Fitting := fitting_string
  have htemplate : templateLit.Words Fitting := fitting_template
  have hregex : regexLit.Words Fitting := fitting_regex
  simp (disch := decide) [primary, functionExpression, functionBody, arrayLit, objectLit, group,
    words_booleanLit, hthis, hnull, hnumber, hstring, htemplate, hregex]

@[simp] theorem words_memberAccess : memberAccess.Words Fitting := by
  simp (disch := decide) [memberAccess]

@[simp] theorem words_elementAccess : elementAccess.Words Fitting := by
  simp (disch := decide) [elementAccess]

@[simp] theorem words_arguments : arguments.Words Fitting := by
  simp [arguments]

@[simp] theorem words_accessed {label : Label} {accessor : Expr Accessor} :
    (accessed label accessor).Words Fitting ↔ accessor.Words Fitting := by
  simp [accessed]

@[simp] theorem words_leftHandSide : leftHandSide.Words Fitting := by
  simp [leftHandSide]

theorem words_newExpression : newExpression.Words Fitting := by
  simp (disch := decide) [newExpression, newCallee]

@[simp] theorem words_unary : unary.Words Fitting := by
  simp (disch := decide) [unary, unaryOp, postfixed, updateOp]

@[simp] theorem words_binaryOp : binaryOp.Words Fitting := by
  simp (disch := decide) [binaryOp]

@[simp] theorem words_assignOp : assignOp.Words Fitting := by
  simp (disch := decide) [assignOp]

theorem words_assignmentBody : assignmentBody.Words Fitting := by
  simp (disch := decide) [assignmentBody, conditional, binary]

@[simp] theorem words_varList : varList.Words Fitting := by
  simp (disch := decide) [varList, declarator]

@[simp] theorem words_forStatement : forStatement.Words Fitting := by
  simp (disch := decide) [forStatement, forInHead, varBinding, forHead]

@[simp] theorem words_tryStatement : tryStatement.Words Fitting := by
  simp (disch := decide) [tryStatement, catchClause, finallyClause, block]

theorem words_statementBody : statementBody.Words Fitting := by
  simp (disch := decide) [statementBody, block, varStatement, functionDeclaration, functionBody,
    returnStatement, ifStatement, whileStatement, doWhileStatement, throwStatement, breakStatement,
    continueStatement, emptyStatement, expressionStatement]

end Syntax

theorem words_body (rule : Rule) : (rules.body rule).Words Fitting := by
  cases rule with
  | statement => exact Syntax.words_statementBody
  | assignment => exact Syntax.words_assignmentBody
  | newExpression => exact Syntax.words_newExpression

/-! ### Whole texts -/

/-- The tree of a text, spanning all of it, and the pieces of the text. -/
def parsePieces? (cs : List Char) : Option (Tree × List Piece) :=
  (rules.traceText (.pieces blankPieces) Syntax.program (callDepth cs) cs).map
    fun (items, _, ps) => (.node ⟨0, Text.byteSize cs⟩ (.program items), ps)

/-- The pieces of a script fit, and they make up the whole text. -/
theorem exists_pieces {cs : List Char} {t : Tree} (h : parse cs = .ok t) :
    ∃ ps, parsePieces? cs = some (t, ps) ∧ Spells FitsBefore cs ps [] := by
  obtain ⟨items, c, f, hparse, rfl⟩ := parseText_of_parse h
  obtain ⟨ps, htrace⟩ := rules.exists_traceText (.pieces blankPieces) hparse
  refine ⟨ps, by rw [parsePieces?, htrace]; rfl, ?_⟩
  -- blanks are skipped before the first statement, and the text ends after the last one
  obtain ⟨_, hlabelled, rfl⟩ := Peg.of_trace_labelled htrace
  obtain ⟨⟨_, _⟩, -, hprogram⟩ := Peg.of_trace_map hlabelled
  obtain ⟨d, _, rs, hnothing, hstatements, rfl⟩ := Peg.of_trace_seq hprogram
  obtain ⟨hlex, rfl⟩ := Peg.of_trace_lexeme hnothing
  cases hlex
  obtain ⟨hblanks, hsettled⟩ := settles_skip d
  have hwords : (Syntax.statement.many.left Syntax.endOfInput).Words Fitting :=
    And.intro trivial Quiet.atEnd.fitting
  have hrest := Peg.spelling_trace settles_skip
    (Grammar.Rules.spelling_trace settles_skip words_body _ _) _ _ hwords _ _ _ _ hsettled
    hstatements
  have hend : c.rest = [] := by
    obtain ⟨_, -, hlast⟩ := Peg.of_trace_map hstatements
    obtain ⟨_, _, _, -, hlast, -⟩ := Peg.of_trace_seq hlast
    obtain ⟨_, hatEnd, -⟩ := Peg.of_trace_labelled hlast
    exact (Grammar.Lexeme.of_atEnd (Peg.of_trace_lexeme hatEnd).1).2.2
  rw [hend] at hrest
  have hstart : FitsBefore (.word []) d.rest := .contained rfl
  exact .append (.single hstart rfl) (hblanks.append hrest)

end ScriptTypes.Script
