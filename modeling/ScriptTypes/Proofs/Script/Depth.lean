import ScriptTypes.Proofs.Grammar.Limits
import ScriptTypes.Proofs.Script.Lays

/-!
# How deep calls are nested in scripts

Three rules are called. A statement may begin with an expression, and an expression with `new`, but
not the other way round, and `new` takes its keyword first. Two further calls at most can follow a
call before a character is taken, which is where `callDepth` comes from.

Main statement: `parseText_program_eq`, larger limits give the same outcome.
-/

namespace ScriptTypes.Script

open Grammar (Peg Lexeme)

/-- Rules call rules of lower rank, unless they have taken a character. -/
def Rule.rank : Rule → Nat
  | .statement => 2
  | .assignment => 1
  | .newExpression => 0

theorem Rule.rank_lt (rule : Rule) : rule.rank < 3 := by cases rule <;> decide

namespace Syntax

variable {P : Rule → Prop} {α : Type}

/-! ### Building blocks -/

theorem advances_token {label : Label} {lex : Lexeme} (h : Takes lex) :
    (token label lex).Advances := fun _ _ _ => h.length_lt

theorem leads_token {label : Label} {lex : Lexeme} (h : Takes lex) : (token label lex).Leads P :=
  h.splits

theorem advances_leaf {label : Label} {lex : Lexeme} {form : List Char → Form Tree}
    (h : Takes lex) : (leaf label lex form).Advances := fun _ _ _ => h.length_lt

theorem leads_leaf {label : Label} {lex : Lexeme} {form : List Char → Form Tree} (h : Takes lex) :
    (leaf label lex form).Leads P := h.splits

@[simp] theorem advances_mark {s : String} (h : s.toList ≠ []) : (mark s).Advances :=
  fun _ _ _ => (Takes.exactly h).length_lt

@[simp] theorem leads_mark (s : String) : (mark s).Leads P := .exactly s.toList

@[simp] theorem advances_keyword {label : Label} {w : String} (h : w.toList ≠ []) :
    (keyword label w).Advances := advances_token (.word h)

@[simp] theorem leads_keyword {label : Label} {w : String} (h : w.toList ≠ []) :
    (keyword label w).Leads P := leads_token (.word h)

@[simp] theorem advances_meansWord {label : Label} {w : List Char} {a : α} (h : w ≠ []) :
    (means label (Lexeme.word w) a).Advances := advances_token (.word h)

@[simp] theorem leads_meansWord {label : Label} {w : List Char} {a : α} (h : w ≠ []) :
    (means label (Lexeme.word w) a).Leads P := leads_token (.word h)

@[simp] theorem advances_meansMark {label : Label} {s : String} {a : α} (h : s.toList ≠ []) :
    (meansMark label s a).Advances := advances_token (.exactly h)

@[simp] theorem leads_meansMark {label : Label} {s : String} {a : α} (h : s.toList ≠ []) :
    (meansMark label s a).Leads P := leads_token (.exactly h)

@[simp] theorem advances_meansUnless {label : Label} {s next : String} {a : α}
    (h : s.toList ≠ []) : (meansUnless label s next a).Advances :=
  advances_token ((Takes.exactly h).unlessNext _)

@[simp] theorem leads_meansUnless {label : Label} {s next : String} {a : α} (h : s.toList ≠ []) :
    (meansUnless label s next a).Leads P := leads_token ((Takes.exactly h).unlessNext _)

@[simp] theorem advances_construct {label : Label} {p : Expr α} {form : α → Form Tree} :
    (construct label p form).Advances ↔ p.Advances := Iff.rfl

@[simp] theorem leads_construct {label : Label} {p : Expr α} {form : α → Form Tree} :
    (construct label p form).Leads P ↔ p.Leads P := Iff.rfl

theorem advances_commaList {p : Expr α} (h : p.Advances) : (commaList p).Advances := .inl h

@[simp] theorem leads_commaList {p : Expr α} : (commaList p).Leads P ↔ p.Leads P := by
  have hmark : (mark ",").Advances := advances_mark (by decide)
  refine ⟨And.left, fun h => ⟨h, .inr ⟨⟨leads_mark _, .inl ⟨hmark, ?_⟩⟩, .inl hmark⟩⟩⟩
  exact h.mono fun _ _ => trivial

@[simp] theorem advances_inParens {p : Expr α} : (inParens p).Advances := by
  simp (disch := decide) [inParens]

/-- What stands in parentheses follows a character. -/
@[simp] theorem leads_inParens {p : Expr α} :
    (inParens p).Leads P ↔ p.Leads fun _ => True := by
  have hopen : (mark "(").Advances := advances_mark (by decide)
  constructor
  · rintro ⟨-, ⟨-, h, -⟩ | ⟨h, -⟩⟩
    · exact h
    · exact h.mono fun _ _ => trivial
  · exact fun h => ⟨leads_mark _, .inl ⟨hopen, h, .inr (leads_mark _)⟩⟩

@[simp] theorem advances_identifier : identifier.Advances := advances_token .identifier

@[simp] theorem leads_identifier : identifier.Leads P := leads_token .identifier

@[simp] theorem leads_propertyName : propertyName.Leads P := leads_token .propertyName

@[simp] theorem leads_name : name.Leads P := leads_leaf .identifier

@[simp] theorem leads_semicolon : semicolon.Leads P := Grammar.Lexeme.Splits.exactly _

theorem takes_kVar : Takes (Grammar.Lexeme.unlessNext
    (Grammar.Lexeme.orElse (Grammar.Lexeme.exactly "var".toList)
      (Grammar.Lexeme.orElse (Grammar.Lexeme.exactly "let".toList)
        (Grammar.Lexeme.exactly "const".toList))) Lexeme.isNameChar) :=
  ((Takes.exactly (by decide)).orElse
    ((Takes.exactly (by decide)).orElse (.exactly (by decide)))).unlessNext _

@[simp] theorem advances_kVar : kVar.Advances := advances_token takes_kVar

@[simp] theorem leads_kVar : kVar.Leads P := leads_token takes_kVar

@[simp] theorem advances_statement : statement.Advances := trivial

@[simp] theorem leads_statement : statement.Leads P ↔ P .statement := Iff.rfl

@[simp] theorem advances_assignment : assignment.Advances := trivial

@[simp] theorem leads_assignment : assignment.Leads P ↔ P .assignment := Iff.rfl

/-! ### Expressions -/

@[simp] theorem advances_expression : expression.Advances := by
  simp [expression, advances_commaList]

@[simp] theorem leads_expression : expression.Leads P ↔ P .assignment := by
  simp [expression]

@[simp] theorem leads_parameters : parameters.Leads P := by
  simp [parameters]

@[simp] theorem leads_braced (label : Label) : (braced label).Leads P := by
  simp (disch := decide) [braced]

@[simp] theorem advances_braced (label : Label) : (braced label).Advances := by
  simp (disch := decide) [braced]

@[simp] theorem leads_property : property.Leads P := by
  have hstring : stringText.Leads P := leads_token .string
  have hnumber : numberText.Leads P := leads_token .number
  have hstring' : stringText.Advances := advances_token .string
  have hnumber' : numberText.Advances := advances_token .number
  have hname' : propertyName.Advances := advances_token .propertyName
  simp (disch := decide) [property, propertyKey, hstring, hnumber, hstring', hnumber', hname']

theorem takes_boolean : Takes (Grammar.Lexeme.unlessNext
    (Grammar.Lexeme.orElse (Grammar.Lexeme.exactly "true".toList)
      (Grammar.Lexeme.exactly "false".toList)) Lexeme.isNameChar) :=
  ((Takes.exactly (by decide)).orElse (.exactly (by decide))).unlessNext _

@[simp] theorem advances_primary : primary.Advances := by
  have hthis : thisLit.Advances := advances_leaf (.word (by decide))
  have hnull : nullLit.Advances := advances_leaf (.word (by decide))
  have hboolean : booleanLit.Advances := advances_leaf takes_boolean
  have hnumber : numberLit.Advances := advances_leaf .number
  have hstring : stringLit.Advances := advances_leaf .string
  have htemplate : templateLit.Advances := advances_leaf (.between _ _)
  have hregex : regexLit.Advances := advances_leaf .regex
  have hname : name.Advances := advances_leaf .identifier
  simp (disch := decide) [primary, functionExpression, arrayLit, objectLit, group, hthis, hnull,
    hboolean, hnumber, hstring, htemplate, hregex, hname]

@[simp] theorem leads_primary : primary.Leads P := by
  have hthis : thisLit.Leads P := leads_leaf (.word (by decide))
  have hnull : nullLit.Leads P := leads_leaf (.word (by decide))
  have hboolean : booleanLit.Leads P := leads_leaf takes_boolean
  have hnumber : numberLit.Leads P := leads_leaf .number
  have hstring : stringLit.Leads P := leads_leaf .string
  have htemplate : templateLit.Leads P := leads_leaf (.between _ _)
  have hregex : regexLit.Leads P := leads_leaf .regex
  simp (disch := decide) [primary, functionExpression, functionBody, arrayLit, objectLit, group,
    items, hthis, hnull, hboolean, hnumber, hstring, htemplate, hregex]

@[simp] theorem leads_memberAccess : memberAccess.Leads P := by
  simp (disch := decide) [memberAccess]

@[simp] theorem leads_elementAccess : elementAccess.Leads P := by
  simp (disch := decide) [elementAccess]

@[simp] theorem leads_arguments : arguments.Leads P := by
  simp [arguments]

@[simp] theorem advances_accessed {label : Label} {accessor : Expr Accessor} :
    (accessed label accessor).Advances := by
  simp [accessed]

theorem leads_accessed {label : Label} {accessor : Expr Accessor}
    (hleads : accessor.Leads fun _ => True) (hadvances : accessor.Advances)
    (hnew : P .newExpression) : (accessed label accessor).Leads P := by
  simp [accessed, hleads, hadvances, hnew]

@[simp] theorem advances_memberAccess : memberAccess.Advances := by
  simp (disch := decide) [memberAccess]

@[simp] theorem advances_elementAccess : elementAccess.Advances := by
  simp (disch := decide) [elementAccess]

@[simp] theorem advances_leftHandSide : leftHandSide.Advances := advances_accessed

theorem leads_leftHandSide (hnew : P .newExpression) : leftHandSide.Leads P :=
  leads_accessed (by simp) (by simp [arguments]) hnew

/-- The keyword comes before everything that is called. -/
theorem leads_newExpression : newExpression.Leads P := by
  have hcallee : newCallee.Leads fun _ => True := leads_accessed (by simp) (by simp) trivial
  simp (disch := decide) [newExpression, hcallee]

@[simp] theorem advances_postfixed : postfixed.Advances := by
  simp [postfixed]

theorem leads_postfixed (hnew : P .newExpression) : postfixed.Leads P := by
  simp (disch := decide) [postfixed, updateOp, leads_leftHandSide hnew]

@[simp] theorem advances_unary : unary.Advances := by
  simp [unary]

theorem leads_unary (hnew : P .newExpression) : unary.Leads P := by
  simp (disch := decide) [unary, unaryOp, leads_postfixed hnew]

theorem leads_binary (hnew : P .newExpression) : binary.Leads P := by
  have hunary : unary.Leads fun _ => True := leads_unary trivial
  simp (disch := decide) [binary, binaryOp, leads_unary hnew, hunary]

@[simp] theorem advances_binary : binary.Advances := by
  simp [binary]

@[simp] theorem advances_conditional : conditional.Advances := by
  simp [conditional]

theorem leads_conditional (hnew : P .newExpression) : conditional.Leads P := by
  simp (disch := decide) [conditional, leads_binary hnew]

theorem leads_assignmentBody (hnew : P .newExpression) : assignmentBody.Leads P := by
  simp (disch := decide) [assignmentBody, assignOp, leads_conditional hnew]

/-! ### Statements -/

@[simp] theorem leads_varList : varList.Leads P := by
  simp (disch := decide) [varList, declarator]

@[simp] theorem leads_forStatement : forStatement.Leads P := by
  have hleft : leftHandSide.Leads fun _ => True := leads_leftHandSide trivial
  have hhead : (forInHead.oneOf [forHead]).Leads fun _ => True := by
    simp (disch := decide) [forInHead, varBinding, forHead, hleft]
  simp (disch := decide) [forStatement, hhead]

@[simp] theorem leads_tryStatement : tryStatement.Leads P := by
  simp (disch := decide) [tryStatement, catchClause, finallyClause, block]

theorem leads_statementBody (hassignment : P .assignment) : statementBody.Leads P := by
  simp (disch := decide) [statementBody, block, varStatement, functionDeclaration, functionBody,
    returnStatement, ifStatement, whileStatement, doWhileStatement, throwStatement, breakStatement,
    continueStatement, emptyStatement, expressionStatement, hassignment]

theorem advances_statementBody : statementBody.Advances := by
  simp (disch := decide) [statementBody, block, varStatement, varList, functionDeclaration,
    returnStatement, ifStatement, forStatement, whileStatement, doWhileStatement, throwStatement,
    tryStatement, breakStatement, continueStatement, emptyStatement, expressionStatement]

end Syntax

theorem leads_body (rule : Rule) :
    (rules.body rule).Leads fun callee => callee.rank < rule.rank := by
  cases rule with
  | statement => exact Syntax.leads_statementBody (by decide)
  | assignment => exact Syntax.leads_assignmentBody (by decide)
  | newExpression => exact Syntax.leads_newExpression

theorem advances_body (rule : Rule) : (rules.body rule).Advances := by
  cases rule with
  | statement => exact Syntax.advances_statementBody
  | assignment => exact .inl Syntax.advances_conditional
  | newExpression => exact .inl (Syntax.advances_keyword (by decide))

/-- The limits on calls and rounds are not reached: with any larger ones a text has the same
outcome. -/
theorem parseText_program_eq {cs : List Char} {limit depth : Nat} (hlimit : cs.length < limit)
    (hdepth : callDepth cs ≤ depth) :
    Syntax.program.run limit rules.skip (rules.parse limit depth) (.ofText cs) {}
      = rules.parseText Syntax.program (callDepth cs) cs := by
  have hprogram : Syntax.program.Leads fun rule => rule.rank < 3 :=
    ⟨.nothing, .inr ⟨⟨Rule.rank_lt _, trivial⟩, .inr .atEnd⟩⟩
  unfold callDepth at hdepth ⊢
  exact Grammar.Rules.run_eq_parseText append_blanks Rule.rank_lt leads_body advances_body hprogram
    hlimit (by omega) (by omega)

end ScriptTypes.Script
