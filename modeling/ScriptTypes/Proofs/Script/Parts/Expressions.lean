import ScriptTypes.Proofs.Script.Parts

/-!
# The parts of expressions

Every rule for expressions has one part, and that is lowered to the tree of the match.

Main statements: `one_expression`, `one_assignmentBody`, `one_newExpression`.
-/

namespace ScriptTypes.Script.Syntax

open Grammar (Lexeme)
open Grammar.Peg (Shapes)
open Lowering

/-- Every match is one part with this label, which is lowered to the tree of the match. -/
abbrev OneExpr (label : Label) (p : Expr Tree) : Prop :=
  One p fun _ t q => q.label = label ∧ IsExpr t q

/-- A labelled match with its span, from the parts inside it. -/
theorem OneExpr.rule {α : Type} {label : Label} {p : Expr α} {Q : α → List Part → Prop}
    {g : Span × α → Tree} (h : Lowers anyLabel p Q)
    (hexpr : ∀ span a text inner, Q a inner →
      ofExpr label span text inner = (g (span, a)).visit {} ∧
      (g (span, a)).form.isExpression = true) :
    OneExpr label (.labelled label (.map g (.spanned p))) := by
  refine One.mono (One.rule h) ?_
  rintro span _ _ ⟨a, text, inner, rfl, rfl, ha⟩
  rw [kept_anyLabel] at ha
  obtain ⟨hlowered, hform⟩ := hexpr span a text inner ha
  exact ⟨rfl, hlowered, hform⟩

/-- A rule's part as the only one, where its label is kept. -/
theorem OneExpr.lowers {label : Label} {p : Expr Tree} (h : OneExpr label p) {keep : Label → Bool}
    (hkeep : keep label = true) : Lowers keep p (onePart IsExpr) :=
  One.lowers h fun _ _ _ hq => ⟨hq.1 ▸ hkeep, hq.2⟩

theorem one_assignment : OneExpr .assignment assignment := Shapes.call Rule.assignment

theorem lowers_assignment : Lowers anyLabel assignment (onePart IsExpr) := one_assignment.lowers rfl

theorem mapM_eq_visitAll {lower : Part → Lowering NodeId} {ts : List Tree} {parts : List Part}
    (h : List.Forall₂ (fun t q => lower q = t.visit {}) ts parts) :
    parts.mapM lower = visitAll ts := by
  induction h with
  | nil => rfl
  | cons hfirst _ ih =>
    rw [List.mapM_cons, hfirst, ih]
    rfl

theorem mapM_expr {ts : List Tree} {parts : List Part} (h : List.Forall₂ IsExpr ts parts) :
    parts.mapM Part.expr = visitAll ts :=
  mapM_eq_visitAll (h.imp fun _ _ hq => hq.lowered)

/-! ### Lists and literals -/

theorem one_expression : OneExpr .expression expression := by
  refine OneExpr.rule lowers_assignment.commaList ?_
  rintro span items text inner ⟨hne, hitems⟩
  have hall := mapM_expr hitems
  match items with
  | [e] =>
    obtain ⟨_, _, he, -, -⟩ := List.forall₂_cons_left_iff.1 hitems
    exact ⟨by simp [ofExpr, hall, visitAll], he.isExpression⟩
  | a :: b :: items => exact ⟨by simp [ofExpr, hall, visitAll, Tree.visit, visitForm], rfl⟩

/-- The only part of a match is lowered as an expression. -/
theorem exprOr_head {parts : List Part} {t : Tree} (h : onePart IsExpr t parts) (offset : Nat) :
    exprOr offset parts[0]? = t.visit {} := by
  obtain ⟨q, rfl, hq⟩ := h
  exact hq.lowered

theorem one_group : OneExpr .group group := by
  refine OneExpr.rule (one_expression.lowers rfl).inParens ?_
  intro span e text inner he
  exact ⟨by simp [ofExpr, exprOr_head he, Tree.visit, visitForm], rfl⟩

theorem Lowers.items {keep : Label → Bool} {p : Expr Tree} {Q : Tree → Part → Prop}
    (h : Lowers keep p (onePart Q)) : Lowers keep (Syntax.items p) (List.Forall₂ Q) :=
  h.optCommaList.left (mark ",").optText

theorem one_arrayLit : OneExpr .arrayLit arrayLit := by
  refine OneExpr.rule ((Lowers.mark "[").right (lowers_assignment.items.left (.mark "]"))) ?_
  intro span items text inner hitems
  exact ⟨by simp [ofExpr, mapM_expr hitems, Tree.visit, visitForm], rfl⟩

theorem one_identifier : One identifier fun _ s q => q.label = .identifier ∧ text q.text = s := by
  refine One.map (one_token .identifier Takes.identifier.splits) ?_
  rintro span cs _ rfl
  exact ⟨rfl, rfl⟩

theorem one_propertyName :
    One propertyName fun _ s q => q.label = .propertyName ∧ text q.text = s := by
  refine One.map (one_token .propertyName Takes.propertyName.splits) ?_
  rintro span cs _ rfl
  exact ⟨rfl, rfl⟩

theorem one_propertyKey : One propertyKey fun _ s q => key (some q) = pure s := by
  refine One.oneOf ?_ (List.forall_mem_cons.2 ⟨?_, List.forall_mem_singleton.2 ?_⟩)
  · refine One.map (one_token .stringLit Takes.string.splits) ?_
    rintro span cs _ rfl
    rfl
  · refine One.map (one_token .numberLit Takes.number.splits) ?_
    rintro span cs _ rfl
    rfl
  · refine One.mono one_propertyName ?_
    rintro span s q ⟨hlabel, rfl⟩
    simp [key, hlabel, Lowering.name]

theorem one_property : One property fun _ t q => Lowering.property q = t.visit {} := by
  have hkey : Lowers anyLabel propertyKey (onePart fun s q => key (some q) = pure s) :=
    one_propertyKey.lowers fun _ _ _ h => ⟨rfl, h⟩
  refine One.mono (One.rule (hkey.seq ((Lowers.mark ":").right lowers_assignment))) ?_
  rintro span _ _ ⟨⟨s, value⟩, text, inner, rfl, rfl, _, _, hinner, ⟨k, rfl, hk⟩, v, rfl, hv⟩
  rw [kept_anyLabel] at hinner
  subst hinner
  simp [Lowering.property, Part.of, hk, exprOr, hv.lowered, Tree.visit, visitForm]

theorem one_objectLit : OneExpr .objectLit objectLit := by
  have hproperty : Lowers anyLabel property (onePart fun t q => Lowering.property q = t.visit {}) :=
    one_property.lowers fun _ _ _ h => ⟨rfl, h⟩
  refine OneExpr.rule ((Lowers.mark _).right (hproperty.items.left (.mark _))) ?_
  intro span items text inner hitems
  exact ⟨by simp [ofExpr, mapM_eq_visitAll hitems, Tree.visit, visitForm], rfl⟩

theorem oneExpr_leaf {label : Label} {lex : Lexeme} {form : List Char → Form Tree}
    (h : lex.Splits)
    (hform : ∀ span cs, ofExpr label span cs [] = (Tree.node span (form cs)).visit {})
    (hexpr : ∀ cs, (form cs).isExpression = true) : OneExpr label (leaf label lex form) := by
  refine One.mono (one_leaf label h form) ?_
  rintro span _ _ ⟨cs, rfl, rfl⟩
  exact ⟨rfl, hform span cs, hexpr cs⟩

/-! ### Functions -/

theorem Lowers.keyword {label : Label} {w : String} (h : label.isKeyword = true) :
    Lowers notKeyword (Syntax.keyword label w) noPart := by
  refine (one_token label ((Grammar.Lexeme.Splits.exactly _).unlessNext _)).skipped ?_
  rintro span cs _ rfl
  simp [Part.of, notKeyword, h]

/-- The parameters of a function, as they are lowered inside it. -/
theorem one_parameters : One parameters fun _ t q => q.label = .parameters ∧
    (do add q.span (.parameters (← q.inner.mapM parameter))) = t.visit {} := by
  have hname : Lowers anyLabel name (onePart fun t q => parameter q = t.visit {}) := by
    refine One.lowers (one_leaf .identifier Takes.identifier.splits _) ?_
    rintro span _ _ ⟨cs, rfl, rfl⟩
    exact ⟨rfl, rfl⟩
  refine One.mono (One.rule hname.optCommaList.inParens) ?_
  rintro span _ _ ⟨items, text, inner, rfl, rfl, hitems⟩
  rw [kept_anyLabel] at hitems
  refine ⟨rfl, ?_⟩
  simp [Part.of, mapM_eq_visitAll hitems, Tree.visit, visitForm]

theorem lowers_parameters : Lowers notKeyword parameters (onePart fun t q => q.label = .parameters ∧
    (do add q.span (.parameters (← q.inner.mapM parameter))) = t.visit {}) :=
  one_parameters.lowers fun _ _ q h => ⟨by rw [h.1]; rfl, h⟩

theorem lowers_statement : Lowers notKeyword statement (onePart IsStatement) := by
  have hone : One statement fun _ t q => q.label.isKeyword = false ∧ IsStatement t q :=
    Shapes.call Rule.statement
  exact hone.lowers fun _ _ q h => ⟨by simp [notKeyword, h.1], h.2⟩

theorem one_braced {label : Label} (h : label = .block ∨ label = .functionBody) :
    One (braced label) fun _ t q => q.label = label ∧ IsStatement t q := by
  refine One.mono (One.rule ((Lowers.mark _).right (lowers_statement.many.left (.mark _)))) ?_
  rintro span _ _ ⟨items, text, inner, rfl, rfl, hitems⟩
  have hall : (significant inner).mapM Part.statement = visitAll items :=
    mapM_eq_visitAll (hitems.forall₂.imp fun _ _ hq => hq.lowered)
  refine ⟨rfl, ⟨(ofStatement_braced span text inner h).trans ?_⟩⟩
  simp [hall, Tree.visit, visitForm]

theorem lowers_functionBody : Lowers notKeyword functionBody
    (onePart fun t q => q.label = .functionBody ∧ IsStatement t q) :=
  (one_braced (.inr rfl)).lowers fun _ _ q h => ⟨by rw [h.1]; rfl, h⟩

theorem lowers_identifier : Lowers notKeyword identifier
    (onePart fun s q => q.label = .identifier ∧ text q.text = s) :=
  one_identifier.lowers fun _ _ q h => ⟨by rw [h.1]; rfl, h⟩

/-- A function with parameters and a body, and parts in front of them that say its name. -/
theorem function_eq {span : Span} {inner ns : List Part} {name : Option String}
    {params body : Tree} {ps bs : Part} (hinner : significant inner = ns ++ [ps, bs])
    (hname : ns.foldlM functionPart {} = pure { name := name })
    (hparams : ps.label = .parameters ∧
      (do add ps.span (.parameters (← ps.inner.mapM parameter))) = params.visit {})
    (hbody : bs.label = .functionBody ∧ IsStatement body bs) :
    function span inner = (Tree.node span (.function name none params body)).visit {} := by
  simp [function, hinner, List.foldlM_append, hname, functionPart, hparams.1, hbody.1, Tree.visit,
    visitForm, ← hparams.2, hbody.2.lowered]

theorem one_functionExpression : OneExpr .functionExpression functionExpression := by
  refine One.mono (One.rule ((Lowers.keyword rfl).right
    (lowers_identifier.opt.seq (lowers_parameters.seq lowers_functionBody)))) ?_
  rintro span _ _ ⟨⟨name, params, body⟩, text, inner, rfl, rfl, ns, _, hinner, hname, _, _, rfl,
    ⟨ps, rfl, hps⟩, bs, rfl, hbs⟩
  refine ⟨rfl, function_eq hinner ?_ hps hbs, rfl⟩
  rcases hname with ⟨rfl, rfl⟩ | ⟨s, rfl, q, rfl, hq, rfl⟩
  · rfl
  · simp [functionPart, hq]

theorem one_functionDeclaration : One functionDeclaration fun _ t q =>
    q.label = .functionDeclaration ∧ IsStatement t q := by
  refine One.mono (One.rule ((Lowers.keyword rfl).right
    (lowers_identifier.seq (lowers_parameters.seq lowers_functionBody)))) ?_
  rintro span _ _ ⟨⟨name, params, body⟩, text, inner, rfl, rfl, _, _, hinner, ⟨q, rfl, hq, rfl⟩, _,
    _, rfl, ⟨ps, rfl, hps⟩, bs, rfl, hbs⟩
  refine ⟨rfl, ⟨function_eq hinner ?_ hps hbs⟩⟩
  simp [functionPart, hq]

theorem one_primary : One primary fun _ => IsExpr := by
  have hexpr {label : Label} {p : Expr Tree} (h : OneExpr label p) : One p fun _ => IsExpr :=
    h.mono fun _ _ _ hq => hq.2
  refine One.oneOf (hexpr one_functionExpression) ?_
  simp only [List.forall_mem_cons, List.not_mem_nil, false_implies, implies_true, and_true]
  refine ⟨?_, ?_, ?_, ?_, ?_, ?_, ?_, hexpr one_arrayLit, hexpr one_objectLit, hexpr one_group, ?_⟩
  · exact hexpr (oneExpr_leaf (Takes.word (by decide)).splits (fun _ _ => rfl) fun _ => rfl)
  · exact hexpr (oneExpr_leaf (Takes.word (by decide)).splits (fun _ _ => rfl) fun _ => rfl)
  · have htakes := ((Takes.exactly (w := "true".toList) (by decide)).orElse
      (Takes.exactly (w := "false".toList) (by decide))).unlessNext Lexeme.isNameChar
    exact hexpr (oneExpr_leaf htakes.splits (fun _ _ => rfl) fun _ => rfl)
  · exact hexpr (oneExpr_leaf Takes.number.splits (fun _ _ => rfl) fun _ => rfl)
  · exact hexpr (oneExpr_leaf Takes.string.splits (fun _ _ => rfl) fun _ => rfl)
  · exact hexpr (oneExpr_leaf (Takes.between _ _).splits (fun _ _ => rfl) fun _ => rfl)
  · exact hexpr (oneExpr_leaf Takes.regex.splits (fun _ _ => rfl) fun _ => rfl)
  · exact hexpr (oneExpr_leaf Takes.identifier.splits (fun _ _ => rfl) fun _ => rfl)

/-! ### Accessors -/

/-- A part that is lowered to an accessor on whatever operand comes before it. -/
def IsAccessor (x : Span × Accessor) (q : Part) : Prop :=
  ∀ (start : Nat) (operand : Tree),
    (do Lowering.accessor start (← operand.visit {}) q) = (access start operand x).visit {}

theorem foldlM_accessor {xs : List (Span × Accessor)} {parts : List Part}
    (h : List.Forall₂ IsAccessor xs parts) (start : Nat) (operand : Tree) :
    (do parts.foldlM (Lowering.accessor start) (← operand.visit {}))
      = (xs.foldl (access start) operand).visit {} := by
  induction h generalizing operand with
  | nil => simp
  | @cons x q xs parts hfirst _ ih =>
    rw [List.foldl_cons, ← ih, ← hfirst start operand, bind_assoc]
    rfl

theorem isExpression_foldl_access (start : Nat) (xs : List (Span × Accessor)) {operand : Tree}
    (h : operand.form.isExpression = true) :
    (xs.foldl (access start) operand).form.isExpression = true := by
  induction xs generalizing operand with
  | nil => exact h
  | cons x xs ih =>
    obtain ⟨span, accessor⟩ := x
    refine ih ?_
    cases accessor <;> rfl

theorem one_memberAccess : One memberAccess fun span a q => IsAccessor (span, a) q := by
  have hname : Lowers anyLabel propertyName (onePart fun s q => text q.text = s) :=
    one_propertyName.lowers fun _ _ _ h => ⟨rfl, h.2⟩
  have hinner : Lowers anyLabel (.map .member (.right (mark ".") propertyName))
      (onePart fun a q => a = Accessor.member (text q.text)) := by
    refine ((Lowers.mark ".").right hname).map ?_
    rintro s _ ⟨q, rfl, rfl⟩
    exact ⟨q, rfl, rfl⟩
  refine One.mono (One.labelled hinner) ?_
  rintro span _ _ ⟨_, inner, rfl, q, hparts, rfl⟩ start operand
  rw [kept_anyLabel] at hparts
  simp [Part.of, Lowering.accessor, hparts, Lowering.name, access, Tree.visit, visitForm]

theorem one_elementAccess : One elementAccess fun span a q => IsAccessor (span, a) q := by
  have hinner : Lowers anyLabel (.map .element (.right (mark "[") (.left expression (mark "]"))))
      fun a parts => ∃ t, a = Accessor.element t ∧ onePart IsExpr t parts :=
    ((Lowers.mark "[").right ((one_expression.lowers rfl).left (.mark "]"))).map
      fun t _ ht => ⟨t, rfl, ht⟩
  refine One.mono (One.labelled hinner) ?_
  rintro span _ _ ⟨_, inner, rfl, t, rfl, ht⟩ start operand
  rw [kept_anyLabel] at ht
  simp [Part.of, Lowering.accessor, exprOr_head ht, access, Tree.visit, visitForm]

theorem one_arguments : One arguments fun span ts q =>
    q.label = .arguments ∧ q.span = span ∧ Lowering.arguments q = visitAll ts := by
  refine One.mono (One.labelled lowers_assignment.optCommaList.inParens) ?_
  rintro span ts _ ⟨_, inner, rfl, hts⟩
  rw [kept_anyLabel] at hts
  exact ⟨rfl, rfl, mapM_expr hts⟩

theorem one_callAccess :
    One (.map .arguments arguments) fun span a q => IsAccessor (span, a) q := by
  refine One.map one_arguments ?_
  rintro span ts q ⟨hlabel, rfl, hts⟩ start operand
  simp [Lowering.accessor, hlabel, hts, access, Tree.visit, visitForm]

theorem one_accessed {label : Label} (h : label = .leftHandSide ∨ label = .newCallee)
    {accessor : Expr Accessor} (haccessor : One accessor fun span a q => IsAccessor (span, a) q) :
    OneExpr label (accessed label accessor) := by
  have hnew : One (.call Rule.newExpression) fun _ => IsExpr :=
    One.mono (Shapes.call Rule.newExpression : OneExpr .newExpression _) fun _ _ _ hq => hq.2
  have hoperand : Lowers anyLabel (Grammar.Peg.oneOf (.call .newExpression) [primary])
      (onePart IsExpr) :=
    (hnew.oneOf (List.forall_mem_singleton.2 one_primary)).lowers fun _ _ _ hq => ⟨rfl, hq⟩
  have haccessors : Lowers anyLabel (.spanned accessor) (onePart IsAccessor) := by
    refine One.lowers haccessor.spanned ?_
    rintro span ⟨_, a⟩ q ⟨rfl, hq⟩
    exact ⟨rfl, hq⟩
  refine OneExpr.rule (hoperand.seq haccessors.many) ?_
  rintro span ⟨operand, xs⟩ text _ ⟨_, rest, rfl, ⟨q, rfl, hq⟩, hxs⟩
  have hall := foldlM_accessor hxs.forall₂ span.start operand
  rw [← hq.lowered] at hall
  exact ⟨(ofExpr_accessed span text (q :: rest) h).trans hall,
    isExpression_foldl_access span.start xs hq.isExpression⟩

theorem one_newCallee : OneExpr .newCallee newCallee :=
  one_accessed (.inr rfl) (one_memberAccess.oneOf (List.forall_mem_singleton.2 one_elementAccess))

theorem one_leftHandSide : OneExpr .leftHandSide leftHandSide :=
  one_accessed (.inl rfl) (one_memberAccess.oneOf
    (List.forall_mem_cons.2 ⟨one_elementAccess, List.forall_mem_singleton.2 one_callAccess⟩))

theorem one_newExpression : OneExpr .newExpression newExpression := by
  have hargs : Lowers notKeyword arguments
      (onePart fun ts q => Lowering.arguments q = visitAll ts) :=
    one_arguments.lowers fun _ _ q h => ⟨by rw [h.1]; rfl, h.2.2⟩
  refine One.mono (One.rule ((Lowers.keyword rfl).right
    ((one_newCallee.lowers rfl).seq hargs.opt))) ?_
  rintro span _ _ ⟨⟨callee, args⟩, text, inner, rfl, rfl, _, rest, hinner, ⟨q, rfl, hq⟩, hrest⟩
  have hparts : significant inner = q :: rest := hinner
  refine ⟨rfl, ?_, rfl⟩
  show ofExpr .newExpression span text inner = _
  rcases hrest with ⟨rfl, rfl⟩ | ⟨ts, rfl, r, rfl, hr⟩
  · simp [ofExpr, hparts, exprOr, hq.lowered, Tree.visit, visitForm, visitAll]
  · simp [ofExpr, hparts, exprOr, hq.lowered, hr, Tree.visit, visitForm]

/-! ### Operators -/

/-- Every match is one part, whose label has the meaning of the match. -/
def OneOp {α : Type} (R : Label → α → Prop) (p : Expr α) : Prop :=
  One p fun span a q => q.span = span ∧ R q.label a

section Operators

variable {α : Type} {R : Label → α → Prop} {label : Label} {a : α}

theorem OneOp.oneOf {p : Expr α} {ps : List (Expr α)} (h : OneOp R p) (hps : ∀ p ∈ ps, OneOp R p) :
    OneOp R (p.oneOf ps) := One.oneOf h hps

theorem OneOp.lowers {p : Expr α} (h : OneOp R p) :
    Lowers anyLabel p (onePart fun a q => R q.label a) :=
  One.lowers h fun _ _ _ hq => ⟨rfl, hq.2⟩

theorem oneOp_means {lex : Lexeme} (h : lex.Splits) (ha : R label a) :
    OneOp R (means label lex a) := by
  refine One.map (one_token label h) ?_
  rintro span cs _ rfl
  exact ⟨rfl, ha⟩

theorem oneOp_meansMark {s : String} (ha : R label a) : OneOp R (meansMark label s a) :=
  oneOp_means (.exactly _) ha

theorem oneOp_meansUnless {s next : String} (ha : R label a) :
    OneOp R (meansUnless label s next a) :=
  oneOp_means ((Grammar.Lexeme.Splits.exactly _).unlessNext _) ha

theorem oneOp_meansWord {w : List Char} (ha : R label a) :
    OneOp R (means label (Lexeme.word w) a) :=
  oneOp_means ((Grammar.Lexeme.Splits.exactly _).unlessNext _) ha

end Operators

theorem oneOp_updateOp : OneOp (fun label op => label.updateOp? = some op) updateOp :=
  OneOp.oneOf (oneOp_meansMark rfl) (List.forall_mem_singleton.2 (oneOp_meansMark rfl))

theorem oneOp_unaryOp : OneOp (fun label op => label.unaryOp? = some op) unaryOp := by
  refine OneOp.oneOf (oneOp_meansWord rfl) ?_
  simp only [List.forall_mem_cons, List.not_mem_nil, false_implies, implies_true, and_true]
  refine ⟨oneOp_meansWord rfl, oneOp_meansWord rfl, ?_⟩
  refine ⟨?_, ?_, ?_, ?_, ?_, ?_⟩ <;> exact oneOp_meansMark rfl

theorem oneOp_binaryOp : OneOp (fun label op => label.binaryOp? = some op) binaryOp := by
  refine OneOp.oneOf (oneOp_meansMark rfl) ?_
  simp only [List.forall_mem_cons, List.not_mem_nil, false_implies, implies_true, and_true]
  refine ⟨?_, ?_, ?_, ?_, ?_, ?_, ?_, ?_, ?_, ?_, ?_, ?_, ?_, ?_, ?_, ?_, ?_, ?_, ?_, ?_, ?_, ?_⟩
  all_goals
    first
    | exact oneOp_meansMark rfl
    | exact oneOp_meansUnless rfl
    | exact oneOp_meansWord rfl

theorem oneOp_assignOp : OneOp (fun label op => label.assignOp = op) assignOp := by
  refine OneOp.oneOf (oneOp_meansUnless rfl) ?_
  simp only [List.forall_mem_cons, List.not_mem_nil, false_implies, implies_true, and_true]
  refine ⟨?_, ?_, ?_, ?_, ?_, ?_, ?_, ?_, ?_, ?_, ?_⟩ <;> exact oneOp_meansMark rfl

theorem one_postfixed : OneExpr .postfixed postfixed := by
  refine OneExpr.rule ((one_leftHandSide.lowers rfl).seq oneOp_updateOp.lowers.opt) ?_
  rintro span ⟨operand, op⟩ text _ ⟨_, rest, rfl, ⟨q, rfl, hq⟩, hrest⟩
  rcases hrest with ⟨rfl, rfl⟩ | ⟨op, rfl, r, rfl, hr⟩
  · exact ⟨by simp [ofExpr, exprOr, hq.lowered], hq.isExpression⟩
  · exact ⟨by simp [ofExpr, exprOr, hq.lowered, hr, Tree.visit, visitForm], rfl⟩

/-- The parts of an operator in front of an operand. -/
def IsPrefix (x : Span × UnaryOp) (q : Part) : Prop :=
  q.span = x.1 ∧ q.label.unaryOp? = some x.2

theorem unaryOps_of_forall₂ {ops : List (Span × UnaryOp)} {qs : List Part}
    (h : List.Forall₂ IsPrefix ops qs) :
    qs.filterMap (fun q => q.label.unaryOp?.map fun op => (q.span.start, op))
        = ops.map (fun x => (x.1.start, x.2)) ∧
      qs.filter (fun q => q.label.unaryOp?.isNone) = [] := by
  induction h with
  | nil => exact ⟨rfl, rfl⟩
  | cons hfirst _ ih => simp [hfirst.1, hfirst.2, ih.1, ih.2]

/-- Operators in front of an operand are applied from the nearest to the furthest. -/
theorem foldlM_unary (ops : List (Span × UnaryOp)) (operand : Tree) :
    (do let n ← operand.visit {}
        (ops.map fun x => (x.1.start, x.2)).reverse.foldlM
          (fun n (start, op) => add ⟨start, operand.span.stored.stop⟩ (.unary op n)) n)
      = (applyUnary ops operand).visit {} := by
  induction ops with
  | nil => simp [applyUnary]
  | cons x ops ih =>
    have hcons : (applyUnary (x :: ops) operand).visit {} = (do
        let n ← (applyUnary ops operand).visit {}
        add ⟨x.1.start, operand.span.stop⟩ (.unary x.2 n)) := by
      simp [applyUnary, Tree.visit, visitForm]
    rw [hcons, ← ih]
    simp [List.foldlM_append]

theorem isExpression_applyUnary {ops : List (Span × UnaryOp)} {operand : Tree}
    (h : operand.form.isExpression = true) :
    (applyUnary ops operand).form.isExpression = true := by
  cases ops with
  | nil => exact h
  | cons x ops => rfl

/-- A labelled match without a span of its own, from the parts inside it. -/
theorem OneExpr.labelled {label : Label} {p : Expr Tree}
    (h : Lowers anyLabel p fun t parts => (∀ span text, ofExpr label span text parts = t.visit {}) ∧
      t.form.isExpression = true) : OneExpr label (.labelled label p) := by
  refine One.mono (One.labelled h) ?_
  rintro span t _ ⟨text, inner, rfl, hlowered, hform⟩
  rw [kept_anyLabel] at hlowered
  exact ⟨rfl, hlowered span text, hform⟩

theorem one_unary : OneExpr .unary unary := by
  have hop : Lowers anyLabel (.spanned unaryOp) (onePart IsPrefix) := by
    refine One.lowers (One.spanned oneOp_unaryOp) ?_
    rintro span ⟨_, op⟩ q ⟨rfl, hq⟩
    exact ⟨rfl, hq⟩
  have hoperand : Lowers anyLabel postfixed
      (onePart fun t q => q.label = .postfixed ∧ IsExpr t q) :=
    One.lowers one_postfixed fun _ _ _ h => ⟨rfl, h⟩
  refine OneExpr.labelled ((hop.many.seq hoperand).map ?_)
  rintro ⟨ops, operand⟩ _ ⟨qs, _, rfl, hops, q, rfl, hlabel, hq⟩
  refine ⟨fun span text => ?_, isExpression_applyUnary hq.isExpression⟩
  obtain ⟨hfound, hrest⟩ := unaryOps_of_forall₂ hops.forall₂
  have hnone : q.label.unaryOp? = none := by rw [hlabel]; rfl
  have hunary : Lowering.unary span (qs ++ [q]) = (do
      let n ← operand.visit {}
      let covered ← spanAt n
      (ops.map fun x => (x.1.start, x.2)).reverse.foldlM (fun n (start, op) =>
        add ⟨start, (covered.map Span.stop).getD span.start⟩ (.unary op n)) n) := by
    simp [Lowering.unary, hfound, hrest, hnone, exprOr, hq.lowered]
  show Lowering.unary span (qs ++ [q]) = _
  rw [hunary, spanAt_visit]
  exact foldlM_unary ops operand

/-! ### Chains of operators -/

/-- Apply an operator to the two trees that were visited last. -/
theorem reduce_visit (op : BinaryOp) (lhs rhs : Tree) (operands : List NodeId) :
    (do let l ← lhs.visit {}
        let r ← rhs.visit {}
        reduce op (r :: l :: operands))
      = (do let n ← (Chain.join op lhs rhs).visit {}
            return n :: operands) := by
  have hleft := spanAt_of_steady {} lhs (fun _ => steady_visit {} rhs) fun l r left => do
    let right ← spanAt r
    let n ← add ⟨(left.map Span.start).getD 0, (right.map Span.stop).getD 0⟩ (.binary op l r)
    return n :: operands
  have hright (l : NodeId) := spanAt_visit {} rhs fun r right => do
    let n ← add ⟨lhs.span.stored.start, (right.map Span.stop).getD 0⟩ (.binary op l r)
    return n :: operands
  simp only [reduce]
  rw [hleft]
  simp only [Option.map_some, Option.getD_some, hright]
  simp [visit_join]

/-- Visit the operands of a chain that are waiting, in the order of the text. -/
def visitWaiting : List (Tree × BinaryOp) → Lowering (List NodeId)
  | [] => return []
  | (lhs, _) :: waiting => do
    let operands ← visitWaiting waiting
    return (← lhs.visit {}) :: operands

/-- Closing the waiting operators of a chain, on trees and on the nodes of a draft. -/
theorem reduceFrom_visit (p : Nat) (waiting : List (Tree × BinaryOp)) (cur : Tree) :
    (do let operands ← visitWaiting waiting
        reduceFrom p (waiting.map Prod.snd) ((← cur.visit {}) :: operands))
      = (do let operands ← visitWaiting (Chain.close p waiting cur).1
            return ((Chain.close p waiting cur).1.map Prod.snd,
              (← (Chain.close p waiting cur).2.visit {}) :: operands)) := by
  induction waiting generalizing cur with
  | nil => simp [visitWaiting, reduceFrom, Chain.close]
  | cons x waiting ih =>
    obtain ⟨lhs, op⟩ := x
    rw [Chain.close]
    split
    · rename_i hle
      rw [← ih]
      have hstep (operands : List NodeId) := congrArg (· >>= reduceFrom p (waiting.map Prod.snd))
        (reduce_visit op lhs cur operands)
      simp only [bind_assoc, pure_bind] at hstep
      simp [visitWaiting, reduceFrom, Nat.not_lt.2 hle, hstep]
    · rename_i hlt
      simp [visitWaiting, reduceFrom, Nat.not_le.1 hlt]

/-- The parts of an operator and its right operand. -/
def IsOperation (x : BinaryOp × Tree) (parts : List Part) : Prop :=
  ∃ o q, parts = [o, q] ∧ o.label.binaryOp? = some x.1 ∧ q.label.binaryOp? = none ∧ IsExpr x.2 q

/-- The rest of a chain after the operand `cur`, on trees and on the nodes of a draft. -/
theorem chain_visit (span : Span) {rest : List (BinaryOp × Tree)} {parts : List Part}
    (h : Each IsOperation rest parts) (waiting : List (Tree × BinaryOp)) (cur : Tree) :
    (do let operands ← visitWaiting waiting
        let n ← cur.visit {}
        chainEnd span (← parts.foldlM chainPart (waiting.map Prod.snd, n :: operands)))
      = (Chain.resolveFrom waiting cur rest).visit {} := by
  -- the trees that wait and `cur` are visited first, so the operands on the stack are their nodes
  induction h generalizing waiting cur with
  | nil =>
    have hclose := congrArg (· >>= fun held => top span.start held.2)
      (reduceFrom_visit 0 waiting cur)
    simp only [bind_assoc, pure_bind, Chain.close_zero, visitWaiting, top_cons, bind_pure] at hclose
    simp [chainEnd, Chain.resolveFrom, hclose]
  | @cons x rest _ qs hfirst _ ih =>
    obtain ⟨o, q, rfl, ho, hq, hnext⟩ := hfirst
    obtain ⟨op, next⟩ := x
    have hclose := congrArg (· >>= fun held => do
      let n ← next.visit {}
      chainEnd span (← qs.foldlM chainPart (op :: held.1, n :: held.2)))
      (reduceFrom_visit op.precedence waiting cur)
    simp only [bind_assoc, pure_bind] at hclose
    have hrest := ih (((Chain.close op.precedence waiting cur).2, op)
      :: (Chain.close op.precedence waiting cur).1) next
    rw [Chain.resolveFrom, ← hrest]
    simp [chainPart, ho, hq, hnext.lowered, visitWaiting, hclose]

theorem isExpression_close (p : Nat) (waiting : List (Tree × BinaryOp)) {cur : Tree}
    (h : cur.form.isExpression = true) :
    (Chain.close p waiting cur).2.form.isExpression = true := by
  induction waiting generalizing cur with
  | nil => exact h
  | cons x waiting ih =>
    obtain ⟨lhs, op⟩ := x
    rw [Chain.close]
    split
    · exact ih rfl
    · exact h

theorem isExpression_resolveFrom {rest : List (BinaryOp × Tree)} {parts : List Part}
    (h : Each IsOperation rest parts) (waiting : List (Tree × BinaryOp)) {cur : Tree}
    (hcur : cur.form.isExpression = true) :
    (Chain.resolveFrom waiting cur rest).form.isExpression = true := by
  induction h generalizing waiting cur with
  | nil => exact isExpression_close 0 waiting hcur
  | cons hfirst _ ih =>
    obtain ⟨_, _, -, -, -, hnext⟩ := hfirst
    exact ih _ hnext.isExpression

theorem one_binary : OneExpr .binary binary := by
  have hunary : Lowers anyLabel unary (onePart fun t q => q.label = .unary ∧ IsExpr t q) :=
    One.lowers one_unary fun _ _ _ h => ⟨rfl, h⟩
  have hoperation : Lowers anyLabel (.seq binaryOp unary) IsOperation := by
    refine (oneOp_binaryOp.lowers.seq hunary).mono ?_
    rintro x _ ⟨_, _, rfl, ⟨o, rfl, ho⟩, q, rfl, hlabel, hq⟩
    exact ⟨o, q, rfl, ho, by rw [hlabel]; rfl, hq⟩
  refine OneExpr.labelled ((hunary.seq hoperation.many).map ?_)
  rintro ⟨first, rest⟩ _ ⟨_, qs, rfl, ⟨q, rfl, hlabel, hq⟩, hrest⟩
  refine ⟨fun span text => ?_, isExpression_resolveFrom hrest [] hq.isExpression⟩
  have hnone : q.label.binaryOp? = none := by rw [hlabel]; rfl
  show chain span (q :: qs) = (Chain.resolveFrom [] first rest).visit {}
  rw [← chain_visit span hrest]
  simp [chain, chainPart, hnone, hq.lowered, visitWaiting]

theorem one_conditional : OneExpr .conditional conditional := by
  refine OneExpr.rule ((one_binary.lowers rfl).seq ((Lowers.mark "?").right
    (lowers_assignment.seq ((Lowers.mark ":").right lowers_assignment))).opt) ?_
  rintro span ⟨cond, branches⟩ text _ ⟨_, rest, rfl, ⟨q, rfl, hq⟩, hrest⟩
  rcases hrest with ⟨rfl, rfl⟩ | ⟨⟨yes, no⟩, rfl, _, _, rfl, ⟨y, rfl, hy⟩, n, rfl, hn⟩
  · exact ⟨by simp [ofExpr, exprOr, hq.lowered], hq.isExpression⟩
  · refine ⟨?_, rfl⟩
    simp [ofExpr, exprOr, hq.lowered, hy.lowered, hn.lowered, Tree.visit, visitForm]

theorem one_assignmentBody : OneExpr .assignment assignmentBody := by
  refine OneExpr.rule ((one_conditional.lowers rfl).seq
    (oneOp_assignOp.lowers.seq lowers_assignment).opt) ?_
  rintro span ⟨lhs, tail⟩ text _ ⟨_, rest, rfl, ⟨q, rfl, hq⟩, hrest⟩
  rcases hrest with ⟨rfl, rfl⟩ | ⟨⟨op, rhs⟩, rfl, _, _, rfl, ⟨o, rfl, ho⟩, r, rfl, hr⟩
  · exact ⟨by simp [ofExpr, exprOr, hq.lowered], hq.isExpression⟩
  · exact ⟨by simp [ofExpr, exprOr, hq.lowered, ho, hr.lowered, Tree.visit, visitForm], rfl⟩

end ScriptTypes.Script.Syntax
