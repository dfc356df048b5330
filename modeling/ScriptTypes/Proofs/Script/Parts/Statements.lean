import ScriptTypes.Proofs.Script.Parts.Expressions

/-!
# The parts of statements

Every rule for statements has one part, which is lowered to the tree of the match. With the rules
for expressions this covers the grammar: the draft of a script is what a visit of its tree leaves.

Main statement: `lower?_eq_visit`.
-/

namespace ScriptTypes.Script

open Grammar.Peg (Shapes)

/-- Only lists of declarations depend on where they stand. -/
theorem visit_of_isExpression {t : Tree} (h : t.form.isExpression = true) (offer : Offer) :
    t.visit offer = t.visit {} := by
  obtain ⟨span, form⟩ := t
  cases form <;> first | rfl | cases h

namespace Syntax

open Lowering

/-- Every match is one part with this label, which is lowered to the statement of the match. -/
abbrev OneStatement (label : Label) (p : Expr Tree) : Prop :=
  One p fun _ t q => q.label = label ∧ IsStatement t q

/-- A labelled match with its span, from the parts inside it that are not keywords. -/
theorem OneStatement.rule {α : Type} {label : Label} {p : Expr α} {Q : α → List Part → Prop}
    {g : Span × α → Tree} (h : Lowers notKeyword p Q)
    (hstatement : ∀ span a text inner, Q a (significant inner) →
      ofStatement label span text inner = (g (span, a)).visit {}) :
    OneStatement label (.labelled label (.map g (.spanned p))) := by
  refine One.mono (One.rule h) ?_
  rintro span _ _ ⟨a, text, inner, rfl, rfl, ha⟩
  exact ⟨rfl, ⟨hstatement span a text inner ha⟩⟩

theorem lowers_expression : Lowers notKeyword expression (onePart IsExpr) :=
  one_expression.lowers rfl

/-! ### Declarations -/

theorem Lowers.kVar : Lowers notKeyword Syntax.kVar noPart := by
  have htakes := ((Takes.exactly (w := "var".toList) (by decide)).orElse
    ((Takes.exactly (w := "let".toList) (by decide)).orElse
      (Takes.exactly (w := "const".toList) (by decide)))).unlessNext Lexeme.isNameChar
  refine (one_token .kVar htakes.splits).skipped ?_
  rintro span cs _ rfl
  rfl

/-- A part that is lowered to a declaration, in front of others. -/
def IsDeclaration (t : Tree) (q : Part) : Prop :=
  ∀ (offer : Offer) (rest : List Part), offer.position ≠ .keyHead →
    declarations offer.block (q :: rest)
      = (do return (← t.visit offer) :: (← declarations none rest))

theorem claimDeclaration_of_ne {offer : Offer} (h : offer.position ≠ .keyHead) (start : Nat) :
    offer.claimDeclaration start = claim offer.block start := by
  unfold Offer.claimDeclaration
  split
  · contradiction
  · rfl

theorem one_declarator : One declarator fun _ t q => q.label = .declarator ∧ IsDeclaration t q := by
  have hname : Lowers anyLabel identifier (onePart fun s q => text q.text = s) :=
    one_identifier.lowers fun _ _ _ h => ⟨rfl, h.2⟩
  refine One.mono (One.rule (hname.seq ((Lowers.mark "=").right lowers_assignment).opt)) ?_
  rintro span _ _ ⟨⟨s, value⟩, text, inner, rfl, rfl, _, values, hinner, ⟨k, rfl, rfl⟩, hvalue⟩
  rw [kept_anyLabel] at hinner
  subst hinner
  refine ⟨rfl, fun offer rest hposition => ?_⟩
  rcases hvalue with ⟨rfl, rfl⟩ | ⟨t, rfl, q, rfl, hq⟩
  · simp [declarations, Part.of, Lowering.name, ifAny, Tree.visit, visitForm, visitOption,
      claimDeclaration_of_ne hposition]
  · simp [declarations, Part.of, Lowering.name, ifAny, Tree.visit, visitForm, visitOption,
      claimDeclaration_of_ne hposition, hq.lowered]

theorem declarations_eq {ts : List Tree} {parts : List Part}
    (h : List.Forall₂ IsDeclaration ts parts) (offer : Offer)
    (hposition : offer.position ≠ .keyHead) :
    declarations offer.block parts = visitDeclarations offer ts := by
  induction h generalizing offer with
  | nil => rfl
  | @cons t q ts parts hfirst _ ih =>
    have hrest := ih { offer with block := none } hposition
    rw [hfirst offer parts hposition, hrest]
    rfl

/-- A part that is lowered to a list of declarations, as a statement and in front of a loop. -/
structure IsVarList (t : Tree) (q : Part) : Prop where
  label : q.label = .varList
  statement : (do Lowering.varList (← take t.span.start) q) = t.visit {}
  head : Lowering.varList none q = t.visit { position := .loopHead }

theorem one_varList : One varList fun span t q => t.span = span ∧ IsVarList t q := by
  have hdeclarator : Lowers notKeyword declarator (onePart IsDeclaration) :=
    one_declarator.lowers fun _ _ q h => ⟨by rw [h.1]; rfl, h.2⟩
  refine One.mono (One.rule (Lowers.kVar.right hdeclarator.commaList)) ?_
  rintro span _ _ ⟨items, text, inner, rfl, rfl, -, hitems⟩
  have hall (offer : Offer) (hposition : offer.position ≠ .keyHead) :
      declarations offer.block (significant inner) = visitDeclarations offer items :=
    declarations_eq hitems offer hposition
  refine ⟨rfl, rfl, ?_, ?_⟩
  · have hstatement (docs : Option Doc.Block) := hall { block := docs } (by simp)
    simp [Lowering.varList, Part.of, Tree.visit, visitForm, Offer.claimList, hstatement, Tree.span]
  · have hhead := hall { position := .loopHead } (by simp)
    simp [Lowering.varList, Part.of, Tree.visit, visitForm, Offer.claimList, hhead]

theorem one_varStatement : OneStatement .varStatement varStatement := by
  refine One.mono (One.closed one_varList .semicolon) ?_
  rintro span t _ ⟨text, left, list, rfl, hstart, rfl, hlist⟩
  refine ⟨rfl, ⟨?_⟩⟩
  -- the statement and its list start at the same offset, where both ask for the comment
  show ofStatement .varStatement span text [list] = _
  rw [← hlist.statement, hstart]
  simp [ofStatement]

/-! ### Simple statements -/

theorem one_returnStatement : OneStatement .returnStatement returnStatement := by
  refine OneStatement.rule ((Lowers.keyword rfl).right (lowers_expression.opt.left .semicolon)) ?_
  rintro span value text inner (⟨rfl, hinner⟩ | ⟨t, rfl, q, hinner, hq⟩)
  · simp [ofStatement, hinner, ifAny, Tree.visit, visitForm, visitOption]
  · simp [ofStatement, hinner, ifAny, hq.lowered, Tree.visit, visitForm, visitOption]

theorem one_ifStatement : OneStatement .ifStatement ifStatement := by
  refine OneStatement.rule ((Lowers.keyword rfl).right (lowers_expression.inParens.seq
    (lowers_statement.seq ((Lowers.keyword rfl).right lowers_statement).opt))) ?_
  rintro span ⟨cond, yes, no⟩ text inner ⟨_, _, hinner, ⟨c, rfl, hc⟩, _, rest, rfl, ⟨y, rfl, hy⟩,
    ⟨rfl, rfl⟩ | ⟨t, rfl, n, rfl, hn⟩⟩
  · simp [ofStatement, hinner, exprOr, statementOr, ifAny, hc.lowered, hy.lowered, Tree.visit,
      visitForm, visitOption]
  · simp [ofStatement, hinner, exprOr, statementOr, ifAny, hc.lowered, hy.lowered, hn.lowered,
      Tree.visit, visitForm, visitOption]

theorem one_whileStatement : OneStatement .whileStatement whileStatement := by
  refine OneStatement.rule ((Lowers.keyword rfl).right
    (lowers_expression.inParens.seq lowers_statement)) ?_
  rintro span ⟨cond, body⟩ text inner ⟨_, _, hinner, ⟨c, rfl, hc⟩, b, rfl, hb⟩
  simp [ofStatement, hinner, exprOr, statementOr, hc.lowered, hb.lowered, Tree.visit, visitForm]

theorem one_doWhileStatement : OneStatement .doWhileStatement doWhileStatement := by
  refine OneStatement.rule ((Lowers.keyword rfl).right (lowers_statement.seq
    ((Lowers.keyword rfl).right (lowers_expression.inParens.left .semicolon)))) ?_
  rintro span ⟨body, cond⟩ text inner ⟨_, _, hinner, ⟨b, rfl, hb⟩, c, rfl, hc⟩
  simp [ofStatement, hinner, exprOr, statementOr, hc.lowered, hb.lowered, Tree.visit, visitForm]

theorem one_throwStatement : OneStatement .throwStatement throwStatement := by
  refine OneStatement.rule ((Lowers.keyword rfl).right (lowers_expression.left .semicolon)) ?_
  rintro span value text inner hvalue
  simp [ofStatement, exprOr_head hvalue, Tree.visit, visitForm]

theorem one_breakStatement : OneStatement .breakStatement breakStatement := by
  refine OneStatement.rule ((Lowers.keyword rfl).right .semicolon) ?_
  intro span _ text inner _
  simp [ofStatement, Tree.visit, visitForm]

theorem one_continueStatement : OneStatement .continueStatement continueStatement := by
  refine OneStatement.rule ((Lowers.keyword rfl).right .semicolon) ?_
  intro span _ text inner _
  simp [ofStatement, Tree.visit, visitForm]

theorem one_emptyStatement : OneStatement .emptyStatement emptyStatement := by
  refine OneStatement.rule (Lowers.mark ";") ?_
  intro span _ text inner _
  simp [ofStatement, Tree.visit, visitForm]

theorem one_expressionStatement : OneStatement .expressionStatement expressionStatement := by
  have hexpression : Lowers anyLabel expression (onePart IsExpr) := one_expression.lowers rfl
  refine One.mono (One.rule (hexpression.left .semicolon)) ?_
  rintro span _ _ ⟨e, text, inner, rfl, rfl, he⟩
  rw [kept_anyLabel] at he
  refine ⟨rfl, ⟨?_⟩⟩
  show ofStatement .expressionStatement span text inner = _
  simp [ofStatement, exprOr_head he, Tree.visit, visitForm]

/-! ### Handlers -/

theorem lowers_block :
    Lowers notKeyword block (onePart fun t q => q.label = .block ∧ IsStatement t q) :=
  (one_braced (.inl rfl)).lowers fun _ _ q h => ⟨by rw [h.1]; rfl, h⟩

/-- A part that fills a place of a `try` statement. -/
def IsTryPart (put : TryParts → Option NodeId → TryParts) (t : Tree) (q : Part) : Prop :=
  ∀ found, tryPart found q = (do return put found (some (← t.visit {})))

theorem lowers_catchClause : Lowers notKeyword catchClause
    (onePart (IsTryPart fun found n => { found with handler := n })) := by
  have hone : One catchClause fun _ t q => q.label = .catchClause ∧
      IsTryPart (fun found n => { found with handler := n }) t q := by
    refine One.mono (One.rule ((Lowers.keyword rfl).right
      (lowers_identifier.inParens.seq lowers_block))) ?_
    rintro span _ _ ⟨⟨s, body⟩, text, inner, rfl, rfl, _, _, hinner, ⟨k, rfl, -, rfl⟩, b, rfl, -,
      hb⟩
    have hparts : significant inner = [k, b] := hinner
    refine ⟨rfl, fun found => ?_⟩
    simp [tryPart, Part.of, hparts, Lowering.name, statementOr, hb.lowered, Tree.visit, visitForm]
  exact hone.lowers fun _ _ q h => ⟨by rw [h.1]; rfl, h.2⟩

theorem lowers_finallyClause : Lowers notKeyword finallyClause
    (onePart (IsTryPart fun found n => { found with final := n })) := by
  have hone : One finallyClause fun _ t q => q.label = .finallyClause ∧
      IsTryPart (fun found n => { found with final := n }) t q := by
    refine One.mono (One.labelled ((Lowers.keyword rfl).right lowers_block)) ?_
    rintro span t _ ⟨text, inner, rfl, b, hinner, -, hb⟩
    have hparts : significant inner = [b] := hinner
    refine ⟨rfl, fun found => ?_⟩
    simp [tryPart, Part.of, hparts, statementOr, hb.lowered]
  exact hone.lowers fun _ _ q h => ⟨by rw [h.1]; rfl, h.2⟩

/-- A part that may be missing leaves its place empty. -/
theorem foldlM_tryPart {put : TryParts → Option NodeId → TryParts} {o : Option Tree}
    {parts : List Part}
    (h : (o = none ∧ parts = []) ∨ ∃ t, o = some t ∧ onePart (IsTryPart put) t parts)
    (found : TryParts) (hput : put found none = found) :
    parts.foldlM tryPart found = (do return put found (← visitOption {} o)) := by
  rcases h with ⟨rfl, rfl⟩ | ⟨t, rfl, q, rfl, hq⟩
  · simp [visitOption, hput]
  · simp [visitOption, hq found]

theorem one_tryStatement : OneStatement .tryStatement tryStatement := by
  refine OneStatement.rule ((Lowers.keyword rfl).right
    (lowers_block.seq (lowers_catchClause.opt.seq lowers_finallyClause.opt))) ?_
  rintro span ⟨body, handler, final⟩ text inner ⟨_, _, hinner, ⟨b, rfl, hlabel, hb⟩, hs, fs, rfl,
    hhandler, hfinal⟩
  have hhandlers (n : NodeId) := foldlM_tryPart hhandler { block := some n } rfl
  have hfinals (n : NodeId) (handler : Option NodeId) :=
    foldlM_tryPart hfinal { block := some n, handler := handler } rfl
  simp [ofStatement, Lowering.tryStatement, hinner, List.foldlM_append, tryPart, hlabel, hb.lowered,
    hhandlers, hfinals, Tree.visit, visitForm]

/-! ### Loops -/

/-- The parts of a head are lowered to the loop over a body. -/
def IsHead (head : ForHead) (q : Part) : Prop :=
  ∀ span (body : NodeId), loop span body (some q) = match head with
    | .each binding object => do
      let binding ← binding.visit { position := .keyHead }
      add span (.forIn binding (← object.visit {}) body)
    | .counted init test update => do
      let init ← visitOption { position := .loopHead } init
      let test ← visitOption {} test
      let update ← visitOption {} update
      add span (.forLoop init test update body)

/-- Parts other than the word between a binding and an object. -/
def notIn : Label → Bool := fun label => label != .opIn

theorem one_varBinding : One varBinding fun _ t q => q.label = .varBinding ∧
    ∀ start, keyBinding start (some q) = t.visit { position := .keyHead } := by
  refine One.mono (One.rule (Lowers.kVar.right lowers_identifier)) ?_
  rintro span _ _ ⟨s, text, inner, rfl, rfl, k, hinner, -, rfl⟩
  have hparts : significant inner = [k] := hinner
  refine ⟨rfl, fun start => ?_⟩
  simp [keyBinding, Part.of, hparts, Lowering.name, Tree.visit, visitForm, visitDeclarations,
    visitOption, Offer.claimList, Offer.claimDeclaration]

theorem one_keyBinding : One (Grammar.Peg.oneOf varBinding [leftHandSide]) fun _ t q =>
    q.label ≠ .opIn ∧ ∀ start, keyBinding start (some q) = t.visit { position := .keyHead } := by
  refine One.oneOf ?_ (List.forall_mem_singleton.2 ?_)
  · refine One.mono one_varBinding ?_
    rintro span t q ⟨hlabel, hq⟩
    exact ⟨by rw [hlabel]; nofun, hq⟩
  · refine One.mono one_leftHandSide ?_
    rintro span t q ⟨hlabel, hq⟩
    refine ⟨by rw [hlabel]; nofun, fun start => ?_⟩
    rw [visit_of_isExpression hq.isExpression, ← hq.lowered]
    simp [keyBinding, hlabel]

theorem one_forInHead : One forInHead fun _ head q => q.label = .forInHead ∧ IsHead head q := by
  have hbinding : Lowers notIn (Grammar.Peg.oneOf varBinding [leftHandSide]) (onePart fun t q =>
      ∀ start, keyBinding start (some q) = t.visit { position := .keyHead }) :=
    one_keyBinding.lowers fun _ _ q h => ⟨by simp [notIn, h.1], h.2⟩
  have hword : Lowers notIn (keyword .opIn "in") noPart := by
    refine (one_token .opIn ((Grammar.Lexeme.Splits.exactly _).unlessNext _)).skipped ?_
    rintro span cs _ rfl
    rfl
  refine One.mono (One.labelled (Lowers.map (R := fun head parts => ∃ binding object b o,
    head = .each binding object ∧ parts = [b, o] ∧
      (∀ start, keyBinding start (some b) = binding.visit { position := .keyHead }) ∧
      IsExpr object o) (hbinding.seq (hword.right (one_expression.lowers rfl))) ?_)) ?_
  · rintro ⟨binding, object⟩ _ ⟨_, _, rfl, ⟨b, rfl, hb⟩, o, rfl, ho⟩
    exact ⟨binding, object, b, o, rfl, rfl, hb, ho⟩
  · rintro span _ _ ⟨text, inner, rfl, binding, object, b, o, rfl, hinner, hb, ho⟩
    have hparts : inner.filter (fun p => p.label != .opIn) = [b, o] := hinner
    refine ⟨rfl, fun span body => ?_⟩
    simp [loop, Part.of, hparts, hb, exprOr, ho.lowered]

/-- A part that fills a place in the head of a loop. -/
def IsLoopPart (put : LoopParts → Option NodeId → LoopParts) (offer : Offer) (o : Option Tree)
    (q : Part) : Prop :=
  ∀ found, put found none = found →
    loopPart found q = (do return put found (← visitOption offer o))

theorem lowers_loopPart (label : Label) (put : LoopParts → Option NodeId → LoopParts)
    {p : Expr Tree} {offer : Offer}
    (h : Lowers anyLabel p (onePart fun t q => loopChild q = t.visit offer))
    (hput : ∀ found span text child, loopPart found (.of label span text [child])
      = (do return put found (some (← loopChild child)))) :
    Lowers anyLabel (.labelled label (.opt p)) (onePart (IsLoopPart put offer)) := by
  refine One.lowers (One.labelled h.opt) ?_
  rintro span o _ ⟨text, inner, rfl, hinner⟩
  rw [kept_anyLabel] at hinner
  refine ⟨rfl, fun found hnone => ?_⟩
  rcases hinner with ⟨rfl, rfl⟩ | ⟨t, rfl, q, rfl, hq⟩
  · simp [loopPart, Part.of, visitOption, hnone]
  · simp [hput, hq, visitOption]

theorem one_forHead : One forHead fun _ head q => q.label = .forHead ∧ IsHead head q := by
  have hexpression (offer : Offer) : One expression fun _ t q => loopChild q = t.visit offer := by
    refine One.mono one_expression ?_
    rintro span t q ⟨hlabel, hq⟩
    rw [visit_of_isExpression hq.isExpression, ← hq.lowered]
    simp [loopChild, hlabel]
  have hvarList : One varList fun _ t q => loopChild q = t.visit { position := .loopHead } := by
    refine One.mono one_varList ?_
    rintro span t q ⟨-, hq⟩
    simp [loopChild, hq.label, hq.head]
  have hinit := lowers_loopPart .forInit (fun found n => { found with init := n })
    ((hvarList.oneOf (List.forall_mem_singleton.2 (hexpression _))).lowers fun _ _ _ h => ⟨rfl, h⟩)
    fun _ _ _ _ => by simp [loopPart, Part.of]
  have htest := lowers_loopPart .forTest (fun found n => { found with test := n })
    ((hexpression {}).lowers fun _ _ _ h => ⟨rfl, h⟩) fun _ _ _ _ => by simp [loopPart, Part.of]
  have hupdate := lowers_loopPart .forUpdate (fun found n => { found with update := n })
    ((hexpression {}).lowers fun _ _ _ h => ⟨rfl, h⟩) fun _ _ _ _ => by simp [loopPart, Part.of]
  refine One.mono (One.labelled (Lowers.map
    (R := fun head parts => ∀ span text, IsHead head (.of .forHead span text parts))
    ((hinit.left (.mark ";")).seq ((htest.left (.mark ";")).seq hupdate)) ?_)) ?_
  · rintro ⟨init, test, update⟩ _ ⟨_, _, rfl, ⟨i, rfl, hi⟩, _, _, rfl, ⟨t, rfl, ht⟩, u, rfl, hu⟩
    intro headSpan text span body
    have hfirst := hi {} rfl
    have hsecond (init : Option NodeId) := ht { init } rfl
    have hthird (init test : Option NodeId) := hu { init, test } rfl
    simp [loop, Part.of, hfirst, hsecond, hthird]
  · rintro span head _ ⟨text, inner, rfl, hinner⟩
    rw [kept_anyLabel] at hinner
    exact ⟨rfl, hinner span text⟩

theorem one_forStatement : OneStatement .forStatement forStatement := by
  have hhead : Lowers notKeyword (Grammar.Peg.oneOf forInHead [forHead]) (onePart IsHead) := by
    have hone : One (Grammar.Peg.oneOf forInHead [forHead]) fun _ head q =>
        q.label.isKeyword = false ∧ IsHead head q :=
      One.oneOf (one_forInHead.mono fun _ _ q h => ⟨by rw [h.1]; rfl, h.2⟩)
        (List.forall_mem_singleton.2 (one_forHead.mono fun _ _ q h => ⟨by rw [h.1]; rfl, h.2⟩))
    exact hone.lowers fun _ _ q h => ⟨by simp [notKeyword, h.1], h.2⟩
  refine OneStatement.rule ((Lowers.keyword rfl).right (hhead.inParens.seq lowers_statement)) ?_
  rintro span ⟨head, body⟩ text inner ⟨_, _, hinner, ⟨h, rfl, hh⟩, b, rfl, hb⟩
  have hloop (n : NodeId) := hh span n
  cases head with
  | each binding object =>
    simp [ofStatement, Lowering.forStatement, hinner, statementOr, hb.lowered, hloop, Tree.visit,
      visitForm]
  | counted init test update =>
    simp [ofStatement, Lowering.forStatement, hinner, statementOr, hb.lowered, hloop, Tree.visit,
      visitForm]

/-! ### Whole texts -/

theorem one_statementBody :
    One statementBody fun _ t q => q.label.isKeyword = false ∧ IsStatement t q := by
  have hrule {label : Label} {p : Expr Tree} (h : OneStatement label p)
      (hlabel : label.isKeyword = false) :
      One p fun _ t q => q.label.isKeyword = false ∧ IsStatement t q :=
    h.mono fun _ _ _ hq => ⟨hq.1 ▸ hlabel, hq.2⟩
  refine One.oneOf (hrule (one_braced (.inl rfl)) rfl) ?_
  simp only [List.forall_mem_cons, List.not_mem_nil, false_implies, implies_true, and_true]
  exact ⟨hrule one_varStatement rfl, hrule one_functionDeclaration rfl,
    hrule one_returnStatement rfl, hrule one_ifStatement rfl, hrule one_forStatement rfl,
    hrule one_whileStatement rfl, hrule one_doWhileStatement rfl, hrule one_throwStatement rfl,
    hrule one_tryStatement rfl, hrule one_breakStatement rfl, hrule one_continueStatement rfl,
    hrule one_emptyStatement rfl, hrule one_expressionStatement rfl⟩

theorem shapes_body (rule : Rule) : (rules.body rule).Shapes ruleShape (ruleShape rule) := by
  cases rule with
  | statement => exact one_statementBody
  | assignment => exact one_assignmentBody
  | newExpression => exact one_newExpression

/-- The statements of a text are lowered to its tree. -/
theorem one_program : One program fun _ items q =>
    (significant q.inner).mapM Part.statement = visitAll items := by
  have hend : Lowers notKeyword endOfInput noPart := by
    refine (one_token .endOfInput .atEnd).skipped ?_
    rintro span cs _ rfl
    rfl
  refine One.mono (One.labelled ((Lowers.lexeme _).right (lowers_statement.many.left hend))) ?_
  rintro span items _ ⟨text, inner, rfl, hitems⟩
  exact mapM_eq_visitAll (hitems.forall₂.imp fun _ _ hq => hq.lowered)

end Syntax

/-- The draft of a script is what a visit of its tree leaves. -/
theorem lower?_eq_visit {cs : List Char} {t : Tree} (h : parse cs = .ok t) :
    lower? cs = some ((t.visit {}).run { pending := DocComments.scan cs }) := by
  obtain ⟨items, c, f, hparse, rfl⟩ := parseText_of_parse h
  obtain ⟨ps, htrace⟩ := rules.exists_traceText .pairs hparse
  have hpairs : pairs? cs = some ps := by rw [pairs?, htrace]; rfl
  have hcalls := Grammar.Rules.shapes_trace Syntax.shapes_body (cs.length + 1) (callDepth cs)
  obtain ⟨q, hq, hitems⟩ := Syntax.one_program _ _ _ hcalls _ _ _ _ htrace
  cases ps with
  | nil => cases hq
  | cons p ps =>
    obtain ⟨rfl, -⟩ := List.cons.inj hq
    rw [lower?, hpairs, Tree.visit, visitForm, ← hitems]
    simp [Lowering.program]

end ScriptTypes.Script
