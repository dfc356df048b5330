import ScriptTypes.Proofs.Script.Lays

/-!
# Scripts parse into well-formed trees

Main statement: `formed_of_parse`.
-/

namespace ScriptTypes.Script

namespace Syntax

open Grammar (Condition Lexeme)
open Grammar.Peg (Yields)

/-! ### Building blocks -/

section Blocks

variable {α : Type} {w : Nat} {p : Expr α} {parts : α → List (Place × Tree)} {good : α → Prop}

theorem lays_mark {s : String} (h : s.toList ≠ []) : Lays 1 (mark s) noParts any :=
  .lexeme (.exactly h) fun _ _ _ _ => trivial

theorem lays_token (label : Label) {lex : Lexeme} (h : Takes lex) :
    Lays 1 (token label lex) noParts any :=
  (Lays.lexeme h fun _ _ _ _ => trivial).labelled label

theorem lays_keyword (label : Label) {s : String} (h : s.toList ≠ []) :
    Lays 1 (keyword label s) noParts any :=
  lays_token label (.word h)

theorem lays_means (label : Label) {lex : Lexeme} (h : Takes lex) (a : α) :
    Lays 1 (means label lex a) noParts any :=
  (lays_token label h).same (fun _ => rfl) fun _ _ => trivial

theorem lays_meansMark (label : Label) {s : String} (h : s.toList ≠ []) (a : α) :
    Lays 1 (meansMark label s a) noParts any :=
  lays_means label (.exactly h) a

theorem lays_meansUnless (label : Label) {s : String} (h : s.toList ≠ []) (next : String) (a : α) :
    Lays 1 (meansUnless label s next a) noParts any :=
  lays_means label ((Takes.exactly h).unlessNext _) a

/-- Text that may be missing. -/
theorem Lays.optText (h : Lays w p noParts good) : Lays 0 (.opt p) noParts any :=
  Yields.mono h.opt fun _ _ _ ho => ⟨.nil ho.1.le, trivial⟩

theorem lays_semicolon : Lays 0 semicolon noParts any := (lays_mark (by decide)).optText

theorem Lays.inParens (h : Lays w p parts good) : Lays (1 + w) (Syntax.inParens p) parts good :=
  (lays_mark (by decide)).right (h.left (lays_mark (by decide)))

theorem Lays.commaList (h : Lays w p parts good) :
    Lays w (Syntax.commaList p) (fun as => as.flatMap parts)
      fun as => as ≠ [] ∧ ∀ a ∈ as, good a :=
  (h.seq ((lays_mark (by decide)).right h).many).same (fun _ => rfl)
    fun _ ha => ⟨List.cons_ne_nil _ _, List.forall_mem_cons.2 ha⟩

/-- A list with commas that may be missing. -/
theorem Lays.optCommaList (h : Lays w p parts good) :
    Lays 0 (.map (·.getD []) (.opt (Syntax.commaList p))) (fun as => as.flatMap parts)
      fun as => ∀ a ∈ as, good a := by
  refine h.commaList.opt.same ?_ ?_
  · rintro (_ | as)
    · rfl
    · simp
  · rintro (_ | as) hgood
    · simp
    · exact (hgood as rfl).2

theorem lays_identifier : Lays 1 identifier noParts IsName := by
  have htoken : Lays 1 (token .identifier Lexeme.identifier) noParts fun cs => IsName (text cs) :=
    (Lays.lexeme .identifier fun _ _ _ => isName_of_identifier).labelled _
  exact htoken.same (fun _ => rfl) fun _ h => h

theorem lays_propertyName : Lays 1 propertyName noParts IsName := by
  have htoken : Lays 1 (token .propertyName Lexeme.propertyName) noParts
      fun cs => IsName (text cs) :=
    (Lays.lexeme .propertyName fun _ _ _ => isName_of_propertyName).labelled _
  exact htoken.same (fun _ => rfl) fun _ h => h

theorem flatMap_whole (place : Place) (ts : List Tree) :
    ts.flatMap (whole place) = ts.map fun t => (place, t) :=
  List.flatMap_pure_eq_map _ _

/-- A list of trees at one place. -/
theorem Lays.listed {p : Expr (List Tree)} {place : Place} {good : List Tree → Prop}
    (h : Lays w p (fun ts => ts.flatMap (whole place)) good) :
    Lays w p (fun ts => ts.map fun t => (place, t)) good := by
  have hparts : (fun ts : List Tree => ts.flatMap (whole place))
      = fun ts => ts.map fun t => (place, t) := funext (flatMap_whole place)
  exact hparts ▸ h

theorem lays_statement : Lays 0 statement (whole .statement) any :=
  Yields.mono (Yields.call Rule.statement) fun _ _ _ h => ⟨h, trivial⟩

theorem lays_assignment : Lays 0 assignment (whole .operand) any :=
  Yields.mono (Yields.call Rule.assignment) fun _ _ _ h => ⟨h, trivial⟩

end Blocks

/-! ### Expressions -/

/-- A lexeme that is a construct without children. -/
theorem lays_leaf {label : Label} {lex : Lexeme} {form : List Char → Form Tree} {place : Place}
    (h : Takes lex) (hform : ∀ cs taken rest, lex cs = some (taken, rest) →
      (form taken).parts = [] ∧ (form taken).Named ∧
        place.admits (form taken) = true) :
    Lays 0 (leaf label lex form) (whole place) any :=
  (Lays.lexeme h hform).construct (fun _ h => h) (.inl (by decide))

theorem isExpression_of_isOperand {f : Form Tree} (h : f.isOperand = true) :
    f.isExpression = true := by
  cases f <;> first | exact h | cases h

theorem lays_expression : Lays 0 expression (whole .expression) any := by
  refine Lays.labelled _ (Yields.map (Yields.spanned lays_assignment.commaList) ?_)
  rintro start ⟨span, items⟩ stop ⟨rfl, hrow, hne, -⟩
  refine ⟨?_, trivial⟩
  change Row (start + 0) (items.flatMap (whole .operand)) stop at hrow
  match items with
  | [e] => exact hrow.relax isExpression_of_isOperand
  | a :: b :: items =>
    have hspan : start < stop := hrow.lt (by simp [whole])
    rw [flatMap_whole] at hrow
    exact Row.single hrow trivial rfl (Nat.le_refl _) hspan (Nat.le_refl _)

theorem lays_group : Lays 0 group (whole .operand) any :=
  lays_expression.inParens.construct (fun _ _ => ⟨rfl, trivial, rfl⟩)
    (.inl (by decide))

theorem Lays.items {p : Expr Tree} {place : Place} (h : Lays 0 p (whole place) any) :
    Lays 0 (Syntax.items p) (fun ts => ts.map fun t => (place, t)) fun ts => ∀ t ∈ ts, any t :=
  h.optCommaList.listed.left (lays_mark (by decide)).optText

theorem lays_arrayLit : Lays 0 arrayLit (whole .operand) any :=
  ((lays_mark (by decide)).right (lays_assignment.items.left (lays_mark (by decide)))).construct
    (fun _ _ => ⟨rfl, trivial, rfl⟩) (.inl (by decide))

theorem lays_propertyKey : Lays 1 propertyKey noParts any := by
  refine Lays.oneOf ((lays_token _ .string).same (fun _ => rfl) fun _ _ => trivial) ?_
  refine List.forall_mem_cons.2 ⟨?_, List.forall_mem_singleton.2 ?_⟩
  · exact (lays_token _ .number).same (fun _ => rfl) fun _ _ => trivial
  · exact Yields.mono lays_propertyName fun _ _ _ h => ⟨h.1, trivial⟩

theorem lays_property : Lays 0 property (whole .pair) any := by
  refine (lays_propertyKey.seq ((lays_mark (by decide)).right lays_assignment)).construct ?_
    (.inl (by decide))
  rintro ⟨key, value⟩ -
  exact ⟨rfl, trivial, rfl⟩

theorem lays_objectLit : Lays 0 objectLit (whole .operand) any :=
  ((lays_mark (by decide)).right (lays_property.items.left (lays_mark (by decide)))).construct
    (fun _ _ => ⟨rfl, trivial, rfl⟩) (.inl (by decide))

theorem lays_name {place : Place} (h : place = .operand ∨ place = .name) :
    Lays 0 name (whole place) any := by
  refine lays_leaf .identifier fun cs taken rest hlex => ?_
  refine ⟨rfl, isName_of_identifier hlex, ?_⟩
  rcases h with rfl | rfl <;> rfl

theorem lays_parameters : Lays 0 parameters (whole .parameters) any := by
  refine (lays_name (.inr rfl)).optCommaList.listed.inParens.construct ?_ (.inl (by decide))
  exact fun _ _ => ⟨rfl, trivial, rfl⟩

theorem lays_braced (label : Label) {place : Place} (h : place = .block ∨ place = .statement) :
    Lays 0 (braced label) (whole place) any := by
  refine ((lays_mark (by decide)).right
    (lays_statement.many.listed.left (lays_mark (by decide)))).construct ?_ (.inl (by decide))
  intro ts _
  refine ⟨rfl, trivial, ?_⟩
  rcases h with rfl | rfl <;> rfl

theorem lays_block : Lays 0 block (whole .block) any := lays_braced _ (.inl rfl)

theorem lays_functionExpression : Lays 0 functionExpression (whole .operand) any := by
  refine ((lays_keyword _ (by decide)).right (lays_identifier.opt.seq
    (lays_parameters.seq (lays_braced _ (.inl rfl))))).construct ?_ (.inl (by decide))
  rintro ⟨name, params, body⟩ ⟨hname, -⟩
  cases name with
  | none => exact ⟨rfl, trivial, rfl⟩
  | some name => exact ⟨rfl, hname name rfl, rfl⟩

theorem lays_primary : Lays 0 primary (whole .operand) any := by
  refine Lays.oneOf lays_functionExpression ?_
  simp only [List.forall_mem_cons, List.not_mem_nil, false_implies, implies_true, and_true]
  refine ⟨?_, ?_, ?_, ?_, ?_, ?_, ?_, lays_arrayLit, lays_objectLit, lays_group,
    lays_name (.inl rfl)⟩
  · exact lays_leaf (.word (by decide)) fun _ _ _ _ => ⟨rfl, trivial, rfl⟩
  · exact lays_leaf (.word (by decide)) fun _ _ _ _ => ⟨rfl, trivial, rfl⟩
  · refine lays_leaf ?_ fun _ _ _ _ => ⟨rfl, trivial, rfl⟩
    exact ((Takes.exactly (by decide)).orElse (.exactly (by decide))).unlessNext _
  · exact lays_leaf .number fun _ _ _ _ => ⟨rfl, trivial, rfl⟩
  · exact lays_leaf .string fun _ _ _ _ => ⟨rfl, trivial, rfl⟩
  · exact lays_leaf (.between _ _) fun _ _ _ _ => ⟨rfl, trivial, rfl⟩
  · exact lays_leaf .regex fun _ _ _ _ => ⟨rfl, trivial, rfl⟩

/-! ### Accessors -/

namespace Accessor

def parts : Accessor → List (Place × Tree)
  | member _ => []
  | element index => [(.expression, index)]
  | arguments args => args.map fun t => (.operand, t)

def Named : Accessor → Prop
  | member property => IsName property
  | _ => True

end Accessor

theorem lays_memberAccess : Lays 1 memberAccess Accessor.parts Accessor.Named := by
  have hproperty : Lays 2 (.right (mark ".") propertyName) noParts IsName :=
    (lays_mark (by decide)).right lays_propertyName
  exact .labelled _ ((hproperty.weaken (by decide)).same (fun _ => rfl) fun _ h => h)

theorem lays_elementAccess : Lays 1 elementAccess Accessor.parts Accessor.Named := by
  have hindex : Lays 1 (.right (mark "[") (.left expression (mark "]"))) (whole .expression) any :=
    (lays_mark (by decide)).right (lays_expression.left (lays_mark (by decide)))
  exact .labelled _ (hindex.same (fun _ => rfl) fun _ _ => trivial)

theorem lays_arguments :
    Lays 1 arguments (fun ts => ts.map fun t => (.operand, t)) fun ts => ∀ t ∈ ts, any t :=
  .labelled _ lays_assignment.optCommaList.listed.inParens

theorem lays_callAccess : Lays 1 (.map .arguments arguments) Accessor.parts Accessor.Named :=
  lays_arguments.same (fun _ => rfl) fun _ _ => trivial

/-- An accessor behind an operand makes an operand. -/
theorem row_access {start left : Nat} {operand : Tree} {span : Span} {accessor : Accessor}
    (h : Row start [(.operand, operand)] left) (hle : left ≤ span.start)
    (hrow : Row (span.start + 1) accessor.parts span.stop) (hnamed : accessor.Named) :
    Row start [(.operand, access start operand (span, accessor))] span.stop := by
  have hall : Row start ((.operand, operand) :: accessor.parts) span.stop :=
    h.append (hrow.widen (by omega) (Nat.le_refl _))
  have hspan : start < span.stop := hall.lt (by simp)
  cases accessor with
  | member property => exact Row.single hall hnamed rfl (Nat.le_refl _) hspan (Nat.le_refl _)
  | element index => exact Row.single hall trivial rfl (Nat.le_refl _) hspan (Nat.le_refl _)
  | arguments args => exact Row.single hall trivial rfl (Nat.le_refl _) hspan (Nat.le_refl _)

theorem row_foldl_access {start left stop : Nat} {operand : Tree}
    {accessors : List (Span × Accessor)} (h : Row start [(.operand, operand)] left)
    (heach : Condition.each (fun start x stop => x.1 = ⟨start, stop⟩ ∧
      Row (start + 1) x.2.parts stop ∧ x.2.Named) left accessors stop) :
    Row start [(.operand, accessors.foldl (access start) operand)] stop := by
  induction accessors generalizing operand left with
  | nil => exact h.widen (Nat.le_refl _) heach
  | cons x accessors ih =>
    obtain ⟨first, last, hle, ⟨hx, hrow, hnamed⟩, hrest⟩ := heach
    obtain ⟨span, accessor⟩ := x
    obtain rfl : span = ⟨first, last⟩ := hx
    exact ih (row_access h hle hrow hnamed) hrest

theorem lays_accessed (label : Label) {accessor : Expr Accessor}
    (h : Lays 1 accessor Accessor.parts Accessor.Named) :
    Lays 0 (accessed label accessor) (whole .operand) any := by
  have hoperand : Lays 0 (Grammar.Peg.oneOf (.call .newExpression) [primary]) (whole .operand) any :=
    Lays.oneOf (Yields.mono (Yields.call Rule.newExpression) fun _ _ _ h => ⟨h, trivial⟩)
      (List.forall_mem_singleton.2 lays_primary)
  refine Lays.labelled _
    (Yields.map (Yields.spanned (Yields.seq hoperand (Yields.many (Yields.spanned h)))) ?_)
  rintro start ⟨span, operand, accessors⟩ stop ⟨rfl, left, right, ⟨hrow, -⟩, hle, heach⟩
  refine ⟨row_foldl_access (hrow.widen (Nat.le_refl _) hle) heach, trivial⟩

theorem lays_newCallee : Lays 0 newCallee (whole .operand) any :=
  lays_accessed _ (lays_memberAccess.oneOf (List.forall_mem_singleton.2 lays_elementAccess))

theorem lays_leftHandSide : Lays 0 leftHandSide (whole .operand) any :=
  lays_accessed _ (lays_memberAccess.oneOf
    (List.forall_mem_cons.2 ⟨lays_elementAccess, List.forall_mem_singleton.2 lays_callAccess⟩))

theorem lays_newExpression : Lays 0 newExpression (whole .operand) any := by
  refine ((lays_keyword _ (by decide)).right (lays_newCallee.seq lays_arguments.opt)).construct ?_
    (.inl (by decide))
  rintro ⟨callee, args⟩ -
  refine ⟨?_, trivial, rfl⟩
  cases args <;> simp [Form.parts, whole]

/-! ### Operators -/

theorem lays_updateOp : Lays 1 updateOp noParts any :=
  (lays_meansMark _ (by decide) _).oneOf (List.forall_mem_singleton.2 (lays_meansMark _ (by decide) _))

theorem lays_postfixed : Lays 0 postfixed (whole .operand) any := by
  refine Lays.labelled _
    (Yields.map (Yields.spanned (lays_leftHandSide.seq lays_updateOp.optText)) ?_)
  rintro start ⟨span, operand, op⟩ stop ⟨rfl, hrow, -⟩
  refine ⟨?_, trivial⟩
  change Row (start + 0) ([(.operand, operand)] ++ []) stop at hrow
  cases op with
  | none => exact hrow
  | some op =>
    exact Row.single hrow trivial rfl (Nat.le_refl _) (hrow.lt (by simp)) (Nat.le_refl _)

theorem lays_unaryOp : Lays 1 unaryOp noParts any := by
  refine Lays.oneOf (lays_means _ (.word (by decide)) _) ?_
  simp only [List.forall_mem_cons, List.not_mem_nil, false_implies, implies_true, and_true]
  refine ⟨lays_means _ (.word (by decide)) _, lays_means _ (.word (by decide)) _, ?_⟩
  refine ⟨?_, ?_, ?_, ?_, ?_, ?_⟩ <;> exact lays_meansMark _ (by decide) _

theorem span_applyUnary (ops : List (Span × UnaryOp)) (operand : Tree) :
    (applyUnary ops operand).span.stop = operand.span.stop := by
  cases ops <;> rfl

/-- Operators in front of an operand make an operand. -/
theorem row_applyUnary {start left stop : Nat} {ops : List (Span × UnaryOp)} {operand : Tree}
    (heach : Condition.each (fun start x stop => x.1 = ⟨start, stop⟩ ∧
      Row (start + 1) [] stop ∧ any x.2) start ops left)
    (h : Row left [(.operand, operand)] stop) :
    Row start [(.operand, applyUnary ops operand)] stop := by
  induction ops generalizing start with
  | nil => exact h.widen heach (Nat.le_refl _)
  | cons x ops ih =>
    obtain ⟨first, last, hle, ⟨hx, hop, -⟩, hrest⟩ := heach
    obtain ⟨span, op⟩ := x
    obtain rfl : span = ⟨first, last⟩ := hx
    obtain ⟨hformed, hplace, hstart, hspan, hstop⟩ := Row.cons_iff.1 (ih hrest)
    rw [span_applyUnary] at hspan hstop
    have hlast := hop.le
    refine Row.single ?_ trivial rfl hle ?_ hstop.le
    · refine Row.cons_iff.2 ⟨hformed, hplace, Nat.le_trans hlast hstart, ?_, .nil ?_⟩
      · exact hspan.trans_eq (span_applyUnary ops operand).symm
      · exact Nat.le_of_eq (span_applyUnary ops operand)
    · show first < operand.span.stop
      omega

theorem lays_unary : Lays 0 unary (whole .operand) any := by
  refine Lays.labelled _ (Yields.map (Yields.seq (Yields.many (Yields.spanned lays_unaryOp))
    lays_postfixed) ?_)
  rintro start ⟨ops, operand⟩ stop ⟨left, right, heach, hle, hrow, -⟩
  exact ⟨row_applyUnary heach (hrow.widen hle (Nat.le_refl _)), trivial⟩

theorem lays_binaryOp : Lays 1 binaryOp noParts any := by
  refine Lays.oneOf (lays_meansMark _ (by decide) _) ?_
  simp only [List.forall_mem_cons, List.not_mem_nil, false_implies, implies_true, and_true]
  refine ⟨?_, ?_, ?_, ?_, ?_, ?_, ?_, ?_, ?_, ?_, ?_, ?_, ?_, ?_, ?_, ?_, ?_, ?_, ?_, ?_, ?_, ?_⟩
  all_goals
    first
    | exact lays_meansMark _ (by decide) _
    | exact lays_meansUnless _ (by decide) _ _
    | exact lays_means _ (.word (by decide)) _

theorem lays_assignOp : Lays 1 assignOp noParts any := by
  refine Lays.oneOf (lays_meansUnless _ (by decide) _ _) ?_
  simp only [List.forall_mem_cons, List.not_mem_nil, false_implies, implies_true, and_true]
  refine ⟨?_, ?_, ?_, ?_, ?_, ?_, ?_, ?_, ?_, ?_, ?_⟩
  all_goals exact lays_meansMark _ (by decide) _

end Syntax

/-! ### Chains of operators -/

namespace Chain

/-- Operands in a row. -/
def operands (ts : List Tree) : List (Place × Tree) := ts.map fun t => (.operand, t)

theorem operands_append (ts us : List Tree) : operands (ts ++ us) = operands ts ++ operands us :=
  List.map_append

theorem row_join {start stop : Nat} {op : BinaryOp} {lhs rhs : Tree}
    (h : Row start (operands [lhs, rhs]) stop) : Row start (operands [join op lhs rhs]) stop := by
  obtain ⟨hformed, hplace, hstart, hlhs, hrest⟩ := Row.cons_iff.1 h
  obtain ⟨hformed', hplace', hbetween, hrhs, hstop⟩ := Row.cons_iff.1 hrest
  refine Row.single ?_ trivial rfl hstart ?_ hstop.le
  · exact Row.cons_iff.2 ⟨hformed, hplace, Nat.le_refl _, hlhs,
      Row.cons_iff.2 ⟨hformed', hplace', hbetween, hrhs, .nil (Nat.le_refl _)⟩⟩
  · show lhs.span.start < rhs.span.stop
    omega

/-- The operands of a chain that are waiting, in the order of the text. -/
def left (waiting : List (Tree × BinaryOp)) : List Tree := (waiting.map Prod.fst).reverse

theorem row_close {start stop : Nat} (p : Nat) (waiting : List (Tree × BinaryOp)) (cur : Tree)
    (h : Row start (operands (left waiting ++ [cur])) stop) :
    Row start (operands (left (close p waiting cur).1 ++ [(close p waiting cur).2])) stop := by
  induction waiting generalizing cur with
  | nil => exact h
  | cons x waiting ih =>
    obtain ⟨lhs, op⟩ := x
    rw [close]
    split
    · apply ih
      have hleft : left ((lhs, op) :: waiting) ++ [cur] = left waiting ++ [lhs, cur] := by
        simp [left]
      rw [hleft, operands_append] at h
      obtain ⟨middle, hwaiting, hpair⟩ := Row.append_iff.1 h
      rw [operands_append]
      exact hwaiting.append (row_join hpair)
    · exact h

/-- Nothing is left waiting below the least precedence. -/
theorem close_zero (waiting : List (Tree × BinaryOp)) (cur : Tree) : (close 0 waiting cur).1 = [] := by
  induction waiting generalizing cur with
  | nil => rfl
  | cons x waiting ih =>
    rw [close, if_pos (Nat.zero_le _)]
    exact ih _

theorem row_resolveFrom {start stop : Nat} (waiting : List (Tree × BinaryOp)) (cur : Tree)
    (rest : List (BinaryOp × Tree))
    (h : Row start (operands (left waiting ++ cur :: rest.map Prod.snd)) stop) :
    Row start (operands [resolveFrom waiting cur rest]) stop := by
  induction rest generalizing waiting cur with
  | nil =>
    have hclosed := row_close 0 waiting cur h
    rw [close_zero] at hclosed
    exact hclosed
  | cons x rest ih =>
    obtain ⟨op, next⟩ := x
    have hsplit : left waiting ++ cur :: ((op, next) :: rest).map Prod.snd
        = (left waiting ++ [cur]) ++ (next :: rest.map Prod.snd) := by simp
    rw [hsplit, operands_append] at h
    obtain ⟨middle, hleft, hright⟩ := Row.append_iff.1 h
    have hclosed := (row_close op.precedence waiting cur hleft).append hright
    rw [resolveFrom]
    apply ih
    simpa [left, operands] using hclosed

end Chain

namespace Syntax

open Grammar.Peg (Yields)

theorem lays_binary : Lays 0 binary (whole .operand) any := by
  refine Lays.labelled _ ((lays_unary.seq (lays_binaryOp.seq lays_unary).many).map ?_)
  rintro start ⟨first, rest⟩ stop hrow -
  refine ⟨Chain.row_resolveFrom [] first rest ?_, trivial⟩
  have hparts : rest.flatMap (fun x => noParts x.1 ++ whole .operand x.2)
      = Chain.operands (rest.map Prod.snd) := by
    simp only [Chain.operands, List.map_map]
    exact List.flatMap_pure_eq_map _ _
  change Row start ([(.operand, first)] ++ rest.flatMap _) stop at hrow
  rw [hparts] at hrow
  exact hrow

theorem lays_conditional : Lays 0 conditional (whole .operand) any := by
  refine Lays.labelled _ (Yields.map (Yields.spanned (lays_binary.seq ((lays_mark (by decide)).right
    (lays_assignment.seq ((lays_mark (by decide)).right lays_assignment))).opt)) ?_)
  rintro start ⟨span, cond, branches⟩ stop ⟨rfl, hrow, -⟩
  refine ⟨?_, trivial⟩
  match branches with
  | none => exact hrow
  | some (yes, no) =>
    exact Row.single hrow trivial rfl (Nat.le_refl _) (hrow.lt (by simp [whole])) (Nat.le_refl _)

theorem lays_assignmentBody : Lays 0 assignmentBody (whole .operand) any := by
  refine Lays.labelled _ (Yields.map
    (Yields.spanned (lays_conditional.seq (lays_assignOp.seq lays_assignment).opt)) ?_)
  rintro start ⟨span, lhs, tail⟩ stop ⟨rfl, hrow, -⟩
  refine ⟨?_, trivial⟩
  match tail with
  | none => exact hrow
  | some (op, rhs) =>
    exact Row.single hrow trivial rfl (Nat.le_refl _) (hrow.lt (by simp [whole])) (Nat.le_refl _)

/-! ### Statements -/

theorem lays_kVar : Lays 1 kVar noParts any := by
  refine lays_token _ (Takes.unlessNext ?_ _)
  exact (Takes.exactly (by decide)).orElse ((Takes.exactly (by decide)).orElse (.exactly (by decide)))

theorem lays_declarator : Lays 0 declarator (whole .declaration) any := by
  refine (lays_identifier.seq ((lays_mark (by decide)).right lays_assignment).opt).construct ?_
    (.inl (by decide))
  rintro ⟨name, value⟩ ⟨hname, -⟩
  exact ⟨(flatMap_whole .operand _).symm, hname, rfl⟩

theorem lays_varList {place : Place} (h : place = .statement ∨ place = .loopHead) :
    Lays 0 varList (whole place) any := by
  refine (lays_kVar.right lays_declarator.commaList.listed).construct ?_ (.inl (by decide))
  intro ts _
  refine ⟨rfl, trivial, ?_⟩
  rcases h with rfl | rfl <;> rfl

theorem lays_functionDeclaration : Lays 0 functionDeclaration (whole .statement) any := by
  refine ((lays_keyword _ (by decide)).right (lays_identifier.seq
    (lays_parameters.seq (lays_braced _ (.inl rfl))))).construct ?_ (.inl (by decide))
  rintro ⟨name, params, body⟩ ⟨hname, -⟩
  exact ⟨rfl, hname, rfl⟩

theorem lays_returnStatement : Lays 0 returnStatement (whole .statement) any := by
  refine ((lays_keyword _ (by decide)).right (lays_expression.opt.left lays_semicolon)).construct ?_
    (.inl (by decide))
  exact fun value _ => ⟨(flatMap_whole .expression _).symm, trivial, rfl⟩

theorem lays_ifStatement : Lays 0 ifStatement (whole .statement) any := by
  refine ((lays_keyword _ (by decide)).right (lays_expression.inParens.seq
    (lays_statement.seq ((lays_keyword _ (by decide)).right lays_statement).opt))).construct ?_
      (.inl (by decide))
  rintro ⟨cond, yes, no⟩ -
  exact ⟨by simp [Form.parts, flatMap_whole, whole], trivial, rfl⟩

namespace ForHead

def parts : ForHead → List (Place × Tree)
  | each binding object => [(.keyHead, binding), (.expression, object)]
  | counted init test update =>
    init.toList.map (fun t => (.loopHead, t)) ++ test.toList.map (fun t => (.expression, t))
      ++ update.toList.map fun t => (.expression, t)

end ForHead

theorem admits_loopHead {f : Form Tree} (h : f.isExpression = true) :
    Place.loopHead.admits f = true := by
  cases f <;> first | exact h | cases h

theorem admits_keyHead {f : Form Tree} (h : f.isOperand = true) : Place.keyHead.admits f = true := by
  cases f <;> first | exact h | cases h

theorem lays_varBinding : Lays 0 varBinding (whole .keyHead) any := by
  refine Lays.labelled _ (Yields.map (Yields.spanned (lays_kVar.right lays_identifier)) ?_)
  rintro start ⟨span, name⟩ stop ⟨rfl, hrow, hname⟩
  have hspan : start < stop := by
    have := hrow.le
    omega
  have hdeclaration : Row start [(.declaration, .node ⟨start, stop⟩ (.declaration name none none))]
      stop :=
    Row.single (.nil hspan) hname rfl (Nat.le_refl _) hspan (Nat.le_refl _)
  exact ⟨Row.single hdeclaration trivial rfl (Nat.le_refl _) hspan (Nat.le_refl _), trivial⟩

theorem lays_forInHead : Lays 0 forInHead ForHead.parts any := by
  have hhead : Lays 0 (Grammar.Peg.oneOf varBinding [leftHandSide]) (whole .keyHead) any := by
    refine lays_varBinding.oneOf (List.forall_mem_singleton.2 ?_)
    exact Yields.mono lays_leftHandSide fun _ _ _ h => ⟨h.1.relax admits_keyHead, trivial⟩
  refine Lays.labelled _ ((hhead.seq ((lays_keyword _ (by decide)).right lays_expression)).same ?_ ?_)
  · exact fun _ => rfl
  · exact fun _ _ => trivial

theorem lays_forHead : Lays 0 forHead ForHead.parts any := by
  have hinit : Lays 0 (Grammar.Peg.oneOf varList [expression]) (whole .loopHead) any := by
    refine (lays_varList (.inr rfl)).oneOf (List.forall_mem_singleton.2 ?_)
    exact Yields.mono lays_expression fun _ _ _ h => ⟨h.1.relax admits_loopHead, trivial⟩
  refine Lays.labelled _ (Lays.same (((hinit.opt.labelled _).left (lays_mark (by decide))).seq
    (((lays_expression.opt.labelled _).left (lays_mark (by decide))).seq
      (lays_expression.opt.labelled _))) ?_ ?_)
  · rintro ⟨init, test, update⟩
    simp [ForHead.parts, flatMap_whole]
  · exact fun _ _ => trivial

theorem lays_forStatement : Lays 0 forStatement (whole .statement) any := by
  have hhead : Lays 0 (Grammar.Peg.oneOf forInHead [forHead]) ForHead.parts any :=
    lays_forInHead.oneOf (List.forall_mem_singleton.2 lays_forHead)
  refine ((lays_keyword _ (by decide)).right (hhead.inParens.seq lays_statement)).construct ?_
    (.inl (by decide))
  rintro ⟨head, body⟩ -
  cases head with
  | each binding object => exact ⟨rfl, trivial, rfl⟩
  | counted init test update => exact ⟨rfl, trivial, rfl⟩

theorem lays_whileStatement : Lays 0 whileStatement (whole .statement) any :=
  ((lays_keyword _ (by decide)).right (lays_expression.inParens.seq lays_statement)).construct
    (fun _ _ => ⟨rfl, trivial, rfl⟩) (.inl (by decide))

theorem lays_doWhileStatement : Lays 0 doWhileStatement (whole .statement) any :=
  ((lays_keyword _ (by decide)).right (lays_statement.seq ((lays_keyword _ (by decide)).right
    (lays_expression.inParens.left lays_semicolon)))).construct
      (fun _ _ => ⟨rfl, trivial, rfl⟩) (.inl (by decide))

theorem lays_throwStatement : Lays 0 throwStatement (whole .statement) any :=
  ((lays_keyword _ (by decide)).right (lays_expression.left lays_semicolon)).construct
    (fun _ _ => ⟨rfl, trivial, rfl⟩) (.inl (by decide))

theorem lays_catchClause : Lays 0 catchClause (whole .handler) any := by
  refine ((lays_keyword _ (by decide)).right (lays_identifier.inParens.seq lays_block)).construct ?_
    (.inl (by decide))
  exact fun _ h => ⟨rfl, h.1, rfl⟩

theorem lays_finallyClause : Lays 0 finallyClause (whole .block) any :=
  .labelled _ (((lays_keyword _ (by decide)).right lays_block).weaken (Nat.zero_le _))

theorem lays_tryStatement : Lays 0 tryStatement (whole .statement) any := by
  refine ((lays_keyword _ (by decide)).right (lays_block.seq
    (lays_catchClause.opt.seq lays_finallyClause.opt))).construct ?_ (.inl (by decide))
  rintro ⟨body, handler, final⟩ -
  exact ⟨by simp [Form.parts, flatMap_whole, whole], trivial, rfl⟩

theorem lays_breakStatement : Lays 0 breakStatement (whole .statement) any :=
  ((lays_keyword _ (by decide)).right lays_semicolon).construct
    (fun _ _ => ⟨rfl, trivial, rfl⟩) (.inl (by decide))

theorem lays_continueStatement : Lays 0 continueStatement (whole .statement) any :=
  ((lays_keyword _ (by decide)).right lays_semicolon).construct
    (fun _ _ => ⟨rfl, trivial, rfl⟩) (.inl (by decide))

theorem lays_emptyStatement : Lays 0 emptyStatement (whole .statement) any :=
  (lays_mark (by decide)).construct (fun _ _ => ⟨rfl, trivial, rfl⟩) (.inl (by decide))

theorem lays_expressionStatement : Lays 0 expressionStatement (whole .statement) any :=
  (lays_expression.left lays_semicolon).construct
    (fun _ _ => ⟨rfl, trivial, rfl⟩) (.inr fun _ => ⟨rfl, List.cons_ne_nil _ _⟩)

theorem lays_statementBody : Lays 0 statementBody (whole .statement) any := by
  refine (lays_braced _ (.inr rfl)).oneOf ?_
  simp only [List.forall_mem_cons, List.not_mem_nil, false_implies, implies_true, and_true]
  exact ⟨.labelled _ ((lays_varList (.inl rfl)).left lays_semicolon), lays_functionDeclaration,
    lays_returnStatement, lays_ifStatement, lays_forStatement, lays_whileStatement,
    lays_doWhileStatement, lays_throwStatement, lays_tryStatement, lays_breakStatement,
    lays_continueStatement, lays_emptyStatement, lays_expressionStatement⟩

end Syntax

/-- The bodies of the rules yield what is asked of the rules. -/
theorem yields_body (rule : Rule) :
    (rules.body rule).Yields Syntax.ruleCondition (Syntax.ruleCondition rule) := by
  cases rule with
  | statement => exact Grammar.Peg.Yields.mono Syntax.lays_statementBody fun _ _ _ h => h.1
  | assignment => exact Grammar.Peg.Yields.mono Syntax.lays_assignmentBody fun _ _ _ h => h.1
  | newExpression => exact Grammar.Peg.Yields.mono Syntax.lays_newExpression fun _ _ _ h => h.1

theorem lays_program :
    Syntax.program.Yields Syntax.ruleCondition fun start ts stop =>
      Row start (ts.map fun t => (.statement, t)) stop := by
  have hnothing : Syntax.Lays 0 (.lexeme Grammar.Lexeme.nothing) Syntax.noParts Syntax.any := by
    refine Grammar.Peg.Yields.lexeme .nothing fun start cs taken rest _ => ⟨.nil ?_, trivial⟩
    exact Nat.le_add_right _ _
  have hend : Syntax.Lays 0 Syntax.endOfInput Syntax.noParts Syntax.any := by
    refine Syntax.Lays.labelled _
      (Grammar.Peg.Yields.lexeme .atEnd fun start cs taken rest _ => ⟨.nil ?_, trivial⟩)
    exact Nat.le_add_right _ _
  have hall := (hnothing.right (Syntax.lays_statement.many.listed.left hend)).labelled .program
  exact Grammar.Peg.Yields.mono hall fun _ _ _ h => h.1

/-- The tree of a text is well-formed. -/
theorem formed_of_parse {cs : List Char} {t : Tree} (h : parse cs = .ok t) : t.Formed := by
  obtain ⟨items, c, f, hparse, rfl⟩ := parseText_of_parse h
  obtain ⟨hrow, hstop⟩ := Grammar.Rules.meets_parseText (Grammar.Rules.skips append_blanks)
    yields_body lays_program hparse
  exact Row.tree (hrow.widen (Nat.le_refl _) hstop) trivial

end ScriptTypes.Script
