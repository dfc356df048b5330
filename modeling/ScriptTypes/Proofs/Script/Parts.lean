import ScriptTypes.Proofs.Script.Parsed
import ScriptTypes.Proofs.Script.Visits

/-!
# The parts of matches

The rules of the grammar say which pairs a match has. `One` says it of a rule that is labelled, so
that its match is one part, and `Lowers` of the parts inside a rule, without those that lowering
passes over. Both come with a law for each way of building expressions, and so the parts of every
rule can be found by following its body.
-/

namespace ScriptTypes.Script

open Grammar (Lexeme Peg)

theorem partsOf_append (ps qs : List (Grammar.Pair Label)) :
    partsOf (ps ++ qs) = partsOf ps ++ partsOf qs := by
  induction ps with
  | nil => rfl
  | cons p ps ih => rw [List.cons_append, partsOf, ih, partsOf, List.cons_append]

/-- The parts whose labels are kept. -/
def kept (keep : Label → Bool) (parts : List Part) : List Part := parts.filter fun p => keep p.label

theorem kept_append (keep : Label → Bool) (ps qs : List Part) :
    kept keep (ps ++ qs) = kept keep ps ++ kept keep qs := List.filter_append _ _

def anyLabel : Label → Bool := fun _ => true

def notKeyword : Label → Bool := fun label => !label.isKeyword

@[simp] theorem kept_anyLabel (parts : List Part) : kept anyLabel parts = parts :=
  List.filter_true parts

namespace Syntax

open Grammar.Peg (Shapes)

/-- A part that is lowered to an expression. -/
structure IsExpr (t : Tree) (q : Part) : Prop where
  lowered : q.expr = t.visit {}
  isExpression : t.form.isExpression = true

/-- A part that is lowered to a statement. -/
structure IsStatement (t : Tree) (q : Part) : Prop where
  lowered : q.statement = t.visit {}

/-- The part of a rule's match is lowered to the tree of the match. -/
def ruleShape : Rule → Grammar.Shape Label Tree
  | .statement => fun _ t ps => ∃ q, partsOf ps = [q] ∧ q.label.isKeyword = false ∧ IsStatement t q
  | .assignment => fun _ t ps => ∃ q, partsOf ps = [q] ∧ q.label = .assignment ∧ IsExpr t q
  | .newExpression => fun _ t ps => ∃ q, partsOf ps = [q] ∧ q.label = .newExpression ∧ IsExpr t q

/-- Every match is one part. -/
def One {α : Type} (p : Expr α) (Q : Span → α → Part → Prop) : Prop :=
  p.Shapes ruleShape fun span a ps => ∃ q, partsOf ps = [q] ∧ Q span a q

/-- Every match has the kept parts that a condition asks for. -/
def Lowers {α : Type} (keep : Label → Bool) (p : Expr α) (Q : α → List Part → Prop) : Prop :=
  p.Shapes ruleShape fun _ a ps => Q a (kept keep (partsOf ps))

def noPart {α : Type} : α → List Part → Prop := fun _ parts => parts = []

/-- The match is one part. -/
def onePart {α : Type} (Q : α → Part → Prop) : α → List Part → Prop :=
  fun a parts => ∃ q, parts = [q] ∧ Q a q

/-- The parts of matches that follow one another. -/
inductive Each {α : Type} (Q : α → List Part → Prop) : List α → List Part → Prop where
  | nil : Each Q [] []
  | cons {a : α} {as : List α} {ps qs : List Part} (hfirst : Q a ps) (hrest : Each Q as qs) :
      Each Q (a :: as) (ps ++ qs)

theorem Each.forall₂ {α : Type} {Q : α → Part → Prop} {as : List α} {parts : List Part}
    (h : Each (onePart Q) as parts) : List.Forall₂ Q as parts := by
  induction h with
  | nil => exact .nil
  | cons hfirst _ ih =>
    obtain ⟨q, rfl, ha⟩ := hfirst
    exact .cons ha ih

/-! ### Laws -/

section Laws

variable {α β : Type} {keep : Label → Bool} {p : Expr α} {q : Expr β}

theorem One.mono {Q R : Span → α → Part → Prop} (h : One p Q)
    (himp : ∀ span a q, Q span a q → R span a q) : One p R :=
  Shapes.mono h fun span a _ ⟨q, hq, ha⟩ => ⟨q, hq, himp span a q ha⟩

theorem One.oneOf {Q : Span → α → Part → Prop} {ps : List (Expr α)} (h : One p Q)
    (hps : ∀ p ∈ ps, One p Q) : One (p.oneOf ps) Q := Shapes.oneOf h hps

theorem One.map {Q : Span → α → Part → Prop} {R : Span → β → Part → Prop} {g : α → β}
    (h : One p Q) (himp : ∀ span a q, Q span a q → R span (g a) q) : One (.map g p) R :=
  Shapes.map h fun span a _ ⟨q, hq, ha⟩ => ⟨q, hq, himp span a q ha⟩

theorem One.spanned {Q : Span → α → Part → Prop} (h : One p Q) :
    One (.spanned p) fun span x q => x.1 = span ∧ Q span x.2 q :=
  Shapes.mono (Shapes.spanned h) fun _ _ _ ⟨hspan, q, hq, ha⟩ => ⟨q, hq, hspan, ha⟩

theorem one_token (label : Label) {lex : Lexeme} (h : lex.Splits) :
    One (token label lex) fun span cs q => q = .of label span cs [] := by
  refine Shapes.mono (Shapes.token label h) ?_
  rintro span cs _ rfl
  exact ⟨_, rfl, rfl⟩

theorem one_leaf (label : Label) {lex : Lexeme} (h : lex.Splits) (form : List Char → Form Tree) :
    One (leaf label lex form) fun span t q =>
      ∃ cs, t = .node span (form cs) ∧ q = .of label span cs [] := by
  refine Shapes.mono (Shapes.leaf label h _) ?_
  rintro span t _ ⟨cs, rfl, rfl⟩
  exact ⟨_, rfl, cs, rfl, rfl⟩

/-- A labelled match. -/
theorem One.labelled {label : Label} {Q : α → List Part → Prop} (h : Lowers keep p Q) :
    One (.labelled label p) fun span a q =>
      ∃ text inner, q = .of label span text inner ∧ Q a (kept keep inner) := by
  refine Shapes.mono (Shapes.labelled label h) ?_
  rintro span a _ ⟨text, inner, rfl, ha⟩
  exact ⟨_, rfl, text, partsOf inner, rfl, ha⟩

/-- A labelled match whose value has its span. -/
theorem One.rule {label : Label} {Q : α → List Part → Prop} {g : Span × α → β}
    (h : Lowers keep p Q) :
    One (.labelled label (.map g (.spanned p))) fun span b q =>
      ∃ a text inner, q = .of label span text inner ∧ b = g (span, a) ∧ Q a (kept keep inner) := by
  refine Shapes.mono (Shapes.labelled label (Shapes.map (R := fun span b ps =>
    ∃ a, b = g (span, a) ∧ Q a (kept keep (partsOf ps))) (Shapes.spanned h) ?_)) ?_
  · rintro span ⟨_, a⟩ ps ⟨rfl, ha⟩
    exact ⟨a, rfl, ha⟩
  · rintro span b _ ⟨text, inner, rfl, a, rfl, ha⟩
    exact ⟨_, rfl, a, text, partsOf inner, rfl, rfl, ha⟩

theorem One.lowers {Q : Span → α → Part → Prop} {R : α → Part → Prop} (h : One p Q)
    (himp : ∀ span a q, Q span a q → keep q.label = true ∧ R a q) : Lowers keep p (onePart R) := by
  refine Shapes.mono h ?_
  rintro span a ps ⟨q, hps, hq⟩
  obtain ⟨hkeep, ha⟩ := himp span a q hq
  exact ⟨q, by simp [hps, kept, hkeep], ha⟩

theorem One.skipped {Q : Span → α → Part → Prop} (h : One p Q)
    (hskip : ∀ span a q, Q span a q → keep q.label = false) : Lowers keep p noPart := by
  refine Shapes.mono h ?_
  rintro span a ps ⟨q, hps, hq⟩
  simp [noPart, hps, kept, hskip span a q hq]

namespace Lowers

variable {Q Q' : α → List Part → Prop} {R : β → List Part → Prop}

theorem mono (h : Lowers keep p Q) (himp : ∀ a parts, Q a parts → Q' a parts) :
    Lowers keep p Q' :=
  Shapes.mono h fun _ a _ => himp a _

theorem lexeme (lex : Lexeme) : Lowers keep (.lexeme lex) noPart := by
  refine Shapes.mono (Shapes.lexeme lex) ?_
  rintro span cs _ rfl
  rfl

theorem map {g : α → β} (h : Lowers keep p Q) (himp : ∀ a parts, Q a parts → R (g a) parts) :
    Lowers keep (.map g p) R :=
  Shapes.map h fun _ a _ => himp a _

theorem seq (hp : Lowers keep p Q) (hq : Lowers keep q R) :
    Lowers keep (.seq p q) fun x parts =>
      ∃ qs rs, parts = qs ++ rs ∧ Q x.1 qs ∧ R x.2 rs := by
  refine Shapes.mono (Shapes.seq hp hq) ?_
  rintro span x _ ⟨_, _, qs, rs, -, hqs, hrs, rfl⟩
  exact ⟨_, _, by rw [partsOf_append, kept_append], hqs, hrs⟩

theorem right (hp : Lowers keep p noPart) (hq : Lowers keep q R) : Lowers keep (.right p q) R := by
  refine map (seq hp hq) ?_
  rintro x _ ⟨_, rs, rfl, rfl, hrs⟩
  exact hrs

theorem left (hp : Lowers keep p Q) (hq : Lowers keep q noPart) : Lowers keep (.left p q) Q := by
  refine map (seq hp hq) ?_
  rintro x _ ⟨qs, _, rfl, hqs, rfl⟩
  rwa [List.append_nil]

theorem opt (h : Lowers keep p Q) :
    Lowers keep (.opt p) fun o parts => (o = none ∧ parts = []) ∨ ∃ a, o = some a ∧ Q a parts := by
  refine Shapes.mono (Shapes.opt h) ?_
  rintro span o ps (⟨rfl, rfl⟩ | ⟨a, rfl, ha⟩)
  · exact .inl ⟨rfl, rfl⟩
  · exact .inr ⟨a, rfl, ha⟩

theorem oneOf {ps : List (Expr α)} (h : Lowers keep p Q) (hps : ∀ p ∈ ps, Lowers keep p Q) :
    Lowers keep (p.oneOf ps) Q := Shapes.oneOf h hps

theorem many (h : Lowers keep p Q) : Lowers keep (.many p) (Each Q) := by
  refine Shapes.mono (Shapes.many h) ?_
  intro span as ps heach
  induction heach with
  | nil => exact .nil
  | cons hfirst _ ih =>
    rw [partsOf_append, kept_append]
    exact .cons hfirst ih

theorem mark (s : String) : Lowers keep (Syntax.mark s) noPart := lexeme _

/-- Text that may be missing. -/
theorem optText (h : Lowers keep p noPart) : Lowers keep (.opt p) noPart := by
  refine mono h.opt ?_
  rintro o parts (⟨-, rfl⟩ | ⟨a, -, ha⟩)
  · rfl
  · exact ha

theorem semicolon : Lowers keep Syntax.semicolon noPart := (mark ";").optText

theorem inParens (h : Lowers keep p Q) : Lowers keep (Syntax.inParens p) Q :=
  (mark "(").right (h.left (mark ")"))

theorem commaList {Q : α → Part → Prop} (h : Lowers keep p (onePart Q)) :
    Lowers keep (Syntax.commaList p) fun as parts => as ≠ [] ∧ List.Forall₂ Q as parts := by
  refine map (seq h ((mark ",").right h).many) ?_
  rintro ⟨a, as⟩ _ ⟨_, qs, rfl, ⟨q, rfl, ha⟩, has⟩
  exact ⟨List.cons_ne_nil _ _, .cons ha has.forall₂⟩

theorem optCommaList {Q : α → Part → Prop} (h : Lowers keep p (onePart Q)) :
    Lowers keep (.map (·.getD []) (.opt (Syntax.commaList p))) (List.Forall₂ Q) := by
  refine map h.commaList.opt ?_
  rintro o _ (⟨rfl, rfl⟩ | ⟨as, rfl, -, has⟩)
  · exact .nil
  · exact has

end Lowers

/-- A labelled match of one part with text behind it, which starts where the part starts. -/
theorem One.closed {label : Label} {Q : Span → α → Part → Prop} (hp : One p Q)
    (hq : Lowers anyLabel q noPart) :
    One (.labelled label (.left p q)) fun span a r => ∃ text left first,
      r = .of label span text [first] ∧ left.start = span.start ∧ Q left a first := by
  refine Shapes.mono (Shapes.labelled label (Shapes.map (R := fun span a ps =>
    ∃ left first, partsOf ps = [first] ∧ left.start = span.start ∧ Q left a first)
    (Shapes.seq hp hq) ?_)) ?_
  · rintro span ⟨a, b⟩ _ ⟨left, _, qs, rs, hstart, ⟨first, hqs, ha⟩, hrs, rfl⟩
    have hrest : partsOf rs = [] := by simpa [noPart] using hrs
    exact ⟨left, first, by rw [partsOf_append, hqs, hrest, List.append_nil], hstart, ha⟩
  · rintro span a _ ⟨text, inner, rfl, left, first, hinner, hstart, ha⟩
    exact ⟨.of label span text [first], by simp [partsOf, partOf, hinner],
      text, left, first, rfl, hstart, ha⟩

end Laws

end Syntax

end ScriptTypes.Script
