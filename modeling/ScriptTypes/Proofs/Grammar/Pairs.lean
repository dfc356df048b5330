import ScriptTypes.Proofs.Grammar.Traces

/-!
# The pairs of a match

A labelled match is a pair of its label and what it covers, and holds the pairs of the labelled
matches inside it. The pairs of a text are a tree that knows nothing of the values which the
expressions of a grammar give to their matches.

`Peg.Shapes P p Q` says that the span, the value and the pairs of every match of `p` satisfy `Q`, if
those of the rules that `p` calls satisfy `P`. There is one law for each kind of expression, and
`Rules.shapes_trace` ties the knot.
-/

namespace ScriptTypes.Grammar

variable {ℓ ρ τ α β : Type}

/-- A labelled match, with the labelled matches inside it in their order. -/
structure Pair (ℓ : Type) where
  label : ℓ
  span : Span
  text : List Char
  inner : List (Pair ℓ)

/-- The text between two cursors. -/
def Cursor.textUntil (c c' : Cursor) : List Char := c.rest.take (c.rest.length - c'.rest.length)

theorem Cursor.textUntil_of_append {c c' : Cursor} {taken : List Char}
    (h : taken ++ c'.rest = c.rest) : c.textUntil c' = taken := by
  rw [textUntil, ← h, List.length_append, Nat.add_sub_cancel, List.take_left]

/-- The pairs of a match are noted. -/
def Observer.pairs : Observer ℓ (Pair ℓ) where
  word _ := []
  blanks _ := []
  labelled label c c' inner := [⟨label, ⟨c.offset, c'.offset⟩, c.textUntil c', inner⟩]

/-- A condition on a match: the span it covers, its value and its pairs. -/
abbrev Shape (ℓ α : Type) := Span → α → List (Pair ℓ) → Prop

/-- Matches that follow one another. -/
inductive Shape.Each (Q : Shape ℓ α) : List α → List (Pair ℓ) → Prop where
  | nil : Each Q [] []
  | cons {span : Span} {a : α} {as : List α} {ps qs : List (Pair ℓ)} (hfirst : Q span a ps)
      (hrest : Each Q as qs) : Each Q (a :: as) (ps ++ qs)

/-- All matches satisfy a condition. -/
def Shaped (t : Cursor → Trace (Pair ℓ) α) (Q : Shape ℓ α) : Prop :=
  ∀ c a c' ps, t c = some (a, c', ps) → Q ⟨c.offset, c'.offset⟩ a ps

/-- All matches of `p` satisfy `Q` where the matches of each rule satisfy `P`. -/
def Peg.Shapes (P : ρ → Shape ℓ τ) (p : Peg ℓ ρ τ α) (Q : Shape ℓ α) : Prop :=
  ∀ (limit : Nat) (skip : Cursor → Cursor) (call : ρ → Cursor → Trace (Pair ℓ) τ),
    (∀ rule, Shaped (call rule) (P rule)) → Shaped (p.trace limit skip .pairs call) Q

namespace Peg.Shapes

variable {P : ρ → Shape ℓ τ} {p q : Peg ℓ ρ τ α} {Q R : Shape ℓ α}

theorem mono (h : Shapes P p Q) (himp : ∀ span a ps, Q span a ps → R span a ps) :
    Shapes P p R :=
  fun limit skip call hcall c a c' ps ha => himp _ _ _ (h limit skip call hcall c a c' ps ha)

theorem lexeme (lex : Lexeme) :
    Shapes P (.lexeme lex : Peg ℓ ρ τ (List Char)) fun _ _ ps => ps = [] := by
  intro limit skip call _ c a c' ps h
  exact (of_trace_lexeme h).2

/-- A labelled lexeme is a pair that covers its value. -/
theorem token (label : ℓ) {lex : Lexeme} (hsplits : lex.Splits) :
    Shapes P (.labelled label (.lexeme lex) : Peg ℓ ρ τ (List Char))
      fun span cs ps => ps = [⟨label, span, cs, []⟩] := by
  intro limit skip call _ c a c' ps h
  obtain ⟨qs, hlexeme, rfl⟩ := of_trace_labelled h
  obtain ⟨hlex, rfl⟩ := of_trace_lexeme hlexeme
  have htext : c.textUntil c' = a := Cursor.textUntil_of_append (hsplits _ _ _ hlex)
  rw [← htext]
  rfl

/-- The same for a value that is made from the span and the text of a lexeme. -/
theorem leaf (label : ℓ) {lex : Lexeme} (hsplits : lex.Splits) (g : Span × List Char → β) :
    Shapes P (.labelled label (.map g (.spanned (.lexeme lex))) : Peg ℓ ρ τ β)
      fun span b ps => ∃ cs, b = g (span, cs) ∧ ps = [⟨label, span, cs, []⟩] := by
  intro limit skip call _ c b c' ps h
  obtain ⟨qs, hmap, rfl⟩ := of_trace_labelled h
  obtain ⟨⟨span, cs⟩, rfl, hspanned⟩ := of_trace_map hmap
  obtain ⟨rfl, hlexeme⟩ := of_trace_spanned hspanned
  obtain ⟨hlex, rfl⟩ := of_trace_lexeme hlexeme
  refine ⟨cs, rfl, ?_⟩
  have htext : c.textUntil c' = cs := Cursor.textUntil_of_append (hsplits _ _ _ hlex)
  rw [← htext]
  rfl

theorem call (rule : ρ) : Shapes P (.call rule : Peg ℓ ρ τ τ) (P rule) :=
  fun _ _ _ hcall => hcall rule

theorem map {g : α → β} {R : Shape ℓ β} (h : Shapes P p Q)
    (himp : ∀ span a ps, Q span a ps → R span (g a) ps) : Shapes P (.map g p) R := by
  intro limit skip call hcall c b c' ps hmap
  obtain ⟨a, rfl, ha⟩ := of_trace_map hmap
  exact himp _ _ _ (h limit skip call hcall c a c' ps ha)

theorem seq {q : Peg ℓ ρ τ β} {R : Shape ℓ β} (hp : Shapes P p Q) (hq : Shapes P q R) :
    Shapes P (.seq p q) fun span x ps => ∃ left right qs rs, left.start = span.start ∧
      Q left x.1 qs ∧ R right x.2 rs ∧ ps = qs ++ rs := by
  intro limit skip call hcall c x c' ps hseq
  obtain ⟨d, qs, rs, hfirst, hsecond, rfl⟩ := of_trace_seq hseq
  exact ⟨⟨c.offset, d.offset⟩, _, qs, rs, rfl, hp limit skip call hcall _ _ _ _ hfirst,
    hq limit skip call hcall _ _ _ _ hsecond, rfl⟩

theorem alt (hp : Shapes P p Q) (hq : Shapes P q Q) : Shapes P (.alt p q) Q := by
  intro limit skip call hcall c a c' ps halt
  obtain h | h := of_trace_alt halt
  · exact hp limit skip call hcall _ _ _ _ h
  · exact hq limit skip call hcall _ _ _ _ h

theorem oneOf {qs : List (Peg ℓ ρ τ α)} (hp : Shapes P p Q) (hqs : ∀ q ∈ qs, Shapes P q Q) :
    Shapes P (p.oneOf qs) Q := by
  induction qs generalizing p with
  | nil => exact hp
  | cons q qs ih =>
    obtain ⟨hq, hqs⟩ := List.forall_mem_cons.1 hqs
    exact hp.alt (ih hq hqs)

theorem opt (h : Shapes P p Q) :
    Shapes P (.opt p) fun span o ps =>
      (o = none ∧ ps = []) ∨ ∃ a, o = some a ∧ Q span a ps := by
  intro limit skip call hcall c o c' ps hopt
  obtain ⟨ho, -, hps⟩ | ⟨a, ho, ha⟩ := of_trace_opt hopt
  · exact .inl ⟨ho, hps⟩
  · exact .inr ⟨a, ho, h limit skip call hcall _ _ _ _ ha⟩

/-- The rounds of a repetition after the first one. -/
theorem each_traceRounds (skip : Cursor → Cursor) {round : Cursor → Trace (Pair ℓ) α}
    (h : Shaped round Q) (n : Nat) (c : Cursor) :
    Q.Each (traceRounds skip (.pairs : Observer ℓ (Pair ℓ)) round n c).1
      (traceRounds skip (.pairs : Observer ℓ (Pair ℓ)) round n c).2.2 := by
  induction n generalizing c with
  | zero => exact .nil
  | succ n ih =>
    rw [traceRounds]
    split
    · exact .nil
    · rename_i a c' ps hround
      have hall := Shape.Each.cons (h _ _ _ _ hround) (ih c')
      exact hall

theorem many (h : Shapes P p Q) : Shapes P (.many p) fun _ => Q.Each := by
  intro limit skip call hcall c as c' ps hmany
  obtain ⟨rfl, -, rfl⟩ | ⟨a, d, qs, hfirst, rest, rs, hrest, rfl, rfl⟩ := of_trace_many hmany
  · exact .nil
  · have hrounds := each_traceRounds skip (h limit skip call hcall) limit d
    rw [hrest] at hrounds
    exact .cons (h limit skip call hcall _ _ _ _ hfirst) hrounds

theorem spanned (h : Shapes P p Q) :
    Shapes P (.spanned p) fun span x ps => x.1 = span ∧ Q span x.2 ps := by
  intro limit skip call hcall c x c' ps hspanned
  obtain ⟨hspan, hx⟩ := of_trace_spanned hspanned
  exact ⟨hspan, h limit skip call hcall _ _ _ _ hx⟩

theorem labelled (label : ℓ) (h : Shapes P p Q) :
    Shapes P (.labelled label p) fun span a ps =>
      ∃ text inner, ps = [⟨label, span, text, inner⟩] ∧ Q span a inner := by
  intro limit skip call hcall c a c' ps hlabelled
  obtain ⟨inner, ha, rfl⟩ := of_trace_labelled hlabelled
  exact ⟨_, inner, rfl, h limit skip call hcall _ _ _ _ ha⟩

end Peg.Shapes

/-- What the bodies of the rules have for pairs, the rules have. -/
theorem Rules.shapes_trace {g : Rules ℓ ρ τ} {P : ρ → Shape ℓ τ}
    (h : ∀ rule, (g.body rule).Shapes P (P rule)) (limit depth : Nat) (rule : ρ) :
    Shaped (g.trace .pairs limit depth rule) (P rule) := by
  induction depth generalizing rule with
  | zero =>
    intro c a c' ps htrace
    cases htrace
  | succ depth ih => exact h rule limit g.skip (g.trace .pairs limit depth) ih

end ScriptTypes.Grammar
