import ScriptTypes.Proofs.Grammar.Traces

/-!
# The pieces of a matched text

A match takes words off a text, and between them it skips blanks and comments. `Observer.pieces`
notes these pieces in their order.

`Spells Fits` leads from one text to a later one along pieces, each of which fits in front of what
follows it. Expressions are matched where blanks have been skipped; `Rules.spelling_trace` says that
the pieces of their matches fit, if the lexemes of the grammar take words that do.
-/

namespace ScriptTypes.Grammar

variable {ℓ ρ τ α β : Type}

inductive Piece where
  /-- What a lexeme took. -/
  | word (text : List Char)
  /-- Blanks that were skipped. -/
  | space (text : List Char)
  /-- A comment that was skipped. -/
  | comment (text : List Char)
  deriving DecidableEq, Repr

namespace Piece

def text : Piece → List Char
  | word text | space text | comment text => text

/-- The text that pieces make up. -/
def join (ps : List Piece) : List Char := ps.flatMap text

@[simp] theorem join_nil : join [] = [] := rfl

@[simp] theorem join_cons (p : Piece) (ps : List Piece) : join (p :: ps) = p.text ++ join ps := rfl

end Piece

/-- The pieces of a match are noted. Those of the blanks in front of a text are given. -/
def Observer.pieces (blanks : List Char → List Piece) : Observer ℓ Piece where
  word taken := [.word taken]
  blanks := blanks
  labelled _ _ _ ps := ps

/-! ### Pieces that fit -/

/-- Pieces lead from one text to a later one, and each fits in front of what follows it. -/
inductive Spells (Fits : Piece → List Char → Prop) : List Char → List Piece → List Char → Prop where
  | nil (cs : List Char) : Spells Fits cs [] cs
  | cons {p : Piece} {ps : List Piece} {cs rest : List Char} (hfits : Fits p cs)
      (h : Spells Fits cs ps rest) : Spells Fits (p.text ++ cs) (p :: ps) rest

namespace Spells

variable {Fits : Piece → List Char → Prop} {cs mid rest : List Char} {ps qs : List Piece}

theorem append (hp : Spells Fits cs ps mid) (hq : Spells Fits mid qs rest) :
    Spells Fits cs (ps ++ qs) rest := by
  induction hp with
  | nil => exact hq
  | cons hfits _ ih => exact .cons hfits (ih hq)

theorem single {p : Piece} (hfits : Fits p rest) (h : p.text ++ rest = cs) :
    Spells Fits cs [p] rest := by
  rw [← h]
  exact .cons hfits (.nil rest)

/-- The pieces and what they lead to are the text. -/
theorem join_append (h : Spells Fits cs ps rest) : Piece.join ps ++ rest = cs := by
  induction h with
  | nil => rfl
  | cons _ _ ih => rw [Piece.join_cons, List.append_assoc, ih]

end Spells

/-- All lexemes of an expression satisfy a condition. -/
def Peg.Words (P : Lexeme → Prop) : {α : Type} → Peg ℓ ρ τ α → Prop
  | _, .lexeme lex => P lex
  | _, .call _ => True
  | _, .map _ p | _, .opt p | _, .many p | _, .spanned p | _, .labelled _ p => Words P p
  | _, .seq p q => Words P p ∧ Words P q
  | _, .alt p q => Words P p ∧ Words P q

namespace Peg

variable {P : Lexeme → Prop} {p q : Peg ℓ ρ τ α} {r : Peg ℓ ρ τ β}

@[simp] theorem words_lexeme {lex : Lexeme} :
    (lexeme lex : Peg ℓ ρ τ (List Char)).Words P ↔ P lex := Iff.rfl

@[simp] theorem words_call (rule : ρ) : (call rule : Peg ℓ ρ τ τ).Words P := trivial

@[simp] theorem words_map {g : α → β} : (map g p).Words P ↔ p.Words P := Iff.rfl

@[simp] theorem words_opt : (opt p).Words P ↔ p.Words P := Iff.rfl

@[simp] theorem words_many : (many p).Words P ↔ p.Words P := Iff.rfl

@[simp] theorem words_spanned : (spanned p).Words P ↔ p.Words P := Iff.rfl

@[simp] theorem words_labelled {label : ℓ} : (labelled label p).Words P ↔ p.Words P := Iff.rfl

@[simp] theorem words_seq : (seq p r).Words P ↔ p.Words P ∧ r.Words P := Iff.rfl

@[simp] theorem words_right : (right p r).Words P ↔ p.Words P ∧ r.Words P := Iff.rfl

@[simp] theorem words_left : (left p r).Words P ↔ p.Words P ∧ r.Words P := Iff.rfl

@[simp] theorem words_oneOf {qs : List (Peg ℓ ρ τ α)} :
    (p.oneOf qs).Words P ↔ p.Words P ∧ ∀ q ∈ qs, q.Words P := by
  induction qs generalizing p with
  | nil => simp [oneOf]
  | cons q qs ih =>
    rw [List.forall_mem_cons, ← ih]
    exact Iff.rfl

end Peg

section Fitting

variable (Fits : Piece → List Char → Prop) (Settled : List Char → Prop)

/-- A lexeme splits settled texts, and what it takes fits in front of what it leaves. -/
def Lexeme.Fitting (lex : Lexeme) : Prop :=
  ∀ cs taken rest, Settled cs → lex cs = some (taken, rest) →
    taken ++ rest = cs ∧ Fits (.word taken) rest

/-- All matches at settled cursors have pieces that fit. -/
def Spelling (t : Cursor → Trace Piece α) : Prop :=
  ∀ c a c' ps, Settled c.rest → t c = some (a, c', ps) → Spells Fits c.rest ps c'.rest

/-- Skipping blanks settles a cursor, and the pieces of the blanks fit. -/
def Settles (skip : Cursor → Cursor) (blanks : List Char → List Piece) : Prop :=
  ∀ c, Spells Fits c.rest (blanks c.rest) (skip c).rest ∧ Settled (skip c).rest

variable {Fits Settled} {skip : Cursor → Cursor} {blanks : List Char → List Piece}

theorem spells_traceRounds (hskip : Settles Fits Settled skip blanks)
    {round : Cursor → Trace Piece α} (h : Spelling Fits Settled round) (n : Nat) (c : Cursor) :
    Spells Fits c.rest (traceRounds skip (Observer.pieces blanks : Observer ℓ Piece) round n c).2.2
      (traceRounds skip (Observer.pieces blanks : Observer ℓ Piece) round n c).2.1.rest := by
  induction n generalizing c with
  | zero => exact .nil c.rest
  | succ n ih =>
    rw [traceRounds]
    split
    · exact .nil c.rest
    · rename_i a c' ps hround
      have hfirst := h (skip c) a c' ps (hskip c).2 hround
      exact (hskip c).1.append (hfirst.append (ih c'))

/-- If all lexemes of an expression are fitting, its matches have pieces that fit. -/
theorem Peg.spelling_trace (hskip : Settles Fits Settled skip blanks)
    {call : ρ → Cursor → Trace Piece τ} (hcall : ∀ rule, Spelling Fits Settled (call rule))
    (limit : Nat) (p : Peg ℓ ρ τ α) (hp : p.Words (Lexeme.Fitting Fits Settled)) :
    Spelling Fits Settled (p.trace limit skip (.pieces blanks) call) := by
  induction p with
  | lexeme lex =>
    intro c a c' ps hc h
    obtain ⟨hlex, rfl⟩ := Peg.of_trace_lexeme h
    obtain ⟨happend, hfits⟩ := hp c.rest a c'.rest hc hlex
    exact .single hfits happend
  | call rule => exact hcall rule
  | map g p ih =>
    intro c b c' ps hc h
    obtain ⟨a, -, ha⟩ := Peg.of_trace_map h
    exact ih hp c a c' ps hc ha
  | seq p q ihp ihq =>
    intro c x c' ps hc h
    obtain ⟨d, qs, rs, hfirst, hsecond, rfl⟩ := Peg.of_trace_seq h
    obtain ⟨hblanks, hsettled⟩ := hskip d
    have hq := ihq hp.2 (skip d) x.2 c' rs hsettled hsecond
    exact (ihp hp.1 c x.1 d qs hc hfirst).append (hblanks.append hq)
  | alt p q ihp ihq =>
    intro c a c' ps hc h
    obtain h | h := Peg.of_trace_alt h
    · exact ihp hp.1 c a c' ps hc h
    · exact ihq hp.2 c a c' ps hc h
  | opt p ih =>
    intro c o c' ps hc h
    obtain ⟨rfl, rfl, rfl⟩ | ⟨a, rfl, ha⟩ := Peg.of_trace_opt h
    · exact .nil c'.rest
    · exact ih hp c a c' ps hc ha
  | many p ih =>
    intro c as c' ps hc h
    obtain ⟨rfl, rfl, rfl⟩ | ⟨a, d, qs, hfirst, rest, rs, hrest, rfl, rfl⟩ := Peg.of_trace_many h
    · exact .nil c'.rest
    · have hrounds := spells_traceRounds (ℓ := ℓ) hskip (ih hp) limit d
      rw [hrest] at hrounds
      exact (ih hp c a d qs hc hfirst).append hrounds
  | spanned p ih =>
    intro c x c' ps hc h
    exact ih hp c x.2 c' ps hc (Peg.of_trace_spanned h).2
  | labelled label p ih =>
    intro c a c' ps hc h
    obtain ⟨_, ha, rfl⟩ := Peg.of_trace_labelled h
    exact ih hp c a c' _ hc ha

/-- If all lexemes of a grammar are fitting, the matches of its rules have pieces that fit. -/
theorem Rules.spelling_trace {g : Rules ℓ ρ τ} (hskip : Settles Fits Settled g.skip blanks)
    (h : ∀ rule, (g.body rule).Words (Lexeme.Fitting Fits Settled)) (limit depth : Nat) (rule : ρ) :
    Spelling Fits Settled (g.trace (.pieces blanks) limit depth rule) := by
  induction depth generalizing rule with
  | zero =>
    intro c a c' ps _ htrace
    cases htrace
  | succ depth ih => exact Peg.spelling_trace hskip ih limit (g.body rule) (h rule)

end Fitting

end ScriptTypes.Grammar
