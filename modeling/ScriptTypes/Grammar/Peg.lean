import ScriptTypes.Grammar.Furthest

/-!
# Parsing expressions

A grammar is data: an expression says which texts match and which value a match has. Choice is
ordered, repetition takes as much as it can, and what was matched once is never matched again in
another way. Between the parts of a sequence, and between the rounds of a repetition, blanks are
skipped. A sequence whose last part matched nothing still ends after the blanks skipped before
that part, while a repetition ends before the blanks that no further round followed.

Only recursion needs names: `call` refers to a rule of the grammar, and all other rules are
definitions. `Peg.run` gives an expression its meaning from the meaning of the calls in it, and
`Rules.parse` ties the knot, descending at most a given number of calls.
-/

namespace ScriptTypes.Grammar

/-- Parsing expressions with a value of type `α`, over labels `ℓ` and rules `ρ` whose values
have type `τ`. -/
inductive Peg (ℓ ρ τ : Type) : Type → Type 1 where
  /-- One lexeme; its value is the text taken. -/
  | lexeme (lex : Lexeme) : Peg ℓ ρ τ (List Char)
  /-- A rule of the grammar. -/
  | call (rule : ρ) : Peg ℓ ρ τ τ
  /-- The same matches with other values. -/
  | map {α β : Type} (f : α → β) (p : Peg ℓ ρ τ α) : Peg ℓ ρ τ β
  /-- One expression after another, with blanks between them. -/
  | seq {α β : Type} (p : Peg ℓ ρ τ α) (q : Peg ℓ ρ τ β) : Peg ℓ ρ τ (α × β)
  /-- The first expression if it matches, else the second. -/
  | alt {α : Type} (p q : Peg ℓ ρ τ α) : Peg ℓ ρ τ α
  /-- An expression, or nothing where it does not match. -/
  | opt {α : Type} (p : Peg ℓ ρ τ α) : Peg ℓ ρ τ (Option α)
  /-- As many rounds as match, with blanks between them. -/
  | many {α : Type} (p : Peg ℓ ρ τ α) : Peg ℓ ρ τ (List α)
  /-- The same matches with the span they cover. -/
  | spanned {α : Type} (p : Peg ℓ ρ τ α) : Peg ℓ ρ τ (Span × α)
  /-- A rule that failures mention by its label. -/
  | labelled {α : Type} (label : ℓ) (p : Peg ℓ ρ τ α) : Peg ℓ ρ τ α

/-- What matching gives: a value and the cursor after it if there was a match, and in any case the
furthest failure so far. -/
abbrev Outcome (ℓ α : Type) := Option (α × Cursor) × Furthest ℓ

/-- A matcher, threading the furthest failure. -/
abbrev Matcher (ℓ α : Type) := Cursor → Furthest ℓ → Outcome ℓ α

/-- At most `n` further rounds of a repetition, each after blanks. -/
def rounds {ℓ α : Type} (skip : Cursor → Cursor) (round : Matcher ℓ α) :
    (n : Nat) → Cursor → Furthest ℓ → (List α × Cursor) × Furthest ℓ
  | 0, c, f => (([], c), f)
  | n + 1, c, f =>
    match round (skip c) f with
    | (none, f) => (([], c), f)
    | (some (a, c'), f) =>
      match rounds skip round n c' f with
      | ((as, c''), f) => ((a :: as, c''), f)

namespace Peg

variable {ℓ ρ τ : Type}

/-- The first part of a sequence is matched for its text only. -/
def right {α β : Type} (p : Peg ℓ ρ τ α) (q : Peg ℓ ρ τ β) : Peg ℓ ρ τ β := map Prod.snd (seq p q)

/-- The second part of a sequence is matched for its text only. -/
def left {α β : Type} (p : Peg ℓ ρ τ α) (q : Peg ℓ ρ τ β) : Peg ℓ ρ τ α := map Prod.fst (seq p q)

/-- One of several expressions, tried in order. -/
def oneOf {α : Type} (p : Peg ℓ ρ τ α) : List (Peg ℓ ρ τ α) → Peg ℓ ρ τ α
  | [] => p
  | q :: qs => alt p (oneOf q qs)

/-- The meaning of an expression, given the blanks to skip and the meaning of the rules. A
repetition has at most `limit` rounds after its first one. -/
def run (limit : Nat) (skip : Cursor → Cursor) (call : ρ → Matcher ℓ τ) :
    {α : Type} → Peg ℓ ρ τ α → Matcher ℓ α
  | _, .lexeme lex, c, f =>
    match lex c.rest with
    | none => (none, f)
    | some (taken, rest) => (some (taken, c.advance taken rest), f)
  | _, .call rule, c, f => call rule c f
  | _, .map g p, c, f =>
    match run limit skip call p c f with
    | (none, f) => (none, f)
    | (some (a, c), f) => (some (g a, c), f)
  | _, .seq p q, c, f =>
    match run limit skip call p c f with
    | (none, f) => (none, f)
    | (some (a, c), f) =>
      match run limit skip call q (skip c) f with
      | (none, f) => (none, f)
      | (some (b, c), f) => (some ((a, b), c), f)
  | _, .alt p q, c, f =>
    match run limit skip call p c f with
    | (some r, f) => (some r, f)
    | (none, f) => run limit skip call q c f
  | _, .opt p, c, f =>
    match run limit skip call p c f with
    | (none, f) => (some (none, c), f)
    | (some (a, c), f) => (some (some a, c), f)
  | _, .many p, c, f =>
    match run limit skip call p c f with
    | (none, f) => (some ([], c), f)
    | (some (a, c), f) =>
      match rounds skip (fun c f => run limit skip call p c f) limit c f with
      | ((as, c), f) => (some (a :: as, c), f)
  | _, .spanned p, c, f =>
    match run limit skip call p c f with
    | (none, f) => (none, f)
    | (some (a, c'), f) => (some ((⟨c.offset, c'.offset⟩, a), c'), f)
  | _, .labelled label p, c, f =>
    let before := f.countAt c.offset
    match run limit skip call p c f with
    | (none, f) => (none, f.fail label c.offset before)
    | (some r, f) => (some r, f)

/-! ### The meaning, kind by kind -/

variable {α β : Type} (limit : Nat) (skip : Cursor → Cursor) (calls : ρ → Matcher ℓ τ) (c : Cursor)
  (f : Furthest ℓ)

theorem run_lexeme (lex : Lexeme) :
    (lexeme lex : Peg ℓ ρ τ (List Char)).run limit skip calls c f
      = match lex c.rest with
        | none => (none, f)
        | some (taken, rest) => (some (taken, c.advance taken rest), f) := rfl

theorem run_map (k : α → β) (p : Peg ℓ ρ τ α) :
    (map k p).run limit skip calls c f
      = match p.run limit skip calls c f with
        | (none, f) => (none, f)
        | (some (a, c), f) => (some (k a, c), f) := rfl

theorem run_seq (p : Peg ℓ ρ τ α) (q : Peg ℓ ρ τ β) :
    (seq p q).run limit skip calls c f
      = match p.run limit skip calls c f with
        | (none, f) => (none, f)
        | (some (a, c), f) =>
          match q.run limit skip calls (skip c) f with
          | (none, f) => (none, f)
          | (some (b, c), f) => (some ((a, b), c), f) := rfl

theorem run_alt (p q : Peg ℓ ρ τ α) :
    (alt p q).run limit skip calls c f
      = match p.run limit skip calls c f with
        | (some r, f) => (some r, f)
        | (none, f) => q.run limit skip calls c f := rfl

theorem run_opt (p : Peg ℓ ρ τ α) :
    (opt p).run limit skip calls c f
      = match p.run limit skip calls c f with
        | (none, f) => (some (none, c), f)
        | (some (a, c), f) => (some (some a, c), f) := rfl

theorem run_many (p : Peg ℓ ρ τ α) :
    (many p).run limit skip calls c f
      = match p.run limit skip calls c f with
        | (none, f) => (some ([], c), f)
        | (some (a, c), f) =>
          match rounds skip (fun c f => p.run limit skip calls c f) limit c f with
          | ((as, c), f) => (some (a :: as, c), f) := rfl

theorem run_spanned (p : Peg ℓ ρ τ α) :
    (spanned p).run limit skip calls c f
      = match p.run limit skip calls c f with
        | (none, f) => (none, f)
        | (some (a, c'), f) => (some ((⟨c.offset, c'.offset⟩, a), c'), f) := rfl

theorem run_labelled (label : ℓ) (p : Peg ℓ ρ τ α) :
    (labelled label p).run limit skip calls c f
      = match p.run limit skip calls c f with
        | (none, f') => (none, f'.fail label c.offset (f.countAt c.offset))
        | (some r, f) => (some r, f) := rfl

end Peg

/-- A grammar: the blanks between parts, and a body for every rule. -/
structure Rules (ℓ ρ τ : Type) where
  /-- Takes the blanks off a text, returning them and the rest. -/
  blanks : List Char → List Char × List Char
  body : ρ → Peg ℓ ρ τ τ

namespace Rules

variable {ℓ ρ τ : Type}

/-- The cursor after the blanks in front of it. -/
def skip (g : Rules ℓ ρ τ) (c : Cursor) : Cursor :=
  match g.blanks c.rest with
  | (taken, rest) => c.advance taken rest

/-- The meaning of a rule when calls may be nested at most `depth` deep; deeper ones fail. -/
def parse (g : Rules ℓ ρ τ) (limit : Nat) : (depth : Nat) → ρ → Matcher ℓ τ
  | 0, _, _, f => (none, f)
  | depth + 1, rule, c, f => (g.body rule).run limit g.skip (g.parse limit depth) c f

/-- Match an expression against a text from its beginning, with calls nested at most `depth` deep.
Every round of a repetition takes a character, so the length of the text limits the rounds. -/
def parseText {α : Type} (g : Rules ℓ ρ τ) (p : Peg ℓ ρ τ α) (depth : Nat) (cs : List Char) :
    Outcome ℓ α :=
  p.run (cs.length + 1) g.skip (g.parse (cs.length + 1) depth) (.ofText cs) {}

end Rules

end ScriptTypes.Grammar
