import ScriptTypes.Proofs.Grammar.Yields

/-!
# What is noted about matches

`Peg.trace` is the meaning of an expression that keeps notes about a match, in place of the furthest
failure. An `Observer` says what is noted about the words that lexemes take, about the blanks that
are skipped, and about labelled matches. Whatever is noted, the same matches are found
(`Rules.fst_parseText`).
-/

namespace ScriptTypes.Grammar

variable {ℓ ρ τ ω α β : Type}

/-- What is noted about matches. -/
structure Observer (ℓ ω : Type) where
  /-- About a word that a lexeme took. -/
  word : List Char → List ω
  /-- About the blanks in front of a text, if they are skipped. -/
  blanks : List Char → List ω
  /-- About a labelled match between two cursors, where something was noted about its parts. -/
  labelled : ℓ → Cursor → Cursor → List ω → List ω

/-- What matching with notes gives: a value, the cursor after the match and the notes about it. -/
abbrev Trace (ω α : Type) := Option (α × Cursor × List ω)

/-- A traced match without its notes. -/
def Trace.found (t : Trace ω α) : Option (α × Cursor) := t.map fun (a, c, _) => (a, c)

/-- At most `n` further rounds of a repetition, each after blanks. -/
def traceRounds (skip : Cursor → Cursor) (obs : Observer ℓ ω)
    (round : Cursor → Trace ω α) : (n : Nat) → Cursor → List α × Cursor × List ω
  | 0, c => ([], c, [])
  | n + 1, c =>
    match round (skip c) with
    | none => ([], c, [])
    | some (a, c', ps) =>
      match traceRounds skip obs round n c' with
      | (as, c'', qs) => (a :: as, c'', obs.blanks c.rest ++ (ps ++ qs))

/-- The meaning of an expression, with what is noted about a match. -/
def Peg.trace (limit : Nat) (skip : Cursor → Cursor) (obs : Observer ℓ ω)
    (call : ρ → Cursor → Trace ω τ) : {α : Type} → Peg ℓ ρ τ α → Cursor → Trace ω α
  | _, .lexeme lex, c =>
    match lex c.rest with
    | none => none
    | some (taken, rest) => some (taken, c.advance taken rest, obs.word taken)
  | _, .call rule, c => call rule c
  | _, .map g p, c =>
    match trace limit skip obs call p c with
    | none => none
    | some (a, c, ps) => some (g a, c, ps)
  | _, .seq p q, c =>
    match trace limit skip obs call p c with
    | none => none
    | some (a, c, ps) =>
      match trace limit skip obs call q (skip c) with
      | none => none
      | some (b, c', qs) => some ((a, b), c', ps ++ (obs.blanks c.rest ++ qs))
  | _, .alt p q, c =>
    match trace limit skip obs call p c with
    | some r => some r
    | none => trace limit skip obs call q c
  | _, .opt p, c =>
    match trace limit skip obs call p c with
    | none => some (none, c, [])
    | some (a, c, ps) => some (some a, c, ps)
  | _, .many p, c =>
    match trace limit skip obs call p c with
    | none => some ([], c, [])
    | some (a, c, ps) =>
      match traceRounds skip obs (fun c => trace limit skip obs call p c) limit c with
      | (as, c, qs) => some (a :: as, c, ps ++ qs)
  | _, .spanned p, c =>
    match trace limit skip obs call p c with
    | none => none
    | some (a, c', ps) => some ((⟨c.offset, c'.offset⟩, a), c', ps)
  | _, .labelled label p, c =>
    match trace limit skip obs call p c with
    | none => none
    | some (a, c', ps) => some (a, c', obs.labelled label c c' ps)

/-- The meaning of a rule when calls may be nested at most `depth` deep. -/
def Rules.trace (g : Rules ℓ ρ τ) (obs : Observer ℓ ω) (limit : Nat) :
    (depth : Nat) → ρ → Cursor → Trace ω τ
  | 0, _, _ => none
  | depth + 1, rule, c => (g.body rule).trace limit g.skip obs (g.trace obs limit depth) c

/-- Match an expression against a text from its beginning. -/
def Rules.traceText (g : Rules ℓ ρ τ) (obs : Observer ℓ ω) (p : Peg ℓ ρ τ α)
    (depth : Nat) (cs : List Char) : Trace ω α :=
  p.trace (cs.length + 1) g.skip obs (g.trace obs (cs.length + 1) depth) (.ofText cs)

/-! ### Matches of an expression, kind by kind -/

namespace Peg

variable {limit : Nat} {skip : Cursor → Cursor} {obs : Observer ℓ ω}
  {call : ρ → Cursor → Trace ω τ} {c c' : Cursor} {ps : List ω} {p q : Peg ℓ ρ τ α}

theorem of_trace_lexeme {lex : Lexeme} {a : List Char}
    (h : (lexeme lex : Peg ℓ ρ τ (List Char)).trace limit skip obs call c = some (a, c', ps)) :
    lex c.rest = some (a, c'.rest) ∧ ps = obs.word a := by
  rw [Peg.trace] at h
  split at h
  · cases h
  · rename_i hlex
    cases h
    exact ⟨hlex, rfl⟩

theorem of_trace_map {g : α → β} {b : β}
    (h : (map g p).trace limit skip obs call c = some (b, c', ps)) :
    ∃ a, g a = b ∧ p.trace limit skip obs call c = some (a, c', ps) := by
  rw [Peg.trace] at h
  split at h
  · cases h
  · rename_i a _ _ hsome
    cases h
    exact ⟨a, rfl, hsome⟩

theorem of_trace_seq {q : Peg ℓ ρ τ β} {x : α × β}
    (h : (seq p q).trace limit skip obs call c = some (x, c', ps)) :
    ∃ d qs rs, p.trace limit skip obs call c = some (x.1, d, qs) ∧
      q.trace limit skip obs call (skip d) = some (x.2, c', rs) ∧
      ps = qs ++ (obs.blanks d.rest ++ rs) := by
  rw [Peg.trace] at h
  split at h
  · cases h
  · rename_i a d qs hfirst
    split at h
    · cases h
    · rename_i b c'' rs hsecond
      cases h
      exact ⟨d, qs, rs, hfirst, hsecond, rfl⟩

theorem of_trace_alt {a : α} (h : (alt p q).trace limit skip obs call c = some (a, c', ps)) :
    p.trace limit skip obs call c = some (a, c', ps) ∨
      q.trace limit skip obs call c = some (a, c', ps) := by
  rw [Peg.trace] at h
  split at h
  · rename_i hsome
    exact .inl (hsome.trans h)
  · exact .inr h

theorem of_trace_opt {o : Option α}
    (h : (opt p).trace limit skip obs call c = some (o, c', ps)) :
    (o = none ∧ c' = c ∧ ps = []) ∨
      ∃ a, o = some a ∧ p.trace limit skip obs call c = some (a, c', ps) := by
  rw [Peg.trace] at h
  split at h
  · cases h
    exact .inl ⟨rfl, rfl, rfl⟩
  · rename_i a _ _ hsome
    cases h
    exact .inr ⟨a, rfl, hsome⟩

theorem of_trace_many {as : List α}
    (h : (many p).trace limit skip obs call c = some (as, c', ps)) :
    (as = [] ∧ c' = c ∧ ps = []) ∨
      ∃ a d qs, p.trace limit skip obs call c = some (a, d, qs) ∧
        ∃ rest rs, traceRounds skip obs (p.trace limit skip obs call) limit d = (rest, c', rs) ∧
          as = a :: rest ∧ ps = qs ++ rs := by
  rw [Peg.trace] at h
  split at h
  · cases h
    exact .inl ⟨rfl, rfl, rfl⟩
  · rename_i a d qs hfirst
    cases h
    exact .inr ⟨a, d, qs, hfirst, _, _, rfl, rfl, rfl⟩

theorem of_trace_spanned {x : Span × α}
    (h : (spanned p).trace limit skip obs call c = some (x, c', ps)) :
    x.1 = ⟨c.offset, c'.offset⟩ ∧ p.trace limit skip obs call c = some (x.2, c', ps) := by
  rw [Peg.trace] at h
  split at h
  · cases h
  · rename_i hsome
    cases h
    exact ⟨rfl, hsome⟩

theorem of_trace_labelled {label : ℓ} {a : α}
    (h : (labelled label p).trace limit skip obs call c = some (a, c', ps)) :
    ∃ qs, p.trace limit skip obs call c = some (a, c', qs) ∧
      ps = obs.labelled label c c' qs := by
  rw [Peg.trace] at h
  split at h
  · cases h
  · rename_i hsome
    cases h
    exact ⟨_, hsome, rfl⟩

end Peg

/-! ### The same matches -/

/-- A matcher and one with notes find the same matches. -/
def Matcher.Agrees (m : Matcher ℓ α) (t : Cursor → Trace ω α) : Prop :=
  ∀ c f, (m c f).1 = (t c).found

theorem Matcher.Agrees.cases {m : Matcher ℓ α} {t : Cursor → Trace ω α} (h : m.Agrees t)
    (c : Cursor) (f : Furthest ℓ) : (t c = none ∧ ∃ f', m c f = (none, f')) ∨
      ∃ a c' ps, t c = some (a, c', ps) ∧ ∃ f', m c f = (some (a, c'), f') := by
  have hfst := h c f
  cases ht : t c with
  | none => exact .inl ⟨rfl, _, Prod.ext (hfst.trans (congrArg Trace.found ht)) rfl⟩
  | some x =>
    obtain ⟨a, c', ps⟩ := x
    exact .inr ⟨a, c', ps, rfl, _, Prod.ext (hfst.trans (congrArg Trace.found ht)) rfl⟩

section Agree

variable (skip : Cursor → Cursor) (obs : Observer ℓ ω)

theorem rounds_eq_traceRounds {round : Matcher ℓ α} {round' : Cursor → Trace ω α}
    (h : round.Agrees round') (n : Nat) (c : Cursor) (f : Furthest ℓ) :
    ∃ f', rounds skip round n c f = (((traceRounds skip obs round' n c).1,
      (traceRounds skip obs round' n c).2.1), f') := by
  induction n generalizing c f with
  | zero => exact ⟨f, rfl⟩
  | succ n ih =>
    rw [rounds, traceRounds]
    obtain ⟨ht, f', hr⟩ | ⟨a, c', ps, ht, f', hr⟩ := h.cases (skip c) f
    · exact ⟨f', by rw [ht, hr]⟩
    · obtain ⟨f'', hrest⟩ := ih c' f'
      exact ⟨f'', by rw [ht, hr]; simp only [hrest]⟩

/-- Expressions find the same matches if the rules do. -/
theorem Peg.agrees_trace {call : ρ → Matcher ℓ τ} {call' : ρ → Cursor → Trace ω τ}
    (hcall : ∀ rule, (call rule).Agrees (call' rule)) (limit : Nat) (p : Peg ℓ ρ τ α) :
    Matcher.Agrees (p.run limit skip call) (p.trace limit skip obs call') := by
  induction p with
  | lexeme lex =>
    intro c f
    rw [Peg.run_lexeme, Peg.trace]
    cases lex c.rest <;> rfl
  | call rule => exact hcall rule
  | map g p ih =>
    intro c f
    rw [Peg.run_map, Peg.trace]
    obtain ⟨ht, f', hr⟩ | ⟨a, c', ps, ht, f', hr⟩ := ih.cases c f <;> rw [ht, hr] <;> rfl
  | seq p q ihp ihq =>
    intro c f
    rw [Peg.run_seq, Peg.trace]
    obtain ⟨ht, f', hr⟩ | ⟨a, c', ps, ht, f', hr⟩ := ihp.cases c f
    · rw [ht, hr]
      rfl
    · rw [ht, hr]
      obtain ⟨ht', f'', hr'⟩ | ⟨b, c'', qs, ht', f'', hr'⟩ := ihq.cases (skip c') f' <;>
        simp only [ht', hr'] <;> rfl
  | alt p q ihp ihq =>
    intro c f
    rw [Peg.run_alt, Peg.trace]
    obtain ⟨ht, f', hr⟩ | ⟨a, c', ps, ht, f', hr⟩ := ihp.cases c f
    · rw [ht, hr]
      exact ihq c f'
    · rw [ht, hr]
      rfl
  | opt p ih =>
    intro c f
    rw [Peg.run_opt, Peg.trace]
    obtain ⟨ht, f', hr⟩ | ⟨a, c', ps, ht, f', hr⟩ := ih.cases c f <;> rw [ht, hr] <;> rfl
  | many p ih =>
    intro c f
    rw [Peg.run_many, Peg.trace]
    obtain ⟨ht, f', hr⟩ | ⟨a, c', ps, ht, f', hr⟩ := ih.cases c f
    · rw [ht, hr]
      rfl
    · obtain ⟨f'', hrest⟩ := rounds_eq_traceRounds skip obs ih limit c' f'
      rw [ht, hr]
      simp only [hrest]
      rfl
  | spanned p ih =>
    intro c f
    rw [Peg.run_spanned, Peg.trace]
    obtain ⟨ht, f', hr⟩ | ⟨a, c', ps, ht, f', hr⟩ := ih.cases c f <;> rw [ht, hr] <;> rfl
  | labelled label p ih =>
    intro c f
    rw [Peg.run_labelled, Peg.trace]
    obtain ⟨ht, f', hr⟩ | ⟨a, c', ps, ht, f', hr⟩ := ih.cases c f <;> rw [ht, hr] <;> rfl

end Agree

namespace Rules

variable (g : Rules ℓ ρ τ) (obs : Observer ℓ ω)

theorem agrees_trace (limit depth : Nat) (rule : ρ) :
    (g.parse limit depth rule).Agrees (g.trace obs limit depth rule) := by
  induction depth generalizing rule with
  | zero => exact fun _ _ => rfl
  | succ depth ih => exact Peg.agrees_trace g.skip obs ih limit (g.body rule)

/-- A text is matched exactly if it is with notes. -/
theorem fst_parseText (p : Peg ℓ ρ τ α) (depth : Nat) (cs : List Char) :
    (g.parseText p depth cs).1 = (g.traceText obs p depth cs).found :=
  Peg.agrees_trace g.skip obs (g.agrees_trace obs (cs.length + 1) depth) (cs.length + 1) p
    (.ofText cs) {}

/-- Notes can be taken about every match of a text. -/
theorem exists_traceText {p : Peg ℓ ρ τ α} {depth : Nat} {cs : List Char} {a : α} {c : Cursor}
    {f : Furthest ℓ} (h : g.parseText p depth cs = (some (a, c), f)) :
    ∃ ps, g.traceText obs p depth cs = some (a, c, ps) := by
  have hfound := g.fst_parseText obs p depth cs
  rw [h] at hfound
  obtain ⟨⟨a', c', ps⟩, htrace, heq⟩ := Option.map_eq_some_iff.1 hfound.symm
  cases heq
  exact ⟨ps, htrace⟩

end Rules

end ScriptTypes.Grammar
