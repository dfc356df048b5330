import ScriptTypes.Grammar.Peg

/-!
# Which texts parsing expressions match

`Matches p cs A rest` says that an expression matches a beginning of a text, wherever the text
stands and whatever failed before, that it leaves `rest`, and that the value of the match satisfies
`A`; `Refuses p cs` says that there is no match. There is a law for each kind of expression, so that
a match is put together along the text. Choice is ordered, so for a match of a later alternative the
earlier ones must refuse; most do because of the first character. `Opens S p` says that all texts
that `p` matches start with a character in `S`.
-/

namespace ScriptTypes.Grammar

variable {ℓ ρ τ α β : Type}

/-- The text after the blanks in front of it. -/
def Rules.skipped (g : Rules ℓ ρ τ) (cs : List Char) : List Char := (g.blanks cs).2

theorem Rules.exists_skip (g : Rules ℓ ρ τ) (cs : List Char) (offset : Nat) :
    ∃ offset', g.skip ⟨cs, offset⟩ = ⟨g.skipped cs, offset'⟩ :=
  ⟨_, rfl⟩

variable (g : Rules ℓ ρ τ) (limit depth : Nat)

/-- The expression matches and leaves `rest`, with a value that satisfies `A`. -/
def Matches (p : Peg ℓ ρ τ α) (cs : List Char) (A : α → Prop) (rest : List Char) : Prop :=
  ∀ offset f, ∃ a offset' f', p.run limit g.skip (g.parse limit depth) ⟨cs, offset⟩ f
    = (some (a, ⟨rest, offset'⟩), f') ∧ A a

/-- The expression does not match. -/
def Refuses (p : Peg ℓ ρ τ α) (cs : List Char) : Prop :=
  ∀ offset f, ∃ f', p.run limit g.skip (g.parse limit depth) ⟨cs, offset⟩ f = (none, f')

/-- Further rounds of a repetition, at most `n`, leave `rest`. -/
def MatchesRounds (p : Peg ℓ ρ τ α) (n : Nat) (cs : List Char) (A : List α → Prop)
    (rest : List Char) : Prop :=
  ∀ offset f, ∃ as offset' f',
    rounds g.skip (fun c f => p.run limit g.skip (g.parse limit depth) c f) n ⟨cs, offset⟩ f
      = ((as, ⟨rest, offset'⟩), f') ∧ A as

variable {g limit depth} {p q : Peg ℓ ρ τ α} {r : Peg ℓ ρ τ β} {cs mid rest : List Char}
  {A : α → Prop} {B : β → Prop}

namespace Matches

theorem weaken (h : Matches g limit depth p cs A rest) {A' : α → Prop} (hA : ∀ a, A a → A' a) :
    Matches g limit depth p cs A' rest := by
  intro offset f
  obtain ⟨a, offset', f', hrun, ha⟩ := h offset f
  exact ⟨a, offset', f', hrun, hA a ha⟩

theorem lexeme {lex : Lexeme} {taken : List Char} (h : lex cs = some (taken, rest)) :
    Matches g limit depth (.lexeme lex) cs (· = taken) rest := by
  intro offset f
  exact ⟨taken, _, f, by rw [Peg.run_lexeme, h]; rfl, rfl⟩

theorem call {rule : ρ} {A : τ → Prop} (h : Matches g limit depth (g.body rule) cs A rest) :
    Matches g limit (depth + 1) (.call rule) cs A rest := h

theorem map {k : α → β} (h : Matches g limit depth p cs A rest) (hB : ∀ a, A a → B (k a)) :
    Matches g limit depth (.map k p) cs B rest := by
  intro offset f
  obtain ⟨a, offset', f', hrun, ha⟩ := h offset f
  exact ⟨k a, offset', f', by rw [Peg.run_map, hrun], hB a ha⟩

theorem seq (hp : Matches g limit depth p cs A mid)
    (hr : Matches g limit depth r (g.skipped mid) B rest) :
    Matches g limit depth (.seq p r) cs (fun x => A x.1 ∧ B x.2) rest := by
  intro offset f
  obtain ⟨a, offset', f', hrun, ha⟩ := hp offset f
  obtain ⟨offset'', hskip⟩ := g.exists_skip mid offset'
  obtain ⟨b, offset''', f'', hrun', hb⟩ := hr offset'' f'
  refine ⟨(a, b), offset''', f'', ?_, ha, hb⟩
  rw [Peg.run_seq, hrun]
  simp only
  rw [hskip, hrun']

theorem right (hp : Matches g limit depth p cs A mid)
    (hr : Matches g limit depth r (g.skipped mid) B rest) :
    Matches g limit depth (.right p r) cs B rest :=
  (hp.seq hr).map fun _ h => h.2

theorem left (hp : Matches g limit depth p cs A mid)
    (hr : Matches g limit depth r (g.skipped mid) B rest) :
    Matches g limit depth (.left p r) cs A rest :=
  (hp.seq hr).map fun _ h => h.1

theorem alt_left (h : Matches g limit depth p cs A rest) :
    Matches g limit depth (.alt p q) cs A rest := by
  intro offset f
  obtain ⟨a, offset', f', hrun, ha⟩ := h offset f
  exact ⟨a, offset', f', by rw [Peg.run_alt, hrun], ha⟩

theorem alt_right (hp : Refuses g limit depth p cs) (h : Matches g limit depth q cs A rest) :
    Matches g limit depth (.alt p q) cs A rest := by
  intro offset f
  obtain ⟨f', hrun⟩ := hp offset f
  obtain ⟨a, offset', f'', hrun', ha⟩ := h offset f'
  exact ⟨a, offset', f'', by rw [Peg.run_alt, hrun, ← hrun'], ha⟩

/-- The alternative behind a list of alternatives that refuse. -/
theorem oneOf (before : List (Peg ℓ ρ τ α)) {after : List (Peg ℓ ρ τ α)}
    (hp : Refuses g limit depth p cs) (hbefore : ∀ b ∈ before, Refuses g limit depth b cs)
    (h : Matches g limit depth q cs A rest) :
    Matches g limit depth (.oneOf p (before ++ q :: after)) cs A rest := by
  induction before generalizing p with
  | nil =>
    refine alt_right hp ?_
    cases after with
    | nil => exact h
    | cons _ _ => exact h.alt_left
  | cons b before ih =>
    obtain ⟨hb, hbefore⟩ := List.forall_mem_cons.1 hbefore
    exact alt_right hp (ih hb hbefore)

theorem opt_some (h : Matches g limit depth p cs A rest) :
    Matches g limit depth (.opt p) cs (fun o => ∃ a, o = some a ∧ A a) rest := by
  intro offset f
  obtain ⟨a, offset', f', hrun, ha⟩ := h offset f
  exact ⟨some a, offset', f', by rw [Peg.run_opt, hrun], a, rfl, ha⟩

theorem opt_none (h : Refuses g limit depth p cs) :
    Matches g limit depth (.opt p) cs (· = none) cs := by
  intro offset f
  obtain ⟨f', hrun⟩ := h offset f
  exact ⟨none, offset, f', by rw [Peg.run_opt, hrun], rfl⟩

theorem many_nil (h : Refuses g limit depth p cs) :
    Matches g limit depth (.many p) cs (· = []) cs := by
  intro offset f
  obtain ⟨f', hrun⟩ := h offset f
  exact ⟨[], offset, f', by rw [Peg.run_many, hrun], rfl⟩

theorem many_cons {As : List α → Prop} (h : Matches g limit depth p cs A mid)
    (hrounds : MatchesRounds g limit depth p limit mid As rest) :
    Matches g limit depth (.many p) cs (fun as => ∃ a as', as = a :: as' ∧ A a ∧ As as') rest := by
  intro offset f
  obtain ⟨a, offset', f', hrun, ha⟩ := h offset f
  obtain ⟨as, offset'', f'', hrun', has⟩ := hrounds offset' f'
  refine ⟨a :: as, offset'', f'', ?_, a, as, rfl, ha, has⟩
  rw [Peg.run_many, hrun]
  simp only
  rw [hrun']

theorem spanned (h : Matches g limit depth p cs A rest) :
    Matches g limit depth (.spanned p) cs (fun x => A x.2) rest := by
  intro offset f
  obtain ⟨a, offset', f', hrun, ha⟩ := h offset f
  exact ⟨(⟨offset, offset'⟩, a), offset', f', by rw [Peg.run_spanned, hrun], ha⟩

theorem labelled (h : Matches g limit depth p cs A rest) (label : ℓ) :
    Matches g limit depth (.labelled label p) cs A rest := by
  intro offset f
  obtain ⟨a, offset', f', hrun, ha⟩ := h offset f
  exact ⟨a, offset', f', by rw [Peg.run_labelled]; simp only [hrun], ha⟩

end Matches

namespace MatchesRounds

theorem weaken {As As' : List α → Prop} {n : Nat} (h : MatchesRounds g limit depth p n cs As rest)
    (hAs : ∀ as, As as → As' as) : MatchesRounds g limit depth p n cs As' rest := by
  intro offset f
  obtain ⟨as, offset', f', hrun, has⟩ := h offset f
  exact ⟨as, offset', f', hrun, hAs as has⟩

theorem nil (h : Refuses g limit depth p (g.skipped cs)) (n : Nat) :
    MatchesRounds g limit depth p n cs (· = []) cs := by
  intro offset f
  cases n with
  | zero => exact ⟨[], offset, f, rfl, rfl⟩
  | succ n =>
    obtain ⟨offset', hskip⟩ := g.exists_skip cs offset
    obtain ⟨f', hrun⟩ := h offset' f
    exact ⟨[], offset, f', by rw [rounds, hskip, hrun], rfl⟩

theorem cons {As : List α → Prop} {n : Nat} (h : Matches g limit depth p (g.skipped cs) A mid)
    (hrounds : MatchesRounds g limit depth p n mid As rest) :
    MatchesRounds g limit depth p (n + 1) cs (fun as => ∃ a as', as = a :: as' ∧ A a ∧ As as')
      rest := by
  intro offset f
  obtain ⟨offset', hskip⟩ := g.exists_skip cs offset
  obtain ⟨a, offset'', f', hrun, ha⟩ := h offset' f
  obtain ⟨as, offset''', f'', hrun', has⟩ := hrounds offset'' f'
  refine ⟨a :: as, offset''', f'', ?_, a, as, rfl, ha, has⟩
  rw [rounds, hskip, hrun]
  simp only
  rw [hrun']

end MatchesRounds

namespace Refuses

theorem lexeme {lex : Lexeme} (h : lex cs = none) : Refuses g limit depth (.lexeme lex) cs :=
  fun _ f => ⟨f, by rw [Peg.run_lexeme, h]⟩

theorem call {rule : ρ} (h : ∀ depth, Refuses g limit depth (g.body rule) cs) :
    Refuses g limit depth (.call rule) cs := by
  cases depth with
  | zero => exact fun _ f => ⟨f, rfl⟩
  | succ depth => exact h depth

theorem map {k : α → β} (h : Refuses g limit depth p cs) :
    Refuses g limit depth (.map k p) cs := by
  intro offset f
  obtain ⟨f', hrun⟩ := h offset f
  exact ⟨f', by rw [Peg.run_map, hrun]⟩

theorem seq_left (h : Refuses g limit depth p cs) : Refuses g limit depth (.seq p r) cs := by
  intro offset f
  obtain ⟨f', hrun⟩ := h offset f
  exact ⟨f', by rw [Peg.run_seq, hrun]⟩

theorem seq_right (hp : Matches g limit depth p cs A mid)
    (hr : Refuses g limit depth r (g.skipped mid)) : Refuses g limit depth (.seq p r) cs := by
  intro offset f
  obtain ⟨a, offset', f', hrun, -⟩ := hp offset f
  obtain ⟨offset'', hskip⟩ := g.exists_skip mid offset'
  obtain ⟨f'', hrun'⟩ := hr offset'' f'
  refine ⟨f'', ?_⟩
  rw [Peg.run_seq, hrun]
  simp only
  rw [hskip, hrun']

theorem alt (hp : Refuses g limit depth p cs) (hq : Refuses g limit depth q cs) :
    Refuses g limit depth (.alt p q) cs := by
  intro offset f
  obtain ⟨f', hrun⟩ := hp offset f
  obtain ⟨f'', hrun'⟩ := hq offset f'
  exact ⟨f'', by rw [Peg.run_alt, hrun, ← hrun']⟩

theorem oneOf {ps : List (Peg ℓ ρ τ α)} (hp : Refuses g limit depth p cs)
    (h : ∀ q ∈ ps, Refuses g limit depth q cs) : Refuses g limit depth (.oneOf p ps) cs := by
  induction ps generalizing p with
  | nil => exact hp
  | cons q ps ih =>
    obtain ⟨hq, h⟩ := List.forall_mem_cons.1 h
    exact hp.alt (ih hq h)

theorem spanned (h : Refuses g limit depth p cs) : Refuses g limit depth (.spanned p) cs := by
  intro offset f
  obtain ⟨f', hrun⟩ := h offset f
  exact ⟨f', by rw [Peg.run_spanned, hrun]⟩

theorem labelled (h : Refuses g limit depth p cs) (label : ℓ) :
    Refuses g limit depth (.labelled label p) cs := by
  intro offset f
  obtain ⟨f', hrun⟩ := h offset f
  exact ⟨_, by rw [Peg.run_labelled]; simp only [hrun]; rfl⟩

end Refuses

/-! ### First characters -/

/-- All texts that the lexeme takes something off start with a character in `S`. -/
def Lexeme.Opens (S : Char → Bool) (lex : Lexeme) : Prop :=
  ∀ cs, (∀ c ∈ cs.head?, S c = false) → lex cs = none

namespace Lexeme.Opens

variable {S : Char → Bool} {a b : Lexeme}

theorem exactly {word : List Char} (h : word.head?.any S = true) : Opens S (exactly word) := by
  intro cs hcs
  cases word with
  | nil => cases h
  | cons w word =>
    cases cs with
    | nil => rfl
    | cons c cs =>
      have hne : w ≠ c := by
        rintro rfl
        exact Bool.false_ne_true ((hcs w rfl).symm.trans h)
      rw [Lexeme.exactly, Text.dropPrefix?, if_neg hne]
      rfl

theorem one {k : Char → Bool} (h : ∀ c, k c = true → S c = true) : Opens S (one k) := by
  intro cs hcs
  cases cs with
  | nil => rfl
  | cons c cs =>
    refine if_neg fun hk => ?_
    exact Bool.false_ne_true ((hcs c rfl).symm.trans (h c hk))

theorem andThen (h : Opens S a) : Opens S (andThen a b) := by
  intro cs hcs
  rw [Lexeme.andThen, h cs hcs]

theorem orElse (ha : Opens S a) (hb : Opens S b) : Opens S (orElse a b) := by
  intro cs hcs
  rw [Lexeme.orElse, ha cs hcs]
  exact hb cs hcs

theorem unlessNext (h : Opens S a) (k : Char → Bool) : Opens S (unlessNext a k) := by
  intro cs hcs
  rw [Lexeme.unlessNext, h cs hcs]

end Lexeme.Opens

/-- All texts that the expression matches, blanks in front apart, start with a character in `S`. -/
def Opens (g : Rules ℓ ρ τ) (S : Char → Bool) (p : Peg ℓ ρ τ α) : Prop :=
  ∀ limit depth cs, g.skipped cs = cs → (∀ c ∈ cs.head?, S c = false) → Refuses g limit depth p cs

namespace Opens

variable {S : Char → Bool}

theorem refuses (h : Opens g S p) {c : Char} (hc : S c = false)
    (hskip : g.skipped (c :: cs) = c :: cs) : Refuses g limit depth p (c :: cs) :=
  h limit depth _ hskip fun _ heq => Option.some.inj heq ▸ hc

theorem lexeme {lex : Lexeme} (h : lex.Opens S) : Opens g S (.lexeme lex) :=
  fun _ _ cs _ hcs => .lexeme (h cs hcs)

theorem call {rule : ρ} (h : Opens g S (g.body rule)) : Opens g S (.call rule) :=
  fun limit _ cs hskip hcs => .call fun depth => h limit depth cs hskip hcs

theorem map {k : α → β} (h : Opens g S p) : Opens g S (.map k p) :=
  fun limit depth cs hskip hcs => (h limit depth cs hskip hcs).map

theorem seq (h : Opens g S p) : Opens g S (.seq p r) :=
  fun limit depth cs hskip hcs => (h limit depth cs hskip hcs).seq_left

theorem right (h : Opens g S p) : Opens g S (.right p r) := h.seq.map

theorem left (h : Opens g S p) : Opens g S (.left p r) := h.seq.map

/-- A repetition that matches nothing leaves the text to what follows. -/
theorem many_seq (hp : Opens g S p) (hr : Opens g S r) : Opens g S (.seq (.many p) r) := by
  intro limit depth cs hskip hcs
  refine .seq_right (.many_nil (hp limit depth cs hskip hcs)) ?_
  rw [hskip]
  exact hr limit depth cs hskip hcs

theorem alt (hp : Opens g S p) (hq : Opens g S q) : Opens g S (.alt p q) :=
  fun limit depth cs hskip hcs => (hp limit depth cs hskip hcs).alt (hq limit depth cs hskip hcs)

theorem oneOf {ps : List (Peg ℓ ρ τ α)} (hp : Opens g S p) (h : ∀ q ∈ ps, Opens g S q) :
    Opens g S (.oneOf p ps) :=
  fun limit depth cs hskip hcs =>
    .oneOf (hp limit depth cs hskip hcs) fun q hq => h q hq limit depth cs hskip hcs

theorem spanned (h : Opens g S p) : Opens g S (.spanned p) :=
  fun limit depth cs hskip hcs => (h limit depth cs hskip hcs).spanned

theorem labelled (h : Opens g S p) (label : ℓ) : Opens g S (.labelled label p) :=
  fun limit depth cs hskip hcs => (h limit depth cs hskip hcs).labelled label

end Opens

end ScriptTypes.Grammar
