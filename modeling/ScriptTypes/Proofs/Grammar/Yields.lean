import Mathlib
import ScriptTypes.Grammar.Peg

/-!
# What matches of parsing expressions satisfy

A condition on matches relates the offset where a match starts, its value, and the offset where it
ends. `Peg.Yields P p Q` says that all matches of `p` satisfy `Q`, if the matches of the rules that
`p` calls satisfy `P`. There is one law for each kind of expression, and `Rules.meets_parse` ties
the knot: what the bodies of all rules yield, the rules satisfy at any depth.

Lexemes take a beginning off a text. So a match moves the cursor over the text that it takes, and
never beyond the end.
-/

namespace ScriptTypes.Grammar

variable {ℓ ρ τ α β : Type}

/-! ### What lexemes take -/

namespace Lexeme

variable {a b : Lexeme} {cs taken rest : List Char}

theorem of_atEnd (h : atEnd cs = some (taken, rest)) : cs = [] ∧ taken = [] ∧ rest = [] := by
  match cs with
  | [] =>
    cases h
    exact ⟨rfl, rfl, rfl⟩

theorem of_exactly {word : List Char} (h : exactly word cs = some (taken, rest)) :
    taken = word ∧ cs = word ++ rest := by
  obtain ⟨rest', hrest, heq⟩ := Option.map_eq_some_iff.1 h
  cases heq
  exact ⟨rfl, Text.dropPrefix?_eq_some_iff.1 hrest⟩

theorem of_one {p : Char → Bool} (h : one p cs = some (taken, rest)) :
    ∃ c, p c = true ∧ taken = [c] ∧ cs = c :: rest := by
  unfold one at h
  split at h
  · cases h
  · split at h
    · rename_i c cs hc
      cases h
      exact ⟨c, hc, rfl, rfl⟩
    · cases h

theorem of_andThen (h : andThen a b cs = some (taken, rest)) :
    ∃ x mid y, a cs = some (x, mid) ∧ b mid = some (y, rest) ∧ taken = x ++ y := by
  unfold andThen at h
  split at h
  · cases h
  · rename_i x mid hx
    obtain ⟨⟨y, rest'⟩, hy, heq⟩ := Option.map_eq_some_iff.1 h
    cases heq
    exact ⟨x, mid, y, hx, hy, rfl⟩

theorem of_orElse (h : orElse a b cs = some (taken, rest)) :
    a cs = some (taken, rest) ∨ b cs = some (taken, rest) := by
  unfold orElse at h
  split at h
  · rename_i hx
    cases h
    exact .inl hx
  · exact .inr h

theorem of_unlessNext {p : Char → Bool} (h : unlessNext a p cs = some (taken, rest)) :
    a cs = some (taken, rest) := by
  unfold unlessNext at h
  split at h
  · rename_i hx
    split at h <;> cases h
    exact hx
  · exact h

/-- What is taken off a text and what is left are the text. -/
def Splits (lex : Lexeme) : Prop :=
  ∀ cs taken rest, lex cs = some (taken, rest) → taken ++ rest = cs

end Lexeme

namespace Lexeme.Splits

variable {a b : Lexeme}

theorem nothing : Splits Lexeme.nothing := by
  rintro cs _ _ ⟨⟩
  rfl

theorem atEnd : Splits Lexeme.atEnd := by
  intro cs taken rest h
  obtain ⟨rfl, rfl, rfl⟩ := of_atEnd h
  rfl

theorem exactly (word : List Char) : Splits (Lexeme.exactly word) := by
  intro cs taken rest h
  obtain ⟨rfl, rfl⟩ := of_exactly h
  rfl

theorem one (p : Char → Bool) : Splits (Lexeme.one p) := by
  intro cs taken rest h
  obtain ⟨c, -, rfl, rfl⟩ := of_one h
  rfl

theorem run (p : Char → Bool) : Splits (Lexeme.run p) := by
  rintro cs _ _ ⟨⟩
  exact List.takeWhile_append_dropWhile

theorem andThen (ha : Splits a) (hb : Splits b) : Splits (Lexeme.andThen a b) := by
  intro cs taken rest h
  obtain ⟨x, mid, y, hx, hy, rfl⟩ := of_andThen h
  rw [List.append_assoc, hb _ _ _ hy, ha _ _ _ hx]

theorem orElse (ha : Splits a) (hb : Splits b) : Splits (Lexeme.orElse a b) := by
  intro cs taken rest h
  rcases of_orElse h with h | h
  · exact ha _ _ _ h
  · exact hb _ _ _ h

theorem orNothing (ha : Splits a) : Splits (Lexeme.orNothing a) := ha.orElse nothing

theorem unlessNext (ha : Splits a) (p : Char → Bool) : Splits (Lexeme.unlessNext a p) :=
  fun cs taken rest h => ha cs taken rest (of_unlessNext h)

theorem through (stop : List Char) : Splits (Lexeme.through stop) := by
  intro cs taken rest h
  induction cs generalizing taken with
  | nil =>
    unfold Lexeme.through at h
    split at h <;> cases h
    rfl
  | cons c cs ih =>
    unfold Lexeme.through at h
    split at h
    · rename_i hrest
      cases h
      exact (Text.dropPrefix?_eq_some_iff.1 hrest).symm
    · obtain ⟨⟨x, rest'⟩, hx, heq⟩ := Option.map_eq_some_iff.1 h
      cases heq
      rw [List.cons_append, ih _ hx]

end Lexeme.Splits

/-- The size of the text up to a cursor and after it. -/
def Cursor.total (c : Cursor) : Nat := c.offset + Text.byteSize c.rest

theorem Cursor.total_advance {c : Cursor} {taken rest : List Char} (h : taken ++ rest = c.rest) :
    (c.advance taken rest).total = c.total := by
  rw [total, total, ← h, Text.byteSize_append]
  exact Nat.add_assoc _ _ _

/-! ### Conditions on matches -/

/-- A condition on a match: where it starts, its value, and where it ends. -/
abbrev Condition (α : Type) := (start : Nat) → α → (stop : Nat) → Prop

/-- Matches that follow one another, with room between them. -/
def Condition.each (Q : Condition α) : Condition (List α)
  | start, [], stop => start ≤ stop
  | start, a :: as, stop => ∃ left right, start ≤ left ∧ Q left a right ∧ each Q right as stop

/-- All matches stay inside the text and satisfy a condition. -/
def Matcher.Meets (m : Matcher ℓ α) (Q : Condition α) : Prop :=
  ∀ c f a c' f', m c f = (some (a, c'), f') → Q c.offset a c'.offset ∧ c'.total = c.total

/-- Blanks are skipped inside the text. -/
structure Skips (skip : Cursor → Cursor) : Prop where
  le : ∀ c, c.offset ≤ (skip c).offset
  total : ∀ c, (skip c).total = c.total

namespace Peg

/-- All matches of `p` satisfy `Q` where the matches of each rule satisfy `P`. -/
def Yields (P : ρ → Condition τ) (p : Peg ℓ ρ τ α) (Q : Condition α) : Prop :=
  ∀ (limit : Nat) (skip : Cursor → Cursor) (call : ρ → Matcher ℓ τ), Skips skip →
    (∀ rule, (call rule).Meets (P rule)) → Matcher.Meets (p.run limit skip call) Q

namespace Yields

variable {P : ρ → Condition τ} {p q : Peg ℓ ρ τ α} {Q R : Condition α}

theorem mono (h : Yields P p Q) (himp : ∀ start a stop, Q start a stop → R start a stop) :
    Yields P p R := by
  intro limit skip call hskip hcall c f a c' f' hrun
  exact (h limit skip call hskip hcall c f a c' f' hrun).imp_left (himp _ _ _)

theorem lexeme {lex : Lexeme} {Q : Condition (List Char)} (hsplits : lex.Splits)
    (h : ∀ start cs taken rest, lex cs = some (taken, rest) →
      Q start taken (start + Text.byteSize taken)) :
    Yields P (.lexeme lex : Peg ℓ ρ τ (List Char)) Q := by
  intro limit skip call _ _ c f a c' f' hrun
  rw [Peg.run_lexeme] at hrun
  split at hrun
  · cases hrun
  · rename_i taken rest hlex
    cases hrun
    exact ⟨h c.offset c.rest a rest hlex, c.total_advance (hsplits _ _ _ hlex)⟩

theorem call (rule : ρ) : Yields P (.call rule : Peg ℓ ρ τ τ) (P rule) := by
  intro limit skip call _ hcall c f a c' f' hrun
  exact hcall rule c f a c' f' hrun

theorem map {g : α → β} {R : Condition β} (h : Yields P p Q)
    (himp : ∀ start a stop, Q start a stop → R start (g a) stop) : Yields P (.map g p) R := by
  intro limit skip call hskip hcall c f b c' f' hrun
  rw [Peg.run_map] at hrun
  split at hrun
  · cases hrun
  · rename_i a d f'' hp
    cases hrun
    exact (h limit skip call hskip hcall _ _ _ _ _ hp).imp_left (himp _ _ _)

theorem seq {q : Peg ℓ ρ τ β} {R : Condition β} (hp : Yields P p Q) (hq : Yields P q R) :
    Yields P (.seq p q) fun start x stop =>
      ∃ left right, Q start x.1 left ∧ left ≤ right ∧ R right x.2 stop := by
  intro limit skip call hskip hcall c f x c' f' hrun
  rw [Peg.run_seq] at hrun
  split at hrun
  · cases hrun
  · rename_i a d f'' hfirst
    split at hrun
    · cases hrun
    · rename_i b e f''' hsecond
      cases hrun
      obtain ⟨ha, htotal⟩ := hp limit skip call hskip hcall _ _ _ _ _ hfirst
      obtain ⟨hb, htotal'⟩ := hq limit skip call hskip hcall _ _ _ _ _ hsecond
      exact ⟨⟨_, _, ha, hskip.le d, hb⟩, (htotal'.trans (hskip.total d)).trans htotal⟩

theorem alt (hp : Yields P p Q) (hq : Yields P q Q) : Yields P (.alt p q) Q := by
  intro limit skip call hskip hcall c f a c' f' hrun
  rw [Peg.run_alt] at hrun
  split at hrun
  · rename_i r f'' hfirst
    cases hrun
    exact hp limit skip call hskip hcall _ _ _ _ _ hfirst
  · exact hq limit skip call hskip hcall _ _ _ _ _ hrun

theorem oneOf {qs : List (Peg ℓ ρ τ α)} (hp : Yields P p Q) (hqs : ∀ q ∈ qs, Yields P q Q) :
    Yields P (p.oneOf qs) Q := by
  induction qs generalizing p with
  | nil => exact hp
  | cons q qs ih =>
    obtain ⟨hq, hqs⟩ := List.forall_mem_cons.1 hqs
    exact hp.alt (ih hq hqs)

theorem opt (h : Yields P p Q) :
    Yields P (.opt p) fun start o stop =>
      (o = none ∧ start = stop) ∨ ∃ a, o = some a ∧ Q start a stop := by
  intro limit skip call hskip hcall c f o c' f' hrun
  rw [Peg.run_opt] at hrun
  split at hrun
  · cases hrun
    exact ⟨.inl ⟨rfl, rfl⟩, rfl⟩
  · rename_i a d f'' hsome
    cases hrun
    exact (h limit skip call hskip hcall _ _ _ _ _ hsome).imp_left fun ha => .inr ⟨a, rfl, ha⟩

/-- The rounds of a repetition after the first one. -/
theorem meets_rounds {skip : Cursor → Cursor} (hskip : Skips skip) {round : Matcher ℓ α}
    (h : round.Meets Q) (n : Nat) (c : Cursor) (f : Furthest ℓ) :
    Q.each c.offset (rounds skip round n c f).1.1 (rounds skip round n c f).1.2.offset ∧
      (rounds skip round n c f).1.2.total = c.total := by
  induction n generalizing c f with
  | zero => exact ⟨Nat.le_refl _, rfl⟩
  | succ n ih =>
    rw [rounds]
    split
    · exact ⟨Nat.le_refl _, rfl⟩
    · rename_i a d f' hround
      obtain ⟨ha, htotal⟩ := h _ _ _ _ _ hround
      obtain ⟨hrest, htotal'⟩ := ih d f'
      exact ⟨⟨_, _, hskip.le c, ha, hrest⟩, (htotal'.trans htotal).trans (hskip.total c)⟩

theorem many (h : Yields P p Q) : Yields P (.many p) Q.each := by
  intro limit skip call hskip hcall c f as c' f' hrun
  rw [Peg.run_many] at hrun
  split at hrun
  · cases hrun
    exact ⟨Nat.le_refl _, rfl⟩
  · rename_i a d f'' hfirst
    cases hrun
    obtain ⟨ha, htotal⟩ := h limit skip call hskip hcall _ _ _ _ _ hfirst
    obtain ⟨hrest, htotal'⟩ := meets_rounds hskip (h limit skip call hskip hcall) limit d f''
    exact ⟨⟨_, _, Nat.le_refl _, ha, hrest⟩, htotal'.trans htotal⟩

theorem spanned (h : Yields P p Q) :
    Yields P (.spanned p) fun start x stop => x.1 = ⟨start, stop⟩ ∧ Q start x.2 stop := by
  intro limit skip call hskip hcall c f x c' f' hrun
  rw [Peg.run_spanned] at hrun
  split at hrun
  · cases hrun
  · rename_i a d f'' hp
    cases hrun
    exact (h limit skip call hskip hcall _ _ _ _ _ hp).imp_left fun ha => ⟨rfl, ha⟩

theorem labelled (label : ℓ) (h : Yields P p Q) : Yields P (.labelled label p) Q := by
  intro limit skip call hskip hcall c f a c' f' hrun
  rw [Peg.run_labelled] at hrun
  split at hrun
  · cases hrun
  · rename_i r f'' hp
    cases hrun
    exact h limit skip call hskip hcall _ _ _ _ _ hp

end Yields

end Peg

namespace Rules

variable {g : Rules ℓ ρ τ} {P : ρ → Condition τ}

theorem skips (h : ∀ cs, (g.blanks cs).1 ++ (g.blanks cs).2 = cs) : Skips g.skip where
  le _ := Nat.le_add_right _ _
  total c := c.total_advance (h c.rest)

/-- What the bodies of the rules yield, the rules satisfy. -/
theorem meets_parse (hskip : Skips g.skip) (h : ∀ rule, (g.body rule).Yields P (P rule))
    (limit depth : Nat) (rule : ρ) : (g.parse limit depth rule).Meets (P rule) := by
  induction depth generalizing rule with
  | zero =>
    intro c f a c' f' hrun
    cases hrun
  | succ depth ih => exact h rule limit g.skip (g.parse limit depth) hskip ih

/-- A match from the beginning of a text satisfies its condition and ends inside the text. -/
theorem meets_parseText (hskip : Skips g.skip) (h : ∀ rule, (g.body rule).Yields P (P rule))
    {p : Peg ℓ ρ τ α} {Q : Condition α} (hp : p.Yields P Q) {depth : Nat} {cs : List Char} {a : α}
    {c : Cursor} {f : Furthest ℓ} (hparse : g.parseText p depth cs = (some (a, c), f)) :
    Q 0 a c.offset ∧ c.offset ≤ Text.byteSize cs := by
  obtain ⟨ha, htotal⟩ := hp _ g.skip _ hskip (meets_parse hskip h _ depth) _ _ _ _ _ hparse
  have hstart : (Cursor.ofText cs).total = Text.byteSize cs := Nat.zero_add _
  refine ⟨ha, ?_⟩
  rw [← hstart, ← htotal]
  exact Nat.le_add_right _ _

end Rules

end ScriptTypes.Grammar
