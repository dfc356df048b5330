import ScriptTypes.Proofs.Grammar.Yields

/-!
# Limits that are never reached

Matching has two limits: on the rounds of a repetition, and on the nesting of calls. Every round
takes a character, so there are no more rounds than characters. A call may be made before its rule
has taken a character, but only to a rule of lower rank; so calls are nested at most as deep as the
number of characters times the number of ranks.

`Peg.Advances` and `Peg.Leads` read both off an expression. `Rules.parse_eq_of_lt` says that larger
limits give the same outcome, failures included.
-/

namespace ScriptTypes.Grammar

variable {ℓ ρ τ α β : Type}

/-! ### What an expression takes, and what it calls first -/

/-- Every match takes a character, if the matches of rules do. -/
def Peg.Advances : {α : Type} → Peg ℓ ρ τ α → Prop
  | _, .lexeme lex => ∀ cs taken rest, lex cs = some (taken, rest) → rest.length < cs.length
  | _, .call _ => True
  | _, .map _ p | _, .spanned p | _, .labelled _ p => Advances p
  | _, .seq p q => Advances p ∨ Advances q
  | _, .alt p q => Advances p ∧ Advances q
  | _, .opt _ | _, .many _ => False

/-- The rules that are called before a character is taken satisfy a condition. All lexemes take a
beginning off a text, and every round of a repetition takes a character. -/
def Peg.Leads : (P : ρ → Prop) → {α : Type} → Peg ℓ ρ τ α → Prop
  | _, _, .lexeme lex => lex.Splits
  | P, _, .call rule => P rule
  | P, _, .map _ p | P, _, .opt p | P, _, .spanned p | P, _, .labelled _ p => Leads P p
  | P, _, .many p => Leads P p ∧ p.Advances
  | P, _, .seq p q => Leads P p ∧ (p.Advances ∧ Leads (fun _ => True) q ∨ Leads P q)
  | P, _, .alt p q => Leads P p ∧ Leads P q

theorem Peg.Leads.mono {p : Peg ℓ ρ τ α} {P Q : ρ → Prop} (h : p.Leads P)
    (himp : ∀ rule, P rule → Q rule) : p.Leads Q := by
  induction p with
  | lexeme => exact h
  | call rule => exact himp rule h
  | map _ _ ih | opt _ ih | spanned _ ih | labelled _ _ ih => exact ih h
  | many p ih => exact ⟨ih h.1, h.2⟩
  | seq p q ihp ihq => exact ⟨ihp h.1, h.2.imp_right ihq⟩
  | alt p q ihp ihq => exact ⟨ihp h.1, ihq h.2⟩

namespace Peg

variable {P : ρ → Prop} {p q : Peg ℓ ρ τ α} {r : Peg ℓ ρ τ β}

@[simp] theorem advances_call (rule : ρ) : (call rule : Peg ℓ ρ τ τ).Advances := trivial

@[simp] theorem advances_map {g : α → β} : (map g p).Advances ↔ p.Advances := Iff.rfl

@[simp] theorem advances_spanned : (spanned p).Advances ↔ p.Advances := Iff.rfl

@[simp] theorem advances_labelled {label : ℓ} : (labelled label p).Advances ↔ p.Advances := Iff.rfl

@[simp] theorem advances_seq : (seq p r).Advances ↔ p.Advances ∨ r.Advances := Iff.rfl

@[simp] theorem advances_right : (right p r).Advances ↔ p.Advances ∨ r.Advances := Iff.rfl

@[simp] theorem advances_left : (left p r).Advances ↔ p.Advances ∨ r.Advances := Iff.rfl

@[simp] theorem advances_oneOf {qs : List (Peg ℓ ρ τ α)} :
    (p.oneOf qs).Advances ↔ p.Advances ∧ ∀ q ∈ qs, q.Advances := by
  induction qs generalizing p with
  | nil => simp [oneOf]
  | cons q qs ih =>
    rw [List.forall_mem_cons, ← ih]
    exact Iff.rfl

@[simp] theorem leads_call {rule : ρ} : (call rule : Peg ℓ ρ τ τ).Leads P ↔ P rule := Iff.rfl

@[simp] theorem leads_map {g : α → β} : (map g p).Leads P ↔ p.Leads P := Iff.rfl

@[simp] theorem leads_opt : (opt p).Leads P ↔ p.Leads P := Iff.rfl

@[simp] theorem leads_many : (many p).Leads P ↔ p.Leads P ∧ p.Advances := Iff.rfl

@[simp] theorem leads_spanned : (spanned p).Leads P ↔ p.Leads P := Iff.rfl

@[simp] theorem leads_labelled {label : ℓ} : (labelled label p).Leads P ↔ p.Leads P := Iff.rfl

@[simp] theorem leads_seq : (seq p r).Leads P ↔
    p.Leads P ∧ (p.Advances ∧ r.Leads (fun _ => True) ∨ r.Leads P) := Iff.rfl

@[simp] theorem leads_right : (right p r).Leads P ↔
    p.Leads P ∧ (p.Advances ∧ r.Leads (fun _ => True) ∨ r.Leads P) := Iff.rfl

@[simp] theorem leads_left : (left p r).Leads P ↔
    p.Leads P ∧ (p.Advances ∧ r.Leads (fun _ => True) ∨ r.Leads P) := Iff.rfl

@[simp] theorem leads_oneOf {qs : List (Peg ℓ ρ τ α)} :
    (p.oneOf qs).Leads P ↔ p.Leads P ∧ ∀ q ∈ qs, q.Leads P := by
  induction qs generalizing p with
  | nil => simp [oneOf]
  | cons q qs ih =>
    rw [List.forall_mem_cons, ← ih]
    exact Iff.rfl

end Peg

/-! ### Matches shorten the text -/

/-- No match leaves more text than there was, and if `strict` holds it leaves less. -/
def Matcher.Shortens (strict : Prop) (m : Matcher ℓ α) : Prop :=
  ∀ c f a c' f', m c f = (some (a, c'), f') →
    c'.rest.length ≤ c.rest.length ∧ (strict → c'.rest.length < c.rest.length)

section Shortens

variable {skip : Cursor → Cursor} (hskip : ∀ c, (skip c).rest.length ≤ c.rest.length)
include hskip

theorem length_rounds_le {round : Matcher ℓ α} {strict : Prop} (h : round.Shortens strict) (n : Nat)
    (c : Cursor) (f : Furthest ℓ) :
    (rounds skip round n c f).1.2.rest.length ≤ c.rest.length := by
  induction n generalizing c f with
  | zero => exact Nat.le_refl _
  | succ n ih =>
    rw [rounds]
    split
    · exact Nat.le_refl _
    · rename_i a c' f' hround
      exact (ih c' f').trans ((h _ _ _ _ _ hround).1.trans (hskip c))

theorem Peg.shortens_run {P : ρ → Prop} {p : Peg ℓ ρ τ α} (hp : p.Leads P) (limit : Nat)
    {call : ρ → Matcher ℓ τ} (hcall : ∀ rule, (call rule).Shortens True) :
    Matcher.Shortens p.Advances (p.run limit skip call) := by
  induction p generalizing P with
  | lexeme lex =>
    intro c f a c' f' hrun
    rw [Peg.run_lexeme] at hrun
    split at hrun
    · cases hrun
    · rename_i rest hlex
      cases hrun
      refine ⟨?_, fun h => h _ _ _ hlex⟩
      rw [← hp _ _ _ hlex, List.length_append]
      exact Nat.le_add_left _ _
  | call rule => exact hcall rule
  | map g p ih =>
    intro c f b c' f' hrun
    rw [Peg.run_map] at hrun
    split at hrun
    · cases hrun
    · rename_i hsome
      cases hrun
      exact ih hp _ _ _ _ _ hsome
  | seq p q ihp ihq =>
    intro c f x c' f' hrun
    rw [Peg.run_seq] at hrun
    split at hrun
    · cases hrun
    · rename_i a d f₁ hfirst
      split at hrun
      · cases hrun
      · rename_i b e f₂ hsecond
        cases hrun
        have hle := ihp hp.1 _ _ _ _ _ hfirst
        have hle' : c'.rest.length ≤ (skip d).rest.length ∧
            (q.Advances → c'.rest.length < (skip d).rest.length) := by
          rcases hp.2 with ⟨-, hq⟩ | hq
          · exact ihq hq _ _ _ _ _ hsecond
          · exact ihq hq _ _ _ _ _ hsecond
        have hblanks := hskip d
        refine ⟨by omega, ?_⟩
        rintro (hstrict | hstrict)
        · have := hle.2 hstrict
          omega
        · have := hle'.2 hstrict
          omega
  | alt p q ihp ihq =>
    intro c f a c' f' hrun
    rw [Peg.run_alt] at hrun
    split at hrun
    · rename_i hsome
      cases hrun
      exact (ihp hp.1 _ _ _ _ _ hsome).imp_right fun h hstrict => h hstrict.1
    · exact (ihq hp.2 _ _ _ _ _ hrun).imp_right fun h hstrict => h hstrict.2
  | opt p ih =>
    intro c f o c' f' hrun
    rw [Peg.run_opt] at hrun
    split at hrun
    · cases hrun
      exact ⟨Nat.le_refl _, False.elim⟩
    · rename_i hsome
      cases hrun
      exact ⟨(ih hp _ _ _ _ _ hsome).1, False.elim⟩
  | many p ih =>
    intro c f as c' f' hrun
    rw [Peg.run_many] at hrun
    split at hrun
    · cases hrun
      exact ⟨Nat.le_refl _, False.elim⟩
    · rename_i a d f₁ hfirst
      cases hrun
      have hrounds := length_rounds_le hskip (ih hp.1) limit d f₁
      exact ⟨hrounds.trans (ih hp.1 _ _ _ _ _ hfirst).1, False.elim⟩
  | spanned p ih =>
    intro c f x c' f' hrun
    rw [Peg.run_spanned] at hrun
    split at hrun
    · cases hrun
    · rename_i hsome
      cases hrun
      exact ih hp _ _ _ _ _ hsome
  | labelled label p ih =>
    intro c f a c' f' hrun
    rw [Peg.run_labelled] at hrun
    split at hrun
    · cases hrun
    · rename_i hsome
      cases hrun
      exact ih hp _ _ _ _ _ hsome

/-! ### Larger limits -/

/-- As every round takes a character, limits above the length of the text make no difference. -/
theorem rounds_eq {round round' : Matcher ℓ α} (hround : round.Shortens True) {n n' : Nat}
    {c : Cursor} (heq : ∀ d, d.rest.length ≤ c.rest.length → ∀ f, round d f = round' d f)
    (hn : c.rest.length < n) (hn' : c.rest.length < n') (f : Furthest ℓ) :
    rounds skip round n c f = rounds skip round' n' c f := by
  induction n generalizing n' c f with
  | zero => cases hn
  | succ n ih =>
    obtain ⟨n', rfl⟩ := Nat.exists_eq_add_one_of_ne_zero (Nat.ne_zero_of_lt hn')
    rw [rounds, rounds, ← heq (skip c) (hskip c)]
    split
    · rfl
    · rename_i a d f₁ hsome
      have hlt := (hround _ _ _ _ _ hsome).2 trivial
      have hblanks := hskip c
      have hrest : rounds skip round n d f₁ = rounds skip round' n' d f₁ :=
        ih (fun e he => heq e (by omega)) (by omega) (by omega) f₁
      rw [hrest]

/-- An expression has the same outcome with two meanings of the rules that agree on the calls it
may make. With `k` ranks, `k` times the length of the text and the rank measure a call. -/
theorem Peg.run_eq {rank : ρ → Nat} {k N : Nat} (hrank : ∀ rule, rank rule < k)
    {limit limit' : Nat} {call call' : ρ → Matcher ℓ τ} (hcall : ∀ rule, (call rule).Shortens True)
    (heq : ∀ rule c, k * c.rest.length + rank rule < N → ∀ f, call rule c f = call' rule c f)
    {p : Peg ℓ ρ τ α} {b : Nat} (hp : p.Leads fun rule => rank rule < b) {c : Cursor}
    (hlimit : c.rest.length < limit) (hlimit' : c.rest.length < limit')
    (hN : k * c.rest.length + b ≤ N) (f : Furthest ℓ) :
    p.run limit skip call c f = p.run limit' skip call' c f := by
  induction p generalizing b c f with
  | lexeme lex => rfl
  | call rule =>
    have hlt : rank rule < b := hp
    exact heq rule c (by omega) f
  | map g p ih | opt p ih | spanned p ih | labelled label p ih =>
    simp only [Peg.run_map, Peg.run_opt, Peg.run_spanned, Peg.run_labelled,
      ih hp hlimit hlimit' hN]
  | alt p q ihp ihq =>
    simp only [Peg.run_alt, ihp hp.1 hlimit hlimit' hN, ihq hp.2 hlimit hlimit' hN]
  | seq p q ihp ihq =>
    have hfirst := ihp hp.1 hlimit hlimit' hN f
    rw [Peg.run_seq, Peg.run_seq, ← hfirst]
    split
    · rfl
    · rename_i a d f₁ hsome
      obtain ⟨hle, hlt⟩ := Peg.shortens_run hskip hp.1 limit hcall _ _ _ _ _ hsome
      have hblanks := hskip d
      have hsecond : q.run limit skip call (skip d) f₁ = q.run limit' skip call' (skip d) f₁ := by
        rcases hp.2 with ⟨hstrict, hq⟩ | hq
        · -- a character is taken, so all rules may be called
          have hlt := hlt hstrict
          have hmul : k * (skip d).rest.length + k ≤ k * c.rest.length := by
            rw [← Nat.mul_succ]
            exact Nat.mul_le_mul_left k (by omega)
          exact ihq (hq.mono fun rule _ => hrank rule) (by omega) (by omega) (by omega) f₁
        · have hmul : k * (skip d).rest.length ≤ k * c.rest.length :=
            Nat.mul_le_mul_left k (by omega)
          exact ihq hq (by omega) (by omega) (by omega) f₁
      rw [hsecond]
  | many p ih =>
    have hfirst := ih hp.1 hlimit hlimit' hN f
    rw [Peg.run_many, Peg.run_many, ← hfirst]
    split
    · rfl
    · rename_i a d f₁ hsome
      have hround := Peg.shortens_run hskip hp.1 limit hcall
      obtain ⟨hle, hlt⟩ := hround _ _ _ _ _ hsome
      have hlt := hlt hp.2
      have hstrict : Matcher.Shortens True fun c f => p.run limit skip call c f :=
        fun c f a c' f' hrun => (hround c f a c' f' hrun).imp_right fun h _ => h hp.2
      have hrounds : rounds skip (fun c f => p.run limit skip call c f) limit d f₁
          = rounds skip (fun c f => p.run limit' skip call' c f) limit' d f₁ := by
        refine rounds_eq hskip hstrict (fun e he f => ?_) (by omega) (by omega) f₁
        have hmul : k * e.rest.length ≤ k * c.rest.length := Nat.mul_le_mul_left k (by omega)
        exact ih hp.1 (by omega) (by omega) (by omega) f
      rw [hrounds]

end Shortens

namespace Rules

variable {g : Rules ℓ ρ τ} (hblanks : ∀ cs, (g.blanks cs).1 ++ (g.blanks cs).2 = cs)
  {rank : ρ → Nat} {k : Nat} (hrank : ∀ rule, rank rule < k)
  (hleads : ∀ rule, (g.body rule).Leads fun callee => rank callee < rank rule)
  (hadvances : ∀ rule, (g.body rule).Advances)
include hblanks

theorem length_skip_le (c : Cursor) : (g.skip c).rest.length ≤ c.rest.length := by
  conv_rhs => rw [← hblanks c.rest, List.length_append]
  exact Nat.le_add_left _ _

include hleads hadvances

theorem shortens_parse (limit depth : Nat) (rule : ρ) :
    (g.parse limit depth rule).Shortens True := by
  induction depth generalizing rule with
  | zero =>
    intro c f a c' f' hrun
    cases hrun
  | succ depth ih =>
    intro c f a c' f' hrun
    have hshort := Peg.shortens_run (length_skip_le hblanks) (hleads rule) limit ih c f a c' f' hrun
    exact hshort.imp_right fun h _ => h (hadvances rule)

include hrank

/-- Rules have the same outcome with all limits above the number of characters, and above the
measure of the call. -/
theorem parse_eq_of_lt {limit limit' depth depth' : Nat} {rule : ρ} {c : Cursor}
    (hlimit : c.rest.length < limit) (hlimit' : c.rest.length < limit')
    (hdepth : k * c.rest.length + rank rule < depth)
    (hdepth' : k * c.rest.length + rank rule < depth') (f : Furthest ℓ) :
    g.parse limit depth rule c f = g.parse limit' depth' rule c f := by
  induction depth generalizing depth' rule c f with
  | zero => cases hdepth
  | succ depth ih =>
    obtain ⟨depth', rfl⟩ := Nat.exists_eq_add_one_of_ne_zero (Nat.ne_zero_of_lt hdepth')
    refine Peg.run_eq (length_skip_le hblanks) hrank (shortens_parse hblanks hleads hadvances _ _)
      (fun callee d hd f => ?_) (hleads rule) hlimit hlimit' (Nat.le_refl _) f
    have hle : d.rest.length ≤ c.rest.length := by
      have hlt := hrank rule
      by_contra hgt
      have hmul : k * (c.rest.length + 1) ≤ k * d.rest.length := Nat.mul_le_mul_left k (by omega)
      rw [Nat.mul_succ] at hmul
      omega
    exact ih (by omega) (by omega) (by omega) (by omega) f

/-- A text has the same outcome with all limits above the number of characters, and above the
measure of all calls. -/
theorem run_eq_parseText {p : Peg ℓ ρ τ α} (hp : p.Leads fun rule => rank rule < k)
    {cs : List Char} {limit depth depth' : Nat} (hlimit : cs.length < limit)
    (hdepth : k * cs.length + k ≤ depth) (hdepth' : k * cs.length + k ≤ depth') :
    p.run limit g.skip (g.parse limit depth) (.ofText cs) {} = g.parseText p depth' cs := by
  refine Peg.run_eq (length_skip_le hblanks) hrank (shortens_parse hblanks hleads hadvances _ _)
    (fun rule c hc f => ?_) hp hlimit (Nat.lt_succ_self _) (Nat.le_refl (k * cs.length + k)) {}
  have hle : c.rest.length ≤ cs.length := by
    by_contra hgt
    have hmul : k * (cs.length + 1) ≤ k * c.rest.length := Nat.mul_le_mul_left k (by omega)
    rw [Nat.mul_succ] at hmul
    omega
  exact parse_eq_of_lt hblanks hrank hleads hadvances (by omega) (by omega) (by omega) (by omega) f

end Rules

end ScriptTypes.Grammar
