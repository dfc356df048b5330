import ScriptTypes.Proofs.Grammar.Yields
import ScriptTypes.Proofs.Script.Formed
import ScriptTypes.Script.Grammar

/-!
# What matches of the grammar hold

`Lays w p parts good` says what a match of `p` holds: well-formed trees in a row, at the places that
`parts` gives, and a value that is good besides. There is a law for each way to build expressions;
`Lays.construct` makes one well-formed tree of what an expression holds.
-/

namespace ScriptTypes.Script

open Grammar (Condition Lexeme)

/-! ### The lexemes of scripts -/

/-- A lexeme takes a beginning off a text that is not empty. -/
structure Takes (lex : Lexeme) : Prop where
  splits : lex.Splits
  ne_nil : ∀ cs taken rest, lex cs = some (taken, rest) → taken ≠ []

namespace Takes

variable {lex lex' : Lexeme}

theorem length_lt (h : Takes lex) {cs w rest : List Char} (hlex : lex cs = some (w, rest)) :
    rest.length < cs.length := by
  have hw := List.length_pos_iff.2 (h.ne_nil cs w rest hlex)
  rw [← h.splits cs w rest hlex, List.length_append]
  omega

theorem exactly {w : List Char} (h : w ≠ []) : Takes (Grammar.Lexeme.exactly w) := by
  refine ⟨.exactly w, fun cs taken rest hlex => ?_⟩
  obtain ⟨rfl, -⟩ := Grammar.Lexeme.of_exactly hlex
  exact h

theorem one (p : Char → Bool) : Takes (Grammar.Lexeme.one p) := by
  refine ⟨.one p, fun cs taken rest hlex => ?_⟩
  obtain ⟨c, -, rfl, -⟩ := Grammar.Lexeme.of_one hlex
  simp

theorem orElse (h : Takes lex) (h' : Takes lex') : Takes (Grammar.Lexeme.orElse lex lex') := by
  refine ⟨h.splits.orElse h'.splits, fun cs taken rest hlex => ?_⟩
  rcases Grammar.Lexeme.of_orElse hlex with hlex | hlex
  · exact h.ne_nil cs taken rest hlex
  · exact h'.ne_nil cs taken rest hlex

theorem andThen (h : Takes lex) (h' : lex'.Splits) : Takes (Grammar.Lexeme.andThen lex lex') := by
  refine ⟨h.splits.andThen h', fun cs taken rest hlex => ?_⟩
  obtain ⟨x, mid, y, hx, -, rfl⟩ := Grammar.Lexeme.of_andThen hlex
  simp [h.ne_nil cs x mid hx]

theorem unlessNext (h : Takes lex) (p : Char → Bool) :
    Takes (Grammar.Lexeme.unlessNext lex p) :=
  ⟨h.splits.unlessNext p, fun cs taken rest hlex =>
    h.ne_nil cs taken rest (Grammar.Lexeme.of_unlessNext hlex)⟩

theorem word {w : List Char} (h : w ≠ []) : Takes (Lexeme.word w) := (exactly h).unlessNext _

theorem propertyName : Takes Lexeme.propertyName := (one _).andThen (.run _)

/-- A variable has a name of which it takes the whole. -/
theorem propertyName_of_identifier {cs taken rest : List Char}
    (h : Lexeme.identifier cs = some (taken, rest)) :
    Lexeme.propertyName cs = some (taken, rest) := by
  unfold Lexeme.identifier at h
  split at h
  · rename_i hname
    split at h <;> cases h
    exact hname
  · cases h

theorem identifier : Takes Lexeme.identifier where
  splits cs taken rest h := propertyName.splits cs taken rest (propertyName_of_identifier h)
  ne_nil cs taken rest h := propertyName.ne_nil cs taken rest (propertyName_of_identifier h)

theorem run1 (p : Char → Bool) : Takes (Grammar.Lexeme.run1 p) := (one p).andThen (.run p)

theorem number : Takes Lexeme.number := by
  refine orElse ?_ (andThen (orElse ?_ ?_) ?_)
  · exact (exactly (by simp)).andThen ((one _).splits.andThen (run1 _).splits)
  · exact (run1 _).andThen ((Grammar.Lexeme.Splits.exactly _).andThen (.run _)).orNothing
  · exact (exactly (by simp)).andThen (run1 _).splits
  · exact ((one _).splits.andThen ((one _).splits.orNothing.andThen (run1 _).splits)).orNothing

theorem append_body (stops : Char → Bool) (cs : List Char) :
    (Lexeme.body stops cs).1 ++ (Lexeme.body stops cs).2 = cs := by
  fun_induction Lexeme.body stops cs <;> simp_all

theorem between (mark : Char) (stops : Char → Bool) : Takes (Lexeme.between mark stops) := by
  have hall : ∀ cs taken rest, Lexeme.between mark stops cs = some (taken, rest) →
      taken ++ rest = cs ∧ taken ≠ [] := by
    intro cs taken rest h
    match cs with
    | [] => cases h
    | c :: cs =>
      have hbody := append_body stops cs
      rw [Lexeme.between] at h
      split at h
      · split at h
        · rename_i hcs
          rw [hcs] at hbody
          split at h <;> cases h
          simp_all
        · cases h
      · cases h
  exact ⟨fun cs taken rest h => (hall cs taken rest h).1,
    fun cs taken rest h => (hall cs taken rest h).2⟩

theorem string : Takes Lexeme.string := (between _ _).orElse (between _ _)

theorem splits_regexBody (inClass : Bool) : (Lexeme.regexBody inClass).Splits := by
  intro cs taken rest h
  fun_induction Lexeme.regexBody inClass cs generalizing taken <;> grind [Option.map_eq_some_iff]

theorem regex : Takes Lexeme.regex := by
  refine ((exactly (by simp)).unlessNext _).andThen ?_
  exact (splits_regexBody false).andThen ((Grammar.Lexeme.Splits.exactly _).andThen (.run _))

end Takes

theorem Takes.comment : Takes Lexeme.comment :=
  ((exactly (by simp)).andThen (.through _)).orElse ((exactly (by simp)).andThen (.run _))

theorem append_commentsWithin (n : Nat) (cs : List Char) :
    (Lexeme.commentsWithin n cs).1 ++ (Lexeme.commentsWithin n cs).2 = cs := by
  induction n generalizing cs with
  | zero => rfl
  | succ n ih =>
    unfold Lexeme.commentsWithin
    split
    · rfl
    · rename_i taken rest hcomment
      have hrest := ih (rest.dropWhile Lexeme.isSpace)
      simp only [List.append_assoc]
      rw [hrest, List.takeWhile_append_dropWhile, Takes.comment.splits cs taken rest hcomment]

/-- Blanks and comments are taken off a text. -/
theorem append_blanks (cs : List Char) : (Lexeme.blanks cs).1 ++ (Lexeme.blanks cs).2 = cs := by
  unfold Lexeme.blanks
  split
  · rename_i rest hrest
    have hcomments := append_commentsWithin (rest.length + 1) ('/' :: rest)
    simp only [List.append_assoc]
    rw [hcomments, ← hrest, List.takeWhile_append_dropWhile]
  · exact List.takeWhile_append_dropWhile

theorem byteSize_pos {cs : List Char} (h : cs ≠ []) : 0 < Text.byteSize cs := by
  match cs with
  | [] => exact absurd rfl h
  | c :: cs =>
    have := c.utf8Size_pos
    simp only [Text.byteSize_cons]
    omega

/-- The name of a property or variable is a name. -/
theorem isName_of_propertyName {cs taken rest : List Char}
    (h : Lexeme.propertyName cs = some (taken, rest)) : IsName (Syntax.text taken) := by
  refine ⟨?_, fun c hc => ?_⟩
  · simpa [Syntax.text] using Takes.propertyName.ne_nil cs taken rest h
  · rw [Syntax.text, String.toList_ofList] at hc
    match cs with
    | [] => cases h
    | d :: cs =>
      obtain ⟨hd, rfl, -⟩ : Lexeme.isNameStart d = true ∧
          d :: cs.takeWhile Lexeme.isNameChar = taken ∧ cs.dropWhile Lexeme.isNameChar = rest := by
        simp only [Lexeme.propertyName, Grammar.Lexeme.andThen, Grammar.Lexeme.one] at h
        by_cases hd : Lexeme.isNameStart d = true
        · simpa [Grammar.Lexeme.run, hd] using h
        · simp [hd] at h
      rcases List.mem_cons.1 hc with rfl | hc
      · simp [Lexeme.isNameChar, hd]
      · exact List.mem_takeWhile_imp hc

theorem isName_of_identifier {cs taken rest : List Char}
    (h : Lexeme.identifier cs = some (taken, rest)) : IsName (Syntax.text taken) :=
  isName_of_propertyName (Takes.propertyName_of_identifier h)

namespace Syntax

open Grammar.Peg (Yields)

/-- What the matches of the rules satisfy. -/
def ruleCondition : Rule → Condition Tree
  | .statement => fun start t stop => Row start [(.statement, t)] stop
  | .assignment | .newExpression => fun start t stop => Row start [(.operand, t)] stop

/-- Every match has a good value and holds well-formed trees in a row, of the kinds that the given
places ask for. They begin at least `w` bytes after the match does. -/
def Lays {α : Type} (w : Nat) (p : Expr α) (parts : α → List (Place × Tree))
    (good : α → Prop) : Prop :=
  p.Yields ruleCondition fun start a stop => Row (start + w) (parts a) stop ∧ good a

/-- A match that holds no trees. -/
def noParts {α : Type} : α → List (Place × Tree) := fun _ => []

/-- A match that is one tree. -/
def whole (place : Place) : Tree → List (Place × Tree) := fun t => [(place, t)]

def any {α : Type} : α → Prop := fun _ => True

namespace Lays

variable {α β : Type} {w v : Nat} {p : Expr α} {q : Expr β} {parts : α → List (Place × Tree)}
  {parts' : β → List (Place × Tree)} {good : α → Prop} {good' : β → Prop}

theorem lexeme {lex : Lexeme} (h : Takes lex) {good : List Char → Prop}
    (hgood : ∀ cs taken rest, lex cs = some (taken, rest) → good taken) :
    Lays 1 (.lexeme lex) noParts good := by
  refine Yields.lexeme h.splits fun start cs taken rest hlex =>
    ⟨.nil ?_, hgood cs taken rest hlex⟩
  have := byteSize_pos (h.ne_nil cs taken rest hlex)
  omega

theorem map {g : α → β} (h : Lays w p parts good)
    (himp : ∀ start a stop, Row start (parts a) stop → good a →
      Row start (parts' (g a)) stop ∧ good' (g a)) : Lays w (.map g p) parts' good' :=
  Yields.map h fun _ a stop ha => himp _ a stop ha.1 ha.2

/-- The same trees in another value. -/
theorem same {g : α → β} (h : Lays w p parts good) (hparts : ∀ a, parts' (g a) = parts a)
    (hgood : ∀ a, good a → good' (g a)) : Lays w (.map g p) parts' good' :=
  h.map fun _ a _ hrow ha => ⟨hparts a ▸ hrow, hgood a ha⟩

theorem labelled (label : Label) (h : Lays w p parts good) :
    Lays w (.labelled label p) parts good :=
  Yields.labelled label h

theorem oneOf {qs : List (Expr α)} (h : Lays w p parts good)
    (hqs : ∀ q ∈ qs, Lays w q parts good) : Lays w (p.oneOf qs) parts good :=
  Yields.oneOf h hqs

theorem weaken (h : Lays w p parts good) (hw : v ≤ w) : Lays v p parts good :=
  Yields.mono h fun start _ _ ha =>
    ⟨ha.1.widen (Nat.add_le_add_left hw start) (Nat.le_refl _), ha.2⟩

theorem seq (hp : Lays w p parts good) (hq : Lays v q parts' good') :
    Lays w (.seq p q) (fun x => parts x.1 ++ parts' x.2) fun x => good x.1 ∧ good' x.2 := by
  refine Yields.mono (Yields.seq hp hq) ?_
  rintro start x stop ⟨left, right, ⟨hleft, ha⟩, hle, hright, hb⟩
  exact ⟨hleft.append (hright.widen (by omega) (Nat.le_refl _)), ha, hb⟩

theorem right {α : Type} {p : Expr α} {good : α → Prop} (hp : Lays w p noParts good)
    (hq : Lays v q parts' good') : Lays (w + v) (.right p q) parts' good' := by
  refine Yields.map (Yields.seq hp hq) ?_
  rintro start x stop ⟨left, right, ⟨hleft, -⟩, hle, hright, hb⟩
  have := hleft.le
  exact ⟨hright.widen (by omega) (Nat.le_refl _), hb⟩

theorem left (hp : Lays w p parts good) (hq : Lays v q noParts good') :
    Lays w (.left p q) parts good := by
  refine Yields.map (Yields.seq hp hq) ?_
  rintro start x stop ⟨left, right, ⟨hleft, ha⟩, hle, hright, -⟩
  have := hright.le
  exact ⟨hleft.widen (Nat.le_refl _) (by omega), ha⟩

theorem opt (h : Lays w p parts good) :
    Lays 0 (.opt p) (fun o => o.toList.flatMap parts) fun o => ∀ a ∈ o, good a := by
  refine Yields.mono (Yields.opt h) ?_
  rintro start o stop (⟨rfl, hle⟩ | ⟨a, rfl, hrow, ha⟩)
  · exact ⟨.nil (Nat.le_of_eq hle), by simp⟩
  · refine ⟨?_, by simpa using ha⟩
    simpa using hrow.widen (Nat.le_add_right _ _) (Nat.le_refl _)

theorem row_of_each {start stop : Nat} {as : List α}
    (h : Condition.each (fun start a stop => Row (start + w) (parts a) stop ∧ good a) start as stop) :
    Row start (as.flatMap parts) stop ∧ ∀ a ∈ as, good a := by
  induction as generalizing start with
  | nil => exact ⟨.nil h, by simp⟩
  | cons a as ih =>
    obtain ⟨left, right, hle, ⟨hrow, ha⟩, hrest⟩ := h
    obtain ⟨hrows, has⟩ := ih hrest
    refine ⟨?_, List.forall_mem_cons.2 ⟨ha, has⟩⟩
    exact (hrow.widen (by omega) (Nat.le_refl _)).append hrows

theorem many (h : Lays w p parts good) :
    Lays 0 (.many p) (fun as => as.flatMap parts) fun as => ∀ a ∈ as, good a :=
  Yields.mono (Yields.many h) fun _ _ _ ha => row_of_each ha

/-- A construct over what an expression holds. -/
theorem construct {label : Label} {form : α → Form Tree} {place : Place}
    (h : Lays w p parts good)
    (hform : ∀ a, good a → (form a).parts = parts a ∧ (form a).Named ∧
      place.admits (form a) = true)
    (hlead : 0 < w ∨ ∀ a, (form a).lead = 0 ∧ parts a ≠ []) :
    Lays 0 (Syntax.construct label p form) (whole place) any := by
  refine Yields.labelled label (Yields.map (Yields.spanned h) ?_)
  rintro start ⟨span, a⟩ stop ⟨rfl, hrow, ha⟩
  obtain ⟨hparts, hnamed, hplace⟩ := hform a ha
  obtain ⟨hle, hspan⟩ : (form a).lead ≤ w ∧ start < stop := by
    have hone := (form a).lead_le_one
    have := hrow.le
    rcases hlead with hw | hzero
    · omega
    · have := hrow.lt (hzero a).2
      have := (hzero a).1
      omega
  refine ⟨Row.single ?_ hnamed hplace (Nat.le_refl _) hspan (Nat.le_refl _), trivial⟩
  rw [hparts]
  exact hrow.widen (Nat.add_le_add_left hle start) (Nat.le_refl _)

end Lays

end Syntax

end ScriptTypes.Script
