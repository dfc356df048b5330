import Mathlib
import ScriptTypes.TypeName.Canonical

/-!
# Cutting and joining names

A name is cut at the separators that stand at bracket depth zero, and alternatives are joined with
bars. The two undo each other as long as no piece shows a separator at its own top level and every
piece closes the brackets that it opens.

Brackets are counted by the net depth of a text. Nothing here supposes that a text is well formed:
a bracket may be missing, and a closing bracket too many makes the net depth negative.

Main statements: `splitTop_joinWith`, the pieces of a joined text; `eq_of_joinWith_eq`, a joined
text that was cut at as many places.
-/

namespace ScriptTypes.TypeName

/-! ### Net bracket depth -/

/-- How much a character changes the bracket depth. -/
def delta (c : Char) : Int := depthAfter 0 c

/-- How much a text changes the bracket depth. -/
def net (cs : List Char) : Int := (cs.map delta).sum

theorem depthAfter_eq (d : Int) (c : Char) : depthAfter d c = d + delta c := by
  unfold delta depthAfter
  split
  · omega
  · split <;> omega

@[simp] theorem net_nil : net [] = 0 := rfl

@[simp] theorem net_cons (c : Char) (cs : List Char) : net (c :: cs) = delta c + net cs := by
  simp [net]

@[simp] theorem net_append (as bs : List Char) : net (as ++ bs) = net as + net bs := by
  simp [net]

@[simp] theorem net_reverse (cs : List Char) : net cs.reverse = net cs := by
  induction cs with
  | nil => rfl
  | cons c cs ih =>
      simp only [List.reverse_cons, net_append, net_cons, net_nil, ih]
      omega

theorem net_eq_zero {cs : List Char} (h : ∀ c ∈ cs, delta c = 0) : net cs = 0 := by
  induction cs with
  | nil => rfl
  | cons c cs ih =>
      rw [net_cons, h c (by simp), ih fun c hc => h c (by simp [hc])]
      rfl

/-! ### Cutting -/

section Cutting

variable {sep : Char → Bool}

theorem anyTopFrom_append (d : Int) (xs ys : List Char) :
    anyTopFrom sep d (xs ++ ys) = (anyTopFrom sep d xs || anyTopFrom sep (d + net xs) ys) := by
  induction xs generalizing d with
  | nil => simp [anyTopFrom]
  | cons x xs ih =>
      simp only [List.cons_append, anyTopFrom, ih, depthAfter_eq, net_cons, Bool.or_assoc,
        Int.add_assoc]

theorem anyTopFrom_eq_false {cs : List Char} (h : ∀ c ∈ cs, sep c = false) (d : Int) :
    anyTopFrom sep d cs = false := by
  induction cs generalizing d with
  | nil => rfl
  | cons c cs ih =>
      rw [anyTopFrom, h c (by simp), ih fun a ha => h a (by simp [ha]), Bool.and_false,
        Bool.or_false]

/-- A text that shows no separator at its top level becomes part of the current piece. -/
theorem splitFrom_append {d : Int} {xs : List Char} (h : anyTopFrom sep d xs = false)
    (piece ys : List Char) :
    splitFrom sep d piece (xs ++ ys) = splitFrom sep (d + net xs) (xs.reverse ++ piece) ys := by
  induction xs generalizing d piece with
  | nil => simp
  | cons x xs ih =>
      simp only [anyTopFrom, Bool.or_eq_false_iff] at h
      have hx : ¬(d = 0 ∧ sep x = true) := by simpa using h.1
      rw [List.cons_append, splitFrom, if_neg hx, ih h.2, depthAfter_eq, net_cons, Int.add_assoc,
        List.reverse_cons, List.append_assoc, List.singleton_append]

theorem splitTop_eq_singleton {xs : List Char} (h : anyTopFrom sep 0 xs = false) :
    splitTop sep xs = [xs] := by
  have := splitFrom_append h [] []
  simpa [splitTop, splitFrom] using this

/-- No piece shows a separator at its own top level. -/
theorem anyTopFrom_of_mem_splitFrom {d : Int} (piece cs : List Char) (hd : net piece = d)
    (h : anyTopFrom sep 0 piece.reverse = false) :
    ∀ p ∈ splitFrom sep d piece cs, anyTopFrom sep 0 p = false := by
  induction cs generalizing d piece with
  | nil => simpa [splitFrom] using h
  | cons c cs ih =>
      unfold splitFrom
      split
      · rename_i hc
        intro p hp
        rcases List.mem_cons.1 hp with rfl | hp
        · exact h
        · exact ih [] hc.1.symm rfl p hp
      · rename_i hc
        refine ih (c :: piece) ?_ ?_
        · rw [net_cons, hd, depthAfter_eq, Int.add_comm]
        · rw [List.reverse_cons, anyTopFrom_append, h, net_reverse, hd]
          simpa [anyTopFrom] using hc

theorem sublist_of_mem_splitFrom {d : Int} (piece cs : List Char) :
    ∀ p ∈ splitFrom sep d piece cs, p.Sublist (piece.reverse ++ cs) := by
  induction cs generalizing d piece with
  | nil => simp [splitFrom]
  | cons c cs ih =>
      intro p hp
      unfold splitFrom at hp
      split at hp
      · rcases List.mem_cons.1 hp with rfl | hp
        · exact List.sublist_append_left _ _
        · have hrest : p.Sublist cs := ih [] p hp
          exact (hrest.cons c).trans (List.sublist_append_right _ _)
      · simpa using ih (c :: piece) p hp

theorem sublist_of_mem_splitTop {cs p : List Char} (h : p ∈ splitTop sep cs) : p.Sublist cs :=
  sublist_of_mem_splitFrom [] cs p h

theorem anyTopFrom_of_mem_splitTop {cs p : List Char} (h : p ∈ splitTop sep cs) :
    anyTopFrom sep 0 p = false :=
  anyTopFrom_of_mem_splitFrom [] cs net_nil rfl p h

/-- Every piece but the last one closes the brackets that it opens. -/
theorem net_splitFrom (hsep : ∀ c, sep c = true → delta c = 0) {d : Int} (piece cs : List Char)
    (hd : net piece = d) :
    ∃ front last, splitFrom sep d piece cs = front ++ [last] ∧ (∀ p ∈ front, net p = 0) ∧
      net last = d + net cs := by
  induction cs generalizing d piece with
  | nil => exact ⟨[], piece.reverse, rfl, by simp, by simp [hd]⟩
  | cons c cs ih =>
      unfold splitFrom
      split
      · rename_i hc
        obtain ⟨front, last, heq, hfront, hlast⟩ := ih [] hc.1.symm
        refine ⟨piece.reverse :: front, last, by rw [heq]; rfl, ?_, ?_⟩
        · intro p hp
          rcases List.mem_cons.1 hp with rfl | hp
          · rw [net_reverse, hd, hc.1]
          · exact hfront p hp
        · rw [hlast, net_cons, hsep c hc.2, Int.zero_add]
      · have hnet : net (c :: piece) = depthAfter d c := by
          rw [net_cons, hd, depthAfter_eq, Int.add_comm]
        obtain ⟨front, last, heq, hfront, hlast⟩ := ih (c :: piece) hnet
        refine ⟨front, last, heq, hfront, ?_⟩
        rw [hlast, depthAfter_eq, net_cons, Int.add_assoc]

theorem net_splitTop (hsep : ∀ c, sep c = true → delta c = 0) (cs : List Char) :
    ∃ front last, splitTop sep cs = front ++ [last] ∧ (∀ p ∈ front, net p = 0) ∧
      net last = net cs := by
  obtain ⟨front, last, heq, hfront, hlast⟩ := net_splitFrom hsep [] cs net_nil
  exact ⟨front, last, heq, hfront, by simpa using hlast⟩

/-- Pieces joined with a separator are cut apart at the joints. -/
theorem splitTop_joinWith {c : Char} (hc : sep c = true) {ts : List (List Char)} (hne : ts ≠ [])
    (hnet : ∀ p ∈ ts, net p = 0) (htop : ∀ p ∈ ts, anyTopFrom sep 0 p = false) :
    splitTop sep (Text.joinWith [c] ts) = ts := by
  induction ts with
  | nil => exact absurd rfl hne
  | cons p ts ih =>
      cases ts with
      | nil => exact splitTop_eq_singleton (htop p (by simp))
      | cons q ts =>
          have hrest := ih (by simp) (fun r hr => hnet r (by simp [hr])) fun r hr =>
            htop r (by simp [hr])
          have hjoin : Text.joinWith [c] (p :: q :: ts)
              = p ++ c :: Text.joinWith [c] (q :: ts) := by
            simp [Text.joinWith]
          have hp : net p = 0 := hnet p (by simp)
          rw [hjoin, splitTop, splitFrom_append (htop p (by simp)), hp, splitFrom,
            if_pos ⟨rfl, hc⟩]
          simpa [splitTop] using hrest

end Cutting

/-! ### Counting characters -/

/-- The number of characters of a kind in a list of texts, with `b` more for each text. -/
def weight (k : Char → Bool) (b : Nat) (ts : List (List Char)) : Nat :=
  (ts.map fun t => t.countP k + b).sum

section Counting

variable {k sep : Char → Bool} {b : Nat}

@[simp] theorem weight_nil : weight k b [] = 0 := rfl

@[simp] theorem weight_cons (t : List Char) (ts : List (List Char)) :
    weight k b (t :: ts) = t.countP k + b + weight k b ts := rfl

@[simp] theorem weight_append (ts us : List (List Char)) :
    weight k b (ts ++ us) = weight k b ts + weight k b us := by
  simp [weight]

theorem length_mul_le_weight (ts : List (List Char)) : ts.length * b ≤ weight k b ts := by
  induction ts with
  | nil => simp
  | cons t ts ih =>
      rw [List.length_cons, Nat.succ_mul, weight_cons]
      omega

theorem countP_add_le_weight {t : List Char} {ts : List (List Char)} (h : t ∈ ts) :
    t.countP k + ts.length * b ≤ weight k b ts := by
  induction ts with
  | nil => cases h
  | cons u ts ih =>
      rw [List.length_cons, Nat.succ_mul, weight_cons]
      rcases List.mem_cons.1 h with rfl | h
      · have := length_mul_le_weight (k := k) (b := b) ts
        omega
      · have := ih h
        omega

/-- The pieces of a text weigh no more than the text, if every separator pays for its cut. -/
theorem weight_splitFrom_le (hsep : ∀ c, sep c = true → b ≤ (k c).toNat) (d : Int)
    (piece cs : List Char) :
    weight k b (splitFrom sep d piece cs) ≤ piece.countP k + cs.countP k + b := by
  induction cs generalizing d piece with
  | nil => simp [splitFrom]
  | cons c cs ih =>
      have hc : (c :: cs).countP k = cs.countP k + (k c).toNat := by
        cases h : k c <;> simp [h]
      unfold splitFrom
      split
      · rename_i hcut
        have := ih d []
        have := hsep c hcut.2
        simp only [weight_cons, List.countP_reverse, List.countP_nil] at *
        omega
      · have hpiece : (c :: piece).countP k = piece.countP k + (k c).toNat := by
          cases h : k c <;> simp [h]
        have := ih (depthAfter d c) (c :: piece)
        omega

theorem weight_splitTop_le (hsep : ∀ c, sep c = true → b ≤ (k c).toNat) (cs : List Char) :
    weight k b (splitTop sep cs) ≤ cs.countP k + b := by
  simpa [splitTop] using weight_splitFrom_le hsep 0 [] cs

end Counting

/-! ### Joining -/

theorem joinWith_cons {c : Char} (t : List Char) {ts : List (List Char)} (h : ts ≠ []) :
    Text.joinWith [c] (t :: ts) = t ++ c :: Text.joinWith [c] ts := by
  cases ts with
  | nil => exact absurd rfl h
  | cons u us => simp [Text.joinWith]

theorem countP_joinWith {k : Char → Bool} (c : Char) {ts : List (List Char)} (h : ts ≠ []) :
    (Text.joinWith [c] ts).countP k + (k c).toNat = weight k (k c).toNat ts := by
  induction ts with
  | nil => exact absurd rfl h
  | cons t ts ih =>
      cases ts with
      | nil => simp [Text.joinWith]
      | cons u us =>
          have hc : (if k c = true then 1 else 0) = (k c).toNat := by cases k c <;> rfl
          rw [weight_cons, ← ih (by simp), joinWith_cons t (by simp), List.countP_append,
            List.countP_cons, hc]
          omega

theorem net_joinWith {c : Char} (hc : delta c = 0) (ts : List (List Char)) :
    net (Text.joinWith [c] ts) = (ts.map net).sum := by
  induction ts with
  | nil => rfl
  | cons t ts ih =>
      cases ts with
      | nil => simp [Text.joinWith]
      | cons u us =>
          rw [joinWith_cons t (by simp), net_append, net_cons, ih, hc]
          simp

theorem sublist_joinWith {c : Char} {t : List Char} {ts : List (List Char)} (h : t ∈ ts) :
    t.Sublist (Text.joinWith [c] ts) := by
  induction ts with
  | nil => cases h
  | cons u ts ih =>
      cases ts with
      | nil =>
          rw [List.mem_singleton.1 h]
          exact List.Sublist.refl _
      | cons v ts =>
          rw [joinWith_cons u (by simp)]
          rcases List.mem_cons.1 h with rfl | h
          · exact List.sublist_append_left _ _
          · exact ((ih h).cons c).trans (List.sublist_append_right _ _)

theorem anyTopFrom_joinWith {sep : Char → Bool} {c : Char} (hc : sep c = false)
    (hdelta : delta c = 0) {ts : List (List Char)} (hnet : ∀ t ∈ ts, net t = 0)
    (htop : ∀ t ∈ ts, anyTopFrom sep 0 t = false) :
    anyTopFrom sep 0 (Text.joinWith [c] ts) = false := by
  induction ts with
  | nil => rfl
  | cons t ts ih =>
      cases ts with
      | nil => exact htop t (by simp)
      | cons u us =>
          have ih := ih (fun v hv => hnet v (by simp [hv])) fun v hv => htop v (by simp [hv])
          rw [joinWith_cons t (by simp), anyTopFrom_append, htop t (by simp), hnet t (by simp)]
          simpa [anyTopFrom, hc, depthAfter_eq, hdelta] using ih

/-- The joined pieces of a text are the text, if only the joining character separates. -/
theorem joinWith_splitFrom {sep : Char → Bool} {x : Char} (hsep : ∀ c, sep c = true → c = x)
    (d : Int) (piece cs : List Char) :
    Text.joinWith [x] (splitFrom sep d piece cs) = piece.reverse ++ cs := by
  induction cs generalizing d piece with
  | nil => simp [splitFrom, Text.joinWith]
  | cons c cs ih =>
      unfold splitFrom
      split
      · rename_i hc
        rw [joinWith_cons _ (splitFrom_ne_nil sep d [] cs), ih, hsep c hc.2]
        simp
      · rw [ih]
        simp

theorem joinWith_splitTop {sep : Char → Bool} {x : Char} (hsep : ∀ c, sep c = true → c = x)
    (cs : List Char) : Text.joinWith [x] (splitTop sep cs) = cs := by
  simpa [splitTop] using joinWith_splitFrom hsep 0 [] cs

theorem joinWith_splitTop_isComma (cs : List Char) :
    Text.joinWith [','] (splitTop isComma cs) = cs :=
  joinWith_splitTop (fun _ hc => beq_iff_eq.1 hc) cs

/-- The pieces between bars and commas, joined with bars, are the text again if no comma was lost
at the cuts. -/
theorem joinWith_splitFrom_of_commas {sep : Char → Bool}
    (hsep : ∀ c, sep c = true → isBarOrComma c = true) (d : Int) (piece cs : List Char)
    (h : weight isComma 0 (splitFrom sep d piece cs)
      = piece.countP isComma + cs.countP isComma) :
    Text.joinWith ['|'] (splitFrom sep d piece cs) = piece.reverse ++ cs := by
  induction cs generalizing d piece with
  | nil => simp [splitFrom, Text.joinWith]
  | cons c cs ih =>
      unfold splitFrom at h ⊢
      split
      · rename_i hc
        rw [if_pos hc] at h
        have hle : weight isComma 0 (splitFrom sep d [] cs) ≤ _ :=
          weight_splitFrom_le (by simp) d [] cs
        simp only [weight_cons, List.countP_reverse, List.countP_nil, List.countP_cons] at h hle
        have hcomma : isComma c = false := by
          cases hk : isComma c with
          | false => rfl
          | true =>
              simp only [hk, if_true] at h
              omega
        have hbar : c = '|' := by
          simpa [isBarOrComma, hcomma, isBar] using hsep c hc.2
        rw [joinWith_cons _ (splitFrom_ne_nil _ d [] cs), ih d [] ?_, hbar]
        · simp
        · simp only [hcomma, Bool.false_eq_true, if_false] at h
          simp only [List.countP_nil]
          omega
      · rename_i hc
        rw [if_neg hc] at h
        rw [ih _ _ ?_]
        · simp
        · rw [h, List.countP_cons, List.countP_cons]
          omega

theorem joinWith_append {c : Char} {ts us : List (List Char)} (hts : ts ≠ []) (hus : us ≠ []) :
    Text.joinWith [c] (ts ++ us) = Text.joinWith [c] ts ++ c :: Text.joinWith [c] us := by
  induction ts with
  | nil => exact absurd rfl hts
  | cons t ts ih =>
      cases ts with
      | nil => exact joinWith_cons t hus
      | cons v ts =>
          rw [List.cons_append, joinWith_cons t (by simp), ih (by simp), joinWith_cons t (by simp),
            List.append_assoc, List.cons_append]

theorem joinWith_flatMap {c : Char} {f : List Char → List (List Char)} {ts : List (List Char)}
    (h : ∀ t ∈ ts, f t ≠ []) :
    Text.joinWith [c] (ts.flatMap f) = Text.joinWith [c] (ts.map fun t => Text.joinWith [c] (f t)) := by
  induction ts with
  | nil => rfl
  | cons t ts ih =>
      have ih := ih fun u hu => h u (by simp [hu])
      cases ts with
      | nil => simp [Text.joinWith]
      | cons u ts =>
          have hne : (u :: ts).flatMap f ≠ [] := by
            have := h u (by simp)
            simp [this]
          rw [List.flatMap_cons, joinWith_append (h t (by simp)) hne, ih]
          exact (joinWith_cons _ (by simp)).symm

/-- Two texts with as many characters `x` in front of an `x` end at the same place. -/
theorem append_cons_inj_of_count {x : Char} {t u r v : List Char} (hc : t.count x = u.count x)
    (h : t ++ x :: r = u ++ x :: v) : t = u ∧ r = v := by
  induction t generalizing u with
  | nil =>
      cases u with
      | nil => simpa using h
      | cons c u =>
          simp only [List.nil_append, List.cons_append, List.cons.injEq] at h
          simp [← h.1] at hc
  | cons c t ih =>
      cases u with
      | nil =>
          simp only [List.nil_append, List.cons_append, List.cons.injEq] at h
          simp [h.1] at hc
      | cons e u =>
          simp only [List.cons_append, List.cons.injEq] at h
          obtain ⟨rfl, h⟩ := h
          obtain ⟨rfl, rfl⟩ := ih (by simpa [List.count_cons] using hc) h
          exact ⟨rfl, rfl⟩

/-- Two joined lists with as many joining characters in each of their texts are the same list. -/
theorem eq_of_joinWith_eq {x : Char} {ts us : List (List Char)}
    (hcount : List.Forall₂ (fun t u => t.count x = u.count x) ts us)
    (h : Text.joinWith [x] ts = Text.joinWith [x] us) : ts = us := by
  induction hcount with
  | nil => rfl
  | @cons t u ts us hc hrest ih =>
      cases hrest with
      | nil => simpa [Text.joinWith] using h
      | cons hc' hrest' =>
          rw [joinWith_cons t (by simp), joinWith_cons u (by simp)] at h
          obtain ⟨rfl, hjoin⟩ := append_cons_inj_of_count hc h
          rw [ih hjoin]

end ScriptTypes.TypeName
