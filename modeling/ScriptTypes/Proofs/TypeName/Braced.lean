import ScriptTypes.Proofs.TypeName.Encoding

/-!
# Braces around types

No encoding brings in a brace, and atoms have none. Types can be written between braces, therefore,
and the first brace that closes is the one behind them.
-/

namespace ScriptTypes.TypeName

theorem Passed.chars {openC close : Char} {cs : List Char}
    (h : ∀ c ∈ cs, c ≠ openC ∧ c ≠ close) : Passed openC close cs := by
  induction cs with
  | nil => exact .nil
  | cons c cs ih =>
    obtain ⟨hc, hcs⟩ := List.forall_mem_cons.1 h
    exact (Passed.char hc.1 hc.2).append (ih hcs)

theorem Passed.joinWith {openC close c : Char} (hopen : c ≠ openC) (hclose : c ≠ close)
    {ts : List (List Char)} (h : ∀ t ∈ ts, Passed openC close t) :
    Passed openC close (Text.joinWith [c] ts) := by
  induction ts with
  | nil => exact .nil
  | cons t ts ih =>
    obtain ⟨ht, hts⟩ := List.forall_mem_cons.1 h
    by_cases hnil : ts = []
    · subst hnil
      exact ht
    · rw [joinWith_cons t hnil]
      exact ht.append ((Passed.char hopen hclose).append (ih hts))

/-- A text without braces, or with braces that are nested. -/
def Braced (cs : List Char) : Prop := Passed '{' '}' cs

namespace Braced

theorem char {c : Char} (h : c ≠ '{' ∧ c ≠ '}') : Braced [c] := Passed.char h.1 h.2

theorem append {xs ys : List Char} (hx : Braced xs) (hy : Braced ys) : Braced (xs ++ ys) :=
  Passed.append hx hy

theorem groupMember {m : List Char} (h : Braced m) : Braced (groupMember m) := by
  rw [TypeName.groupMember]
  split
  · exact (char (by decide)).append (h.append (char (by decide)))
  · exact h

theorem union {ms : List (List Char)} (h : ∀ m ∈ ms, Braced m) : Braced (union ms) := by
  refine Passed.joinWith (by decide) (by decide) ?_
  intro t ht
  obtain ⟨m, hm, rfl⟩ := List.mem_map.1 ht
  exact (h m hm).groupMember

theorem base {base : List Char} (h : base ∈ encodingBases) : Braced base := by
  have hbases : ∀ base ∈ encodingBases, base.countP (fun c => c == '{' || c == '}') = 0 := by decide
  refine Passed.chars fun c hc => ?_
  simpa using List.countP_eq_zero.1 (hbases base h) c hc

theorem generic {base argument : List Char} (hbase : base ∈ encodingBases) (h : Braced argument) :
    Braced (generic base argument) := by
  rw [TypeName.generic, List.append_assoc, List.cons_append]
  exact (Braced.base hbase).append
    ((char (by decide)).append (h.append (char (by decide))))

theorem signature {base : List Char} {params returns : List (List Char)}
    (hbase : base ∈ encodingBases) (hparams : ∀ p ∈ params, Braced p)
    (hreturns : ∀ r ∈ returns, Braced r) : Braced (signature base params returns) := by
  have hinner : Braced (Text.joinWith [','] params) :=
    Passed.joinWith (by decide) (by decide) hparams
  have hhead : Braced (base ++ '(' :: Text.joinWith [','] params ++ [')']) := by
    rw [List.append_assoc, List.cons_append]
    exact (Braced.base hbase).append
      ((char (by decide)).append (hinner.append (char (by decide))))
  rw [TypeName.signature]
  split
  · exact hhead
  · exact hhead.append ((char (by decide)).append (.union hreturns))

theorem chars_union {ts : List TypeName} (h : ∀ t ∈ ts, Braced t.toList) :
    Braced (TypeName.union (chars ts)) := by
  refine .union fun m hm => ?_
  obtain ⟨t, ht, rfl⟩ := List.mem_map.1 hm
  exact h t ht

end Braced

/-- Braces are no part of any encoding. -/
theorem Encoding.braced {w : TypeName} (h : Encoding w) : Braced w.toList := by
  induction h with
  | atom h =>
    refine Passed.chars fun c hc => ⟨?_, ?_⟩
    · rintro rfl
      exact (h.chars _ hc).2 (by decide)
    · rintro rfl
      exact (h.chars _ hc).2 (by decide)
  | array _ ih =>
    rw [arrayTypeOf, String.toList_ofList]
    exact .generic (by decide) ih.groupMember
  | classOf _ ih =>
    rw [classTypeOf, String.toList_ofList]
    exact .generic (by decide) ih.groupMember
  | function _ _ ih =>
    rw [functionType, String.toList_ofList, functionOf]
    split
    · exact .base (by decide)
    · exact .generic (by decide) (.chars_union ih)
  | signature _ _ _ _ ihps ihrs =>
    rw [functionSignatureType, String.toList_ofList, chars_map_unionType]
    refine .signature (by decide) ?_ ?_
    · intro p hp
      obtain ⟨cs, hcs, rfl⟩ := List.mem_map.1 hp
      obtain ⟨ps, hps, rfl⟩ := List.mem_map.1 hcs
      exact .chars_union (ihps ps hps)
    · intro r hr
      obtain ⟨t, ht, rfl⟩ := List.mem_map.1 hr
      exact ihrs t ht

/-- A single type without alternatives at top level is the only member of its list. -/
theorem splitTypeUnion_unionType_singleton {t : TypeName} (h : Encoded t.toList)
    (htop : hasTopUnion t.toList = false) : splitTypeUnion (unionType [t]) = [t] := by
  have hunion : TypeName.union (chars [t]) = t.toList := by
    rw [chars, List.map_singleton, TypeName.union, List.map_singleton, Text.joinWith, groupMember,
      if_neg (by simp [htop])]
  have hunwrap : ∀ n, unwrapGroups n t.toList = t.toList := by
    intro n
    cases n with
    | zero => rfl
    | succ n =>
      have hnone : unwrapGroup? t.toList = none := by
        cases hcs : t.toList with
        | nil => rfl
        | cons c cs =>
          have hc : c ≠ '(' := h.head c (by rw [hcs]; rfl)
          simp [unwrapGroup?, hc]
      rw [unwrapGroups, hnone]
  rw [splitTypeUnion, unionType, String.toList_ofList, hunion]
  simp only [compact_eq_self h.clean, hunwrap]
  have hchoice : Choice (chars [t]) := .singleton h
  rw [← hunion, hchoice.canonicalUnion_eq (fun _ => id) rfl, map_ofList_chars]

end ScriptTypes.TypeName
