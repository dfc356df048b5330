import ScriptTypes.Index.Element
import ScriptTypes.Proofs.Duplicates
import ScriptTypes.Proofs.TypeName.Encoding

/-!
# The parameters in the name of a function

The name of a function with a signature has a slot for each parameter. In its canonical form the
slots are still there, each with its types once, as long as they are encoded types: whatever the
return types are, they stand behind the parameters and do not reach into them. There is one way to
lose the slots. If the text of the return types ends in the array suffix, with or without markers
behind it, the whole name is read as that of an array.
-/

namespace ScriptTypes.TypeName

/-- The texts between the commas of the parameters in a function's name. -/
def parameterTexts (name : List Char) : List (List Char) :=
  match Text.dropPrefix? function name with
  | some ('(' :: cs) =>
    match splitAtClose '(' ')' cs with
    | some (inner, _) => if inner.isEmpty then [] else splitTop isComma inner
    | none => []
  | _ => []

/-- The slots of the parameters in a function's name. -/
def parameterSlots (name : TypeName) : List TypeName :=
  (parameterTexts name.toList).map String.ofList

/-- Does the text of return types end in the array suffix, once its markers are gone? -/
def endsInSuffix (returns : List (List Char)) : Bool :=
  (Text.dropSuffix? ['[', ']'] (Text.dropRightWhile (· == '=') (union returns))).isSome

/-! ### Lists with repetitions -/

theorem addNew_eq_eraseDups (names : List (List Char)) : addNew [] names = names.eraseDups := by
  induction names using List.reverseRecOn with
  | nil => rfl
  | append_singleton names n ih =>
    rw [addNew_append, ih, List.eraseDups_append]
    by_cases hn : n ∈ names
    · simp [addNew_cons_of_mem (List.mem_eraseDups.2 hn), List.removeAll, hn]
    · have hnew : n ∉ names.eraseDups := fun hmem => hn (List.mem_eraseDups.1 hmem)
      simp [addNew_cons_of_not_mem hnew, List.removeAll, hn, List.eraseDups_cons]

variable {pss : List (List (List Char))} {rs : List (List Char)}

/-- A parameter that lists encoded types keeps each of them once. -/
theorem canonicalParam_union {ms : List (List Char)} (hne : ms ≠ []) (h : ∀ m ∈ ms, Encoded m) :
    canonicalParam canonicalize? canonicalize? (union ms) = union ms.eraseDups := by
  have halternatives : ∀ m ∈ ms,
      alternatives canonicalize? canonicalize? (groupMember m) = [m] := fun m hm =>
    alternatives_groupMember (canonicalize?_of_settled (h m hm).settled) fun htop =>
      ⟨(h m hm).unwrapGroup?_groupMember htop, (h m hm).grouped htop⟩
  have hunion : unionWith canonicalize? canonicalize? isBar (union ms) = ms.eraseDups := by
    rw [unionWith_eq, splitTop_union h hne isBarOrComma_of_isBar rfl, List.flatMap_map,
      List.flatMap_congr halternatives, List.flatMap_singleton', addNew_eq_eraseDups]
  rw [canonicalParam, hunion]
  split
  · rename_i hnil
    obtain ⟨m, hm⟩ := List.exists_mem_of_ne_nil ms hne
    have hmem := List.mem_eraseDups.2 hm
    rw [hnil] at hmem
    cases hmem
  · rfl

/-- Parameters that each list encoded types. -/
structure Params (pss : List (List (List Char))) : Prop where
  ne_nil : ∀ ps ∈ pss, ps ≠ []
  encoded : ∀ ps ∈ pss, ∀ p ∈ ps, Encoded p

namespace Params

theorem eraseDups (h : Params pss) : Params (pss.map List.eraseDups) := by
  constructor
  · intro _ hmem
    obtain ⟨ps, hps, rfl⟩ := List.mem_map.1 hmem
    obtain ⟨p, hp⟩ := List.exists_mem_of_ne_nil ps (h.ne_nil ps hps)
    exact List.ne_nil_of_mem (List.mem_eraseDups.2 hp)
  · intro _ hmem p hp
    obtain ⟨ps, hps, rfl⟩ := List.mem_map.1 hmem
    exact h.encoded ps hps p (List.mem_eraseDups.1 hp)

theorem join_ne_nil (h : Params pss) (hne : pss ≠ []) :
    Text.joinWith [','] (pss.map union) ≠ [] := by
  obtain ⟨ps, hps⟩ := List.exists_mem_of_ne_nil pss hne
  obtain ⟨p, hp⟩ := List.exists_mem_of_ne_nil ps (h.ne_nil ps hps)
  have hsub : p.Sublist (Text.joinWith [','] (pss.map union)) :=
    (sublist_union hp).trans (sublist_joinWith (List.mem_map_of_mem hps))
  intro hnil
  rw [hnil, List.sublist_nil] at hsub
  exact (h.encoded ps hps p hp).ne_nil hsub

theorem canonicalParams_eq (h : Params pss) :
    canonicalParams canonicalize? canonicalize? (Text.joinWith [','] (pss.map union))
      = (pss.map List.eraseDups).map union := by
  by_cases hne : pss = []
  · rw [hne]
    rfl
  · rw [canonicalParams, if_neg (by simpa using h.join_ne_nil hne), splitTop_params h.encoded hne,
      List.map_map, List.map_map]
    refine List.map_congr_left fun ps hps => ?_
    exact canonicalParam_union (h.ne_nil ps hps) (h.encoded ps hps)

/-- The slots of a signature are its parameters, whatever it returns. -/
theorem parameterTexts_signature (h : Params pss) (rs : List (List Char)) :
    parameterTexts (functionSignature (pss.map union) rs) = pss.map union := by
  have hcall : Text.dropPrefix? function (functionSignature (pss.map union) rs)
      = some ('(' :: (Text.joinWith [','] (pss.map union)
        ++ ')' :: (if rs = [] then none else some (union rs)).elim [] (':' :: ·))) := by
    rw [Text.dropPrefix?_eq_some_iff, functionSignature, signature_eq, List.append_assoc,
      List.cons_append]
  have hclose := (nested_params h.encoded).parentheses.splitAtClose (by decide)
    ((if rs = [] then none else some (union rs)).elim [] (':' :: ·))
  simp only [parameterTexts, hcall, hclose]
  by_cases hne : pss = []
  · rw [hne]
    rfl
  · rw [if_neg (by simpa using h.join_ne_nil hne), splitTop_params h.encoded hne]

end Params

/-! ### The shape of a signature -/

/-- The array suffix does not reach over other characters. -/
theorem isSome_dropSuffix?_append_cons {c : Char} (hc : c ≠ '[' ∧ c ≠ ']') (xs ys : List Char) :
    (Text.dropSuffix? ['[', ']'] (xs ++ c :: ys)).isSome
      = (Text.dropSuffix? ['[', ']'] ys).isSome := by
  have hreverse : (xs ++ c :: ys).reverse = ys.reverse ++ c :: xs.reverse := by simp
  rw [Text.dropSuffix?, Text.dropSuffix?, Option.isSome_map, Option.isSome_map, hreverse]
  match ys.reverse with
  | [] => simp [Text.dropPrefix?, hc.2.symm]
  | [d] => by_cases hd : ']' = d <;> simp [Text.dropPrefix?, hd, hc.1.symm]
  | d :: d' :: rest =>
    simp only [List.reverse_cons, List.reverse_nil, List.nil_append, List.cons_append,
      Text.dropPrefix?]
    split
    · split <;> rfl
    · rfl

/-- A signature without the markers behind its return types. -/
theorem dropMarkers_signature (params rs : List (List Char)) :
    dropMarkers (functionSignature params rs)
      = function ++ '(' :: (Text.joinWith [','] params ++ ')' ::
        (if rs = [] then none else some (Text.dropRightWhile (· == '=') (union rs))).elim []
          (':' :: ·)) := by
  have hleft (rest : List Char) : (function ++ rest).dropWhile isMarker = function ++ rest := rfl
  rw [functionSignature, signature_eq, List.append_assoc, List.cons_append, dropMarkers, hleft,
    ← List.cons_append, ← List.append_assoc, Text.dropRightWhile_append_cons rfl,
    List.append_assoc, List.cons_append]
  by_cases hne : rs = []
  · simp only [hne, if_true, Option.elim_none]
    rfl
  · have hcolon : Text.dropRightWhile (· == '=') (':' :: union rs)
        = ':' :: Text.dropRightWhile (· == '=') (union rs) :=
      Text.dropRightWhile_append_cons rfl [] _
    simp only [hne, if_false, Option.elim_some, hcolon]

theorem isSome_dropSuffix?_signature (params rs : List (List Char)) :
    (Text.dropSuffix? ['[', ']'] (dropMarkers (functionSignature params rs))).isSome
      = endsInSuffix rs := by
  rw [dropMarkers_signature, ← List.cons_append, ← List.append_assoc,
    isSome_dropSuffix?_append_cons (by decide)]
  by_cases hne : rs = []
  · simp only [hne, if_true, Option.elim_none]
    rfl
  · simp only [hne, if_false, Option.elim_some]
    exact isSome_dropSuffix?_append_cons (by decide) [] _

theorem shape_signature (h : Params pss) (hrs : endsInSuffix rs = false) :
    shape (functionSignature (pss.map union) rs)
      = .callable function (Text.joinWith [','] (pss.map union))
        (if rs = [] then none else some (Text.dropRightWhile (· == '=') (union rs))) := by
  have hsuffix := isSome_dropSuffix?_signature (pss.map union) rs
  rw [hrs, Option.isSome_eq_false_iff, Option.isNone_iff_eq_none] at hsuffix
  rw [shape]
  rw [dropMarkers_signature] at hsuffix ⊢
  generalize (if rs = [] then none
    else some (Text.dropRightWhile (· == '=') (union rs))) = returns at hsuffix ⊢
  have hclose := (nested_params h.encoded).parentheses.splitAtClose (by decide)
    (returns.elim [] (':' :: ·))
  have halias : alias? function = some function := by decide
  rw [shapeOf_compound (by decide) rfl hsuffix, compoundShape]
  simp only [closing, halias]
  cases returns <;> simp_all

theorem exists_shape_eq_array (params : List (List Char)) (hrs : endsInSuffix rs = true) :
    ∃ element, shape (functionSignature params rs) = .array element := by
  rw [← isSome_dropSuffix?_signature params rs, Option.isSome_iff_exists] at hrs
  obtain ⟨element, helement⟩ := hrs
  have hgroup : unwrapGroup? (dropMarkers (functionSignature params rs)) = none := by
    rw [dropMarkers_signature]
    rfl
  have hne : (dropMarkers (functionSignature params rs)).isEmpty = false := by
    rw [dropMarkers_signature]
    rfl
  exact ⟨element, by simp [shape, shapeOf, hgroup, hne, helement]⟩

/-! ### The canonical form of a signature -/

/-- The canonical form of an array type is one. -/
theorem array_isPrefix_canonicalize {e n : List Char} (h : canonicalize? (arrayOf e) = some n) :
    array <+: n := by
  have hbase : array ∈ encodingBases := by decide
  have halias : alias? array = some array := by decide
  have hname : arrayOf e = array ++ '<' :: (groupMember e ++ ['>']) := by simp [arrayOf, generic]
  have hshape : shape (arrayOf e)
      = compoundShape (arrayOf e) array '<' (groupMember e ++ ['>']) := by
    rw [hname]
    exact shape_compound hbase rfl (by simp [List.getLast?_cons])
  have hkept : array <+: arrayOf e := hname ▸ List.prefix_append _ _
  rw [canonicalize?_eq, canonicalStep, hshape] at h
  rcases compoundShape_angle (arrayOf e) array (groupMember e ++ ['>']) with
    heq | ⟨base, arguments, hbase', heq⟩
  · rw [heq] at h
    cases h
    exact hkept
  · obtain rfl : array = base := Option.some.inj (halias.symm.trans hbase')
    rw [heq] at h
    dsimp only at h
    split at h <;> cases h
    · exact List.prefix_rfl
    · rw [generic, List.append_assoc]
      exact List.prefix_append _ _

/-- Of an array type there are no parameters. -/
theorem parameterTexts_of_array {n : List Char} (h : array <+: n) : parameterTexts n = [] := by
  obtain ⟨rest, rfl⟩ := h
  rfl

theorem exists_canonicalize_signature (h : Params pss) (hrs : endsInSuffix rs = false) :
    ∃ rs', canonicalize? (functionSignature (pss.map union) rs)
      = some (functionSignature ((pss.map List.eraseDups).map union) rs') := by
  refine ⟨(if rs = [] then none else some (Text.dropRightWhile (· == '=') (union rs))).elim []
    (canonicalUnion isBarOrComma), ?_⟩
  rw [canonicalize?_eq, canonicalStep, shape_signature h hrs]
  simp only [h.canonicalParams_eq]
  rfl

/-- The canonical form of a signature has the slots of the parameters, with each type once, exactly
if the text of the return types does not end in the array suffix. -/
theorem exists_text_iff (h : Params pss) {i : Nat} {ps : List (List Char)}
    (hi : pss[i]? = some ps) :
    (∃ n, canonicalize? (functionSignature (pss.map union) rs) = some n ∧
      (parameterTexts n)[i]? = some (union ps.eraseDups)) ↔ endsInSuffix rs = false := by
  constructor
  · rintro ⟨n, hn, hslot⟩
    rw [Bool.eq_false_iff]
    intro hrs
    obtain ⟨element, hshape⟩ := exists_shape_eq_array (pss.map union) hrs
    rw [canonicalize?_eq, canonicalStep, hshape] at hn
    obtain ⟨e, -, hn⟩ := Option.bind_eq_some_iff.1 hn
    rw [parameterTexts_of_array (array_isPrefix_canonicalize hn)] at hslot
    cases hslot
  · intro hrs
    obtain ⟨rs', hcanonical⟩ := exists_canonicalize_signature h hrs
    refine ⟨_, hcanonical, ?_⟩
    rw [h.eraseDups.parameterTexts_signature, List.getElem?_map, List.getElem?_map, hi]
    rfl

/-- Nothing that is encoded ends in the array suffix. -/
theorem endsInSuffix_of_encoded (h : ∀ r ∈ rs, Encoded r) : endsInSuffix rs = false := by
  rw [endsInSuffix, Option.isSome_eq_false_iff, Option.isNone_iff_eq_none,
    Option.eq_none_iff_forall_not_mem]
  intro element helement
  have hsub : (Text.dropRightWhile (· == '=') (union rs)).Sublist (union rs) := by
    rw [Text.dropRightWhile, ← List.reverse_sublist, List.reverse_reverse]
    exact List.dropWhile_sublist _
  have hmem : ']' ∈ union rs :=
    hsub.subset (by rw [dropSuffix?_eq_some_iff.1 helement]; simp)
  exact List.countP_eq_zero.1 (clean_union h) ']' hmem rfl

end ScriptTypes.TypeName

namespace ScriptTypes.Signature

open ScriptTypes.TypeName

variable {sig : Signature}

theorem chars_slots (hne : ∀ p ∈ sig.parameters, p.types ≠ []) :
    chars (sig.parameters.map Parameter.slot)
      = (sig.parameters.map fun p => chars p.types).map union := by
  rw [chars, List.map_map, List.map_map]
  refine List.map_congr_left fun p hp => ?_
  simp [Parameter.slot, hne p hp, unionType]

/-- Return types in canonical form and encoded parameters have no blanks. -/
theorem compact_typeName {pss : List (List (List Char))} {rs : List TypeName} (h : Params pss)
    (hrs : ∀ r ∈ rs, compact r.toList = r.toList) :
    compact (functionSignature (pss.map union) (chars rs))
      = functionSignature (pss.map union) (chars rs) := by
  have hblank : Conserved Text.isBlank := ⟨by decide, by decide⟩
  have hparams : (Text.joinWith [','] (pss.map union)).countP Text.isBlank = 0 := by
    rw [List.countP_eq_zero]
    intro c hc hspace
    refine List.countP_eq_zero.1 (clean_params h.encoded) c hc ?_
    simp [isStray, hspace]
  have hreturns : weight Text.isBlank 0 (chars rs) = 0 := by
    rw [weight, List.sum_eq_zero_iff]
    intro k hk
    obtain ⟨t, ht, rfl⟩ := List.mem_map.1 hk
    obtain ⟨r, hr, rfl⟩ := List.mem_map.1 ht
    rw [← hrs r hr]
    simp [compact, List.countP_eq_zero]
  have hzero : (functionSignature (pss.map union) (chars rs)).countP Text.isBlank = 0 := by
    rw [functionSignature, hblank.countP_signature, hparams, hblank.countP_builtin (by decide)]
    split
    · rfl
    · rename_i hne
      have hunion : (union (chars rs)).countP Text.isBlank = weight Text.isBlank 0 (chars rs) :=
        hblank.countP_union hne
      rw [hunion, hreturns]
      rfl
  rw [compact, List.filter_eq_self]
  intro c hc
  simpa using List.countP_eq_zero.1 hzero c hc

/-- The canonical name of a signature whose parameters have encoded types keeps their slots, with
each type once, exactly if the text of the return types does not end in the array suffix. -/
theorem exists_slot_iff (hne : ∀ p ∈ sig.parameters, p.types ≠ [])
    (hparams : ∀ p ∈ sig.parameters, ∀ t ∈ p.types, Encoding t)
    (hreturns : ∀ r ∈ sig.returns, compact r.toList = r.toList) {i : Nat} {p : Parameter}
    (hi : sig.parameters[i]? = some p) :
    (∃ n, canonicalTypeName? sig.typeName = some n ∧
      (parameterSlots n)[i]? = some (unionType p.types.eraseDups)) ↔
      endsInSuffix (chars sig.returns) = false := by
  have hencoded : Params (sig.parameters.map fun p => chars p.types) := by
    constructor
    · intro _ hmem
      obtain ⟨p, hp, rfl⟩ := List.mem_map.1 hmem
      simpa [chars] using hne p hp
    · intro _ hmem _ hchars
      obtain ⟨p, hp, rfl⟩ := List.mem_map.1 hmem
      obtain ⟨t, ht, rfl⟩ := List.mem_map.1 hchars
      exact (hparams p hp t ht).encoded
  have hslot : (sig.parameters.map fun p => chars p.types)[i]? = some (chars p.types) := by
    rw [List.getElem?_map, hi, Option.map_some]
  have hdups : chars p.types.eraseDups = (chars p.types).eraseDups :=
    (eraseDups_map (fun _ _ => String.toList_injective) p.types).symm
  rw [← exists_text_iff hencoded hslot, ← hdups]
  rw [typeName, functionSignatureType, chars_slots hne, canonicalTypeName?, String.toList_ofList,
    compact_typeName hencoded hreturns]
  constructor
  · rintro ⟨_, hname, htext⟩
    obtain ⟨n, hn, rfl⟩ := Option.map_eq_some_iff.1 hname
    refine ⟨n, hn, ?_⟩
    rw [parameterSlots, String.toList_ofList, List.getElem?_map] at htext
    obtain ⟨text, hfound, heq⟩ := Option.map_eq_some_iff.1 htext
    rw [hfound, String.ofList_injective heq]
  · rintro ⟨n, hn, htext⟩
    refine ⟨String.ofList n, by rw [hn, Option.map_some], ?_⟩
    rw [parameterSlots, String.toList_ofList, List.getElem?_map, htext]
    rfl

end ScriptTypes.Signature
