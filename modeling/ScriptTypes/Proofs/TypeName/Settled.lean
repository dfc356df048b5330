import Mathlib
import ScriptTypes.Proofs.TypeName.Canonical
import ScriptTypes.TypeName.List

/-!
# Names that are their own canonical form

A canonical form is put together from canonical parts, but reading it again need not give the same
name: a group that held a group leaves parentheses behind, an empty pair of brackets uncovers a
marker, a parameter that held a comma falls apart. `Settled` describes the names that stay as they
are, by their structure: what they are cut into, how their lists are written, and that their
members are settled too. It is exact (`canonicalize?_eq_self_iff`).
-/

namespace ScriptTypes.TypeName

/-- A list of alternatives that is cut into its members again. A member that shows a bar at its top
level stands in parentheses that enclose it, and only a signature shows one. -/
structure Listed (sep : Char → Bool) (ms : List (List Char)) : Prop where
  ne_nil : ms ≠ []
  nodup : ms.Nodup
  splitTop : splitTop sep (union ms) = ms.map groupMember
  grouped : ∀ m ∈ ms, hasTopUnion m = true →
    unwrapGroup? (groupMember m) = some m ∧ returnsUnion m = true

/-- The names that are their own canonical form. -/
inductive Settled : List Char → Prop
  | plain {n : List Char} (hshape : shape n = .plain n) (hself : alias? n = some n) : Settled n
  | kept {n : List Char} {params : Option (List Char)} (hshape : shape n = .kept n params) :
      Settled n
  | generic {base : List Char} {ms : List (List Char)}
      (hshape : shape (generic base (union ms)) = .generic base (union ms))
      (hlist : Listed isBarOrComma ms) (hms : ∀ m ∈ ms, Settled m) :
      Settled (generic base (union ms))
  | callable {base : List Char} {pss : List (List (List Char))} {rs : List (List Char)}
      (hshape : shape (signature base (pss.map union) rs) =
        .callable base (Text.joinWith [','] (pss.map union)) (if rs = [] then none else some (union rs)))
      (hcut : pss ≠ [] → TypeName.splitTop isComma (Text.joinWith [','] (pss.map union))
        = pss.map union)
      (hparams : ∀ ps ∈ pss, Listed isBar ps) (hreturns : rs ≠ [] → Listed isBarOrComma rs)
      (hps : ∀ ps ∈ pss, ∀ p ∈ ps, Settled p) (hrs : ∀ r ∈ rs, Settled r) :
      Settled (signature base (pss.map union) rs)

/-! ### Settled names are fixed -/

theorem dropMarkers_parentheses (inner : List Char) :
    dropMarkers ('(' :: inner ++ [')']) = '(' :: inner ++ [')'] := by
  refine dropMarkers_eq_self (by simp [isMarker]) fun c hc => ?_
  rw [List.getLast?_concat, Option.mem_some] at hc
  rw [← hc]
  decide

theorem shape_of_unwrapGroup? {name inner : List Char} (h : unwrapGroup? name = some inner) :
    shape name = .group inner := by
  have hname := unwrapGroup?_eq_some h
  have hmarkers : dropMarkers name = name := hname ▸ dropMarkers_parentheses inner
  rw [shape, hmarkers, shapeOf, if_neg (by simp [hname])]
  simp [h]

/-- A group has the canonical form of what it encloses. -/
theorem canonicalize?_of_unwrapGroup? {name inner : List Char}
    (h : unwrapGroup? name = some inner) : canonicalize? name = canonicalize? inner := by
  rw [canonicalize?_eq, canonicalStep, shape_of_unwrapGroup? h]

/-- A member that is its own canonical form is the one alternative that it stands for. -/
theorem alternatives_groupMember {m : List Char} (hself : canonicalize? m = some m)
    (hgrouped : hasTopUnion m = true →
      unwrapGroup? (groupMember m) = some m ∧ returnsUnion m = true) :
    alternatives canonicalize? canonicalize? (groupMember m) = [m] := by
  have hcanon : canonicalize? (groupMember m) = some m := by
    by_cases htop : hasTopUnion m = true
    · rw [canonicalize?_of_unwrapGroup? (hgrouped htop).1, hself]
    · rw [groupMember, if_neg htop, hself]
  rw [alternatives, hcanon, Option.elim_some]
  exact members_eq_singleton fun htop => (hgrouped htop).2

/-- A list of alternatives that are their own canonical form is read back as it is. -/
theorem Listed.unionWith_eq {sep : Char → Bool} {ms : List (List Char)} (h : Listed sep ms)
    (hms : ∀ m ∈ ms, canonicalize? m = some m) :
    unionWith canonicalize? canonicalize? sep (union ms) = ms := by
  rw [TypeName.unionWith_eq, h.splitTop, List.flatMap_map,
    List.flatMap_congr fun m hm => alternatives_groupMember (hms m hm) (h.grouped m hm),
    List.flatMap_singleton']
  exact addNew_eq_append h.nodup

theorem canonicalize?_nil : canonicalize? [] = none := by decide

theorem sublist_groupMember (m : List Char) : m.Sublist (groupMember m) := by
  unfold groupMember
  split
  · exact List.IsInfix.sublist ⟨['('], [')'], rfl⟩
  · exact List.Sublist.refl m

theorem sublist_union {m : List Char} {ms : List (List Char)} (h : m ∈ ms) : m.Sublist (union ms) :=
  (sublist_groupMember m).trans (sublist_joinWith (List.mem_map_of_mem h))

/-- Parameters that are lists of names with their own canonical form are read back as they are. -/
theorem canonicalParams_eq {pss : List (List (List Char))}
    (hcut : pss ≠ [] → splitTop isComma (Text.joinWith [','] (pss.map union)) = pss.map union)
    (hparams : ∀ ps ∈ pss, Listed isBar ps)
    (hps : ∀ ps ∈ pss, ∀ p ∈ ps, canonicalize? p = some p) :
    canonicalParams canonicalize? canonicalize? (Text.joinWith [','] (pss.map union))
      = pss.map union := by
  cases pss with
  | nil => rfl
  | cons ps pss =>
      have hne : Text.joinWith [','] ((ps :: pss).map union) ≠ [] := by
        intro hnil
        obtain ⟨p, hp⟩ := List.exists_mem_of_ne_nil ps (hparams ps (by simp)).ne_nil
        have hsub : p.Sublist [] := hnil ▸ (sublist_union hp).trans (sublist_joinWith (by simp))
        have hself := hps ps (by simp) p hp
        rw [List.sublist_nil.1 hsub, canonicalize?_nil] at hself
        cases hself
      rw [canonicalParams, if_neg (by simpa using hne), hcut (by simp), List.map_map]
      refine List.map_congr_left fun qs hqs => ?_
      have hqs' := hparams qs hqs
      rw [Function.comp_apply, canonicalParam, hqs'.unionWith_eq (hps qs hqs)]
      split
      · exact absurd rfl hqs'.ne_nil
      · rfl

theorem canonicalize?_of_settled {n : List Char} (h : Settled n) : canonicalize? n = some n := by
  induction h with
  | plain hshape hself =>
      rw [canonicalize?_eq, canonicalStep, hshape]
      exact hself
  | kept hshape => rw [canonicalize?_eq, canonicalStep, hshape]
  | @generic base ms hshape hlist _ ih =>
      rw [canonicalize?_eq, canonicalStep, hshape]
      simp only [hlist.unionWith_eq ih]
      split
      · exact absurd rfl hlist.ne_nil
      · rfl
  | @callable base pss rs hshape hcut hparams hreturns _ _ ihps ihrs =>
      have hps := canonicalParams_eq hcut hparams ihps
      have hrs : (if rs = [] then none else some (union rs)).elim []
          (unionWith canonicalize? canonicalize? isBarOrComma) = rs := by
        by_cases hnil : rs = []
        · simp [hnil]
        · simpa [hnil] using (hreturns hnil).unionWith_eq ihrs
      rw [canonicalize?_eq, canonicalStep, hshape]
      simp only [hps, hrs]

/-! ### Fixed lists are listed -/

theorem conserved_isBarOrComma : Conserved isBarOrComma := ⟨by decide, by decide⟩

theorem conserved_isComma : Conserved isComma := ⟨by decide, by decide⟩

/-- A name in parentheses that do not belong together makes no sense. -/
theorem shape_of_stray_parentheses {q : List Char} (h : unwrapGroup? ('(' :: q ++ [')']) = none) :
    shape ('(' :: q ++ [')']) = .kept ('(' :: q ++ [')']) none := by
  have hcut := cut_shape ('(' :: q ++ [')'])
  rw [dropMarkers_parentheses] at hcut
  have hbase {plain rest base : List Char} (hname : '(' :: q ++ [')'] = plain ++ rest)
      (hplain : ∀ c ∈ plain, opensArguments c = false) (hbase : alias? plain = some base) :
      False := by
    cases plain with
    | nil =>
        rw [alias?_nil] at hbase
        cases hbase
    | cons c plain =>
        have hc : '(' = c := (List.cons.inj hname).1
        have := hplain c (by simp)
        rw [← hc] at this
        cases this
  generalize shape ('(' :: q ++ [')']) = s at hcut ⊢
  cases hcut with
  | nothing hname => cases hname
  | group hunwrap =>
      rw [h] at hunwrap
      cases hunwrap
  | @array element hname =>
      have hlast := congrArg List.getLast? hname
      rw [List.getLast?_concat] at hlast
      simp at hlast
  | plain hplain =>
      have := hplain '(' (by simp)
      cases this
  | @kept params _ hparams =>
      cases params with
      | none => rfl
      | some inner =>
          obtain ⟨plain, base, rest, hname, hplain, hb⟩ := hparams inner rfl
          exact (hbase (by rw [hname, List.append_assoc]) hplain hb).elim
  | generic hname hplain hb => exact (hbase (by rw [hname, List.append_assoc]) hplain hb).elim
  | callable hname hplain hb => exact (hbase (by rw [hname, List.append_assoc]) hplain hb).elim

theorem countP_isBarOrComma (cs : List Char) :
    cs.countP isBarOrComma = cs.count '|' + cs.countP isComma := by
  induction cs with
  | nil => rfl
  | cons c cs ih =>
      by_cases hbar : c = '|'
      · subst hbar
        have hcomma : isComma '|' = false := by decide
        have hboth : isBarOrComma '|' = true := by decide
        simp only [List.countP_cons, List.count_cons, ih, hcomma, hboth]
        simp
        omega
      · simp [List.countP_cons, ih, isBarOrComma, isBar, hbar, Nat.add_assoc]

section FixedList

variable {sep : Char → Bool} {list : List Char}

/-- A list that is the union of its alternatives loses no characters when it is cut, when the
pieces are read and when repeated alternatives are left out. -/
theorem weight_eq_of_union_eq (hsep : ∀ c, sep c = true → isBarOrComma c = true)
    (hne : canonicalUnion sep list ≠ []) (hlist : union (canonicalUnion sep list) = list)
    {k : Char → Bool} (hk : Conserved k) :
    let alts := (splitTop sep list).flatMap (alternatives canonicalize? canonicalize?)
    weight k (k '|').toNat alts + alts.length * (k '|').toNat
        ≤ weight k (k '|').toNat alts + (canonicalUnion sep list).length * (k '|').toNat ∧
      weight k (k '|').toNat alts = weight k (k '|').toNat (splitTop sep list) ∧
      weight k (k '|').toNat (splitTop sep list) = list.countP k + (k '|').toNat := by
  intro alts
  have hnew : canonicalUnion sep list = addNew [] alts := unionWith_eq _ _ _ _
  have hsub : (canonicalUnion sep list).Sublist alts := hnew ▸ addNew_sublist alts
  have hlength := Nat.mul_le_mul_right (k '|').toNat hsub.length_le
  have hout := weight_sublist (k := k) (b := (k '|').toNat) hsub
  have hread : weight k (k '|').toNat alts ≤ weight k (k '|').toNat (splitTop sep list) :=
    weight_flatMap_le fun p _ =>
      weight_alternatives_le hk.noMore_canonicalize hk.noMore_canonicalize p
  have hcut : weight k (k '|').toNat (splitTop sep list) ≤ list.countP k + (k '|').toNat :=
    weight_splitTop_le (fun c hc => hk.bar_le (hsep c hc)) list
  have hunion := hk.countP_union hne
  rw [hlist] at hunion
  exact ⟨by omega, by omega, by omega⟩

theorem canonicalUnion_eq_of_union_eq (hsep : ∀ c, sep c = true → isBarOrComma c = true)
    (hne : canonicalUnion sep list ≠ []) (hlist : union (canonicalUnion sep list) = list) :
    canonicalUnion sep list
      = (splitTop sep list).flatMap (alternatives canonicalize? canonicalize?) := by
  obtain ⟨hlength, -, -⟩ := weight_eq_of_union_eq hsep hne hlist conserved_isBarOrComma
  have hone : (isBarOrComma '|').toNat = 1 := by decide
  rw [hone, Nat.mul_one, Nat.mul_one] at hlength
  have hsub : (canonicalUnion sep list).Sublist
      ((splitTop sep list).flatMap (alternatives canonicalize? canonicalize?)) := by
    rw [canonicalUnion, unionWith_eq]
    exact addNew_sublist _
  exact hsub.eq_of_length_le (by omega)

/-- Each piece of such a list has as many characters of a kind as the alternatives it stands for. -/
theorem weight_alternatives_eq (hsep : ∀ c, sep c = true → isBarOrComma c = true)
    (hne : canonicalUnion sep list ≠ []) (hlist : union (canonicalUnion sep list) = list)
    {k : Char → Bool} (hk : Conserved k) {p : List Char} (hp : p ∈ splitTop sep list) :
    weight k (k '|').toNat (alternatives canonicalize? canonicalize? p)
      = p.countP k + (k '|').toNat := by
  obtain ⟨-, hread, -⟩ := weight_eq_of_union_eq hsep hne hlist hk
  exact weight_flatMap_eq (fun q _ =>
    weight_alternatives_le hk.noMore_canonicalize hk.noMore_canonicalize q) hread p hp

/-- Each piece of such a list is the union of the alternatives it stands for. -/
theorem union_alternatives_eq (hsep : ∀ c, sep c = true → isBarOrComma c = true)
    (hne : canonicalUnion sep list ≠ []) (hlist : union (canonicalUnion sep list) = list)
    {p : List Char} (hp : p ∈ splitTop sep list) :
    union (alternatives canonicalize? canonicalize? p) = p := by
  have hsome : ∀ p ∈ splitTop sep list, alternatives canonicalize? canonicalize? p ≠ [] := by
    intro p hp hnil
    have := weight_alternatives_eq hsep hne hlist conserved_isBarOrComma hp
    rw [hnil, weight_nil] at this
    simp [isBarOrComma, isBar] at this
  -- no comma is lost, so the list is also its pieces joined with bars
  have hpieces : Text.joinWith ['|'] (splitTop sep list) = list := by
    obtain ⟨-, -, hcommas⟩ := weight_eq_of_union_eq hsep hne hlist conserved_isComma
    have hzero : (isComma '|').toNat = 0 := by decide
    rw [hzero] at hcommas
    exact joinWith_splitFrom_of_commas hsep 0 [] list (by simpa [splitTop] using hcommas)
  have hunions : Text.joinWith ['|'] ((splitTop sep list).map fun p =>
      union (alternatives canonicalize? canonicalize? p)) = list := by
    conv_rhs => rw [← hlist, canonicalUnion_eq_of_union_eq hsep hne hlist]
    rw [union, List.map_flatMap, joinWith_flatMap (by simpa using hsome)]
    rfl
  have hcount : ∀ p ∈ splitTop sep list,
      p.count '|' = (union (alternatives canonicalize? canonicalize? p)).count '|' := by
    intro p hp
    have hboth := weight_alternatives_eq hsep hne hlist conserved_isBarOrComma hp
    have hcomma := weight_alternatives_eq hsep hne hlist conserved_isComma hp
    rw [← conserved_isBarOrComma.countP_union (hsome p hp), countP_isBarOrComma,
      countP_isBarOrComma] at hboth
    rw [← conserved_isComma.countP_union (hsome p hp)] at hcomma
    omega
  have heq := eq_of_joinWith_eq (x := '|') (List.forall₂_map_right_iff.2 (List.forall₂_same.2 hcount))
    (hpieces.trans hunions.symm)
  rw [← List.map_id (splitTop sep list), List.map_map] at heq
  exact (List.map_inj_left.1 heq p hp).symm

/-- A union of several alternatives shows a bar, unless the first one leaves a bracket open. -/
theorem anyTopFrom_union {m m' : List Char} {ms : List (List Char)} (hbar : sep '|' = true)
    (hm : net m = 0) : anyTopFrom sep 0 (union (m :: m' :: ms)) = true := by
  have hjoin : union (m :: m' :: ms) = groupMember m ++ '|' :: union (m' :: ms) :=
    joinWith_cons _ (by simp)
  rw [hjoin, anyTopFrom_append, net_groupMember, hm]
  simp [anyTopFrom, hbar]

/-- No piece of such a list is a union that was flattened: the flattened one would show its bars,
and would have been cut at them. -/
theorem members_of_union_eq (hsep : ∀ c, sep c = true → isBarOrComma c = true)
    (hbar : sep '|' = true) (hne : canonicalUnion sep list ≠ [])
    (hlist : union (canonicalUnion sep list) = list) {p q : List Char}
    (hp : p ∈ splitTop sep list) (hq : canonicalize? p = some q) :
    members canonicalize? q = [q] ∧ (hasTopUnion q = true → returnsUnion q = true) := by
  refine (members_cases canonicalize? q).resolve_right ?_
  rintro ⟨htop, hmembers⟩
  have halts : alternatives canonicalize? canonicalize? p = members canonicalize? q := by
    rw [alternatives, hq, Option.elim_some]
  have hlength : 2 ≤ (members canonicalize? q).length := by
    have hweight := weight_alternatives_eq hsep hne hlist conserved_isBarOrComma hp
    have hparts := (hasTopUnion_iff q).1 htop
    have hread := weight_filterMap_le (b := (isBarOrComma '|').toNat)
      conserved_isBarOrComma.noMore_canonicalize (splitTop isBar q)
    have hcut : weight isBarOrComma (isBarOrComma '|').toNat (splitTop isBar q) ≤ _ :=
      weight_splitTop_le (fun c hc => by rw [beq_iff_eq.1 hc]) q
    have hcanon := conserved_isBarOrComma.noMore_canonicalize hq
    have hone : (isBarOrComma '|').toNat = 1 := by decide
    rw [halts, hmembers, hone] at hweight
    rw [hone] at hread hcut
    rw [hmembers]
    omega
  have hlevel := level_members keepsNet_canonicalize q
  have hunion := union_alternatives_eq hsep hne hlist hp
  have htopless := anyTopFrom_of_mem_splitTop hp
  rw [halts] at hunion
  rcases hms : members canonicalize? q with _ | ⟨m, _ | ⟨m', ms⟩⟩
  · simp [hms] at hlength
  · simp [hms] at hlength
  · rw [hms] at hlevel hunion
    rw [← hunion, anyTopFrom_union hbar hlevel.head] at htopless
    cases htopless

/-- Each piece of such a list is one member that is its own canonical form. -/
theorem member_of_union_eq (hsep : ∀ c, sep c = true → isBarOrComma c = true)
    (hbar : sep '|' = true) (hne : canonicalUnion sep list ≠ [])
    (hlist : union (canonicalUnion sep list) = list) {p : List Char}
    (hp : p ∈ splitTop sep list) :
    ∃ m, alternatives canonicalize? canonicalize? p = [m] ∧ groupMember m = p ∧
      canonicalize? m = some m ∧
      (hasTopUnion m = true → unwrapGroup? (groupMember m) = some m ∧ returnsUnion m = true) := by
  have hunion := union_alternatives_eq hsep hne hlist hp
  cases hq : canonicalize? p with
  | none =>
      have := weight_alternatives_eq hsep hne hlist conserved_isBarOrComma hp
      rw [alternatives, hq] at this
      simp [isBarOrComma, isBar] at this
  | some q =>
      obtain ⟨hmembers, hreturns⟩ := members_of_union_eq hsep hbar hne hlist hp hq
      have halts : alternatives canonicalize? canonicalize? p = [q] := by
        rw [alternatives, hq, Option.elim_some, hmembers]
      rw [halts] at hunion
      have hgroup : groupMember q = p := hunion
      refine ⟨q, halts, hgroup, ?_⟩
      by_cases htop : hasTopUnion q = true
      · have hparens : p = '(' :: q ++ [')'] := by
          rw [← hgroup, groupMember, if_pos htop]
        cases hunwrap : unwrapGroup? p with
        | none =>
            rw [hparens] at hunwrap hq
            rw [canonicalize?_eq, canonicalStep, shape_of_stray_parentheses hunwrap] at hq
            have hlength := congrArg List.length (Option.some.inj hq)
            simp only [List.length_append, List.length_cons] at hlength
            omega
        | some inner =>
            have hinner : inner = q := by
              simpa [hparens] using (unwrapGroup?_eq_some hunwrap).symm
            rw [hinner] at hunwrap
            rw [canonicalize?_of_unwrapGroup? hunwrap] at hq
            exact ⟨hq, fun _ => ⟨hgroup ▸ hunwrap, hreturns htop⟩⟩
      · have hself : q = p := by
          rw [← hgroup, groupMember, if_neg htop]
        exact ⟨by rw [hself, hq, hself], fun h => absurd h htop⟩

/-- A list that is the union of its alternatives is cut into them, and each of them is its own
canonical form. -/
theorem listed_of_union_eq (hsep : ∀ c, sep c = true → isBarOrComma c = true)
    (hbar : sep '|' = true) (hne : canonicalUnion sep list ≠ [])
    (hlist : union (canonicalUnion sep list) = list) :
    Listed sep (canonicalUnion sep list) ∧
      ∀ m ∈ canonicalUnion sep list, canonicalize? m = some m := by
  have hflat := canonicalUnion_eq_of_union_eq hsep hne hlist
  have hpiece : ∀ m ∈ canonicalUnion sep list, ∃ p ∈ splitTop sep list,
      alternatives canonicalize? canonicalize? p = [m] ∧ canonicalize? m = some m ∧
      (hasTopUnion m = true → unwrapGroup? (groupMember m) = some m ∧ returnsUnion m = true) := by
    intro m hm
    rw [hflat] at hm
    obtain ⟨p, hp, hm⟩ := List.mem_flatMap.1 hm
    obtain ⟨q, halts, -, hself, hgrouped⟩ := member_of_union_eq hsep hbar hne hlist hp
    rw [halts, List.mem_singleton] at hm
    subst hm
    exact ⟨p, hp, halts, hself, hgrouped⟩
  refine ⟨⟨hne, ?_, ?_, ?_⟩, ?_⟩
  · rw [canonicalUnion, unionWith_eq]
    exact nodup_addNew _
  · have hgroups : ∀ p ∈ splitTop sep list,
        (alternatives canonicalize? canonicalize? p).map groupMember = [p] := by
      intro p hp
      obtain ⟨m, halts, hgroup, -⟩ := member_of_union_eq hsep hbar hne hlist hp
      rw [halts, List.map_singleton, hgroup]
    rw [hlist, hflat, List.map_flatMap, List.flatMap_congr hgroups, List.flatMap_singleton']
  · intro m hm
    obtain ⟨-, -, -, -, hgrouped⟩ := hpiece m hm
    exact hgrouped
  · intro m hm
    obtain ⟨-, -, -, hself, -⟩ := hpiece m hm
    exact hself

end FixedList

/-! ### Fixed names are settled -/

/-- A fixed name has no markers to lose. -/
theorem dropMarkers_of_fixed {n : List Char} (h : canonicalize? n = some n) : dropMarkers n = n := by
  obtain ⟨l, r, heq, hl, hr⟩ := exists_markers n
  have hcount {k : Char → Bool} (hk : Conserved k) :
      l.countP k + r.countP k = 0 := by
    rw [canonicalize?_eq] at h
    have hle := hk.countP_canonicalStep_le hk.noMore_canonicalize hk.noMore_canonicalize h
    have hn := congrArg (List.countP k) heq
    rw [List.countP_append, List.countP_append] at hn
    omega
  have hmarkers := hcount (k := isMarker) ⟨by decide, by decide⟩
  have hequals := hcount (k := (· == '=')) ⟨by decide, by decide⟩
  have hl' : l = [] := by
    rw [List.countP_eq_length.2 hl] at hmarkers
    exact List.length_eq_zero_iff.1 (by omega)
  have hr' : r = [] := by
    have hall : r.countP (· == '=') = r.length :=
      List.countP_eq_length.2 fun c hc => beq_iff_eq.2 (hr c hc)
    exact List.length_eq_zero_iff.1 (by omega)
  rw [hl', hr', List.nil_append, List.append_nil] at heq
  exact heq.symm

theorem opens_builtin : ∀ b ∈ builtins, b.all (!opensArguments ·) = true ∧ b ≠ [] := by decide

theorem opens_alias {plain base : List Char} (h : alias? plain = some base)
    (hplain : ∀ c ∈ plain, opensArguments c = false) :
    base ≠ [] ∧ ∀ c ∈ base, opensArguments c = false := by
  rcases alias?_eq_some h with rfl | ⟨-, hb⟩
  · refine ⟨?_, hplain⟩
    rintro rfl
    rw [alias?_nil] at h
    cases h
  · obtain ⟨hall, hne⟩ := opens_builtin base hb
    exact ⟨hne, fun c hc => by simpa using List.all_eq_true.1 hall c hc⟩

theorem unwrapGroup?_base_append {base : List Char} (rest : List Char) (hne : base ≠ [])
    (hbase : ∀ c ∈ base, opensArguments c = false) : unwrapGroup? (base ++ rest) = none := by
  cases base with
  | nil => exact absurd rfl hne
  | cons c base =>
      cases hunwrap : unwrapGroup? (c :: base ++ rest) with
      | none => rfl
      | some inner =>
          have hc : c = '(' := (List.cons.inj (unwrapGroup?_eq_some hunwrap)).1
          have := hbase c (by simp)
          rw [hc] at this
          cases this

/-- A canonical form is never a group. -/
theorem unwrapGroup?_canonicalize {raw n : List Char} (h : canonicalize? raw = some n) :
    unwrapGroup? n = none := by
  refine canonicalize?_induction (P := fun _ r => ∀ n, r = some n → unwrapGroup? n = none)
    (fun _ => none) (by simp) ?_ raw n h
  intro canon again hcanon hagain raw n h
  have hcut := cut_shape raw
  unfold canonicalStep at h
  generalize shape raw = s at hcut h
  generalize dropMarkers raw = name at hcut
  cases hcut with
  | nothing => cases h
  | @group inner => exact hcanon inner n h
  | @array element =>
      obtain ⟨e, -, hn⟩ := Option.bind_eq_some_iff.1 h
      exact hagain _ n hn
  | plain hplain =>
      obtain ⟨hne, hopens⟩ := opens_alias h hplain
      simpa using unwrapGroup?_base_append [] hne hopens
  | kept hgroup =>
      cases h
      exact hgroup
  | @generic plain base inner _ hplain hbase =>
      obtain ⟨hne, hopens⟩ := opens_alias hbase hplain
      simp only at h
      split at h <;> cases h
      · simpa using unwrapGroup?_base_append [] hne hopens
      · rw [generic, List.append_assoc]
        exact unwrapGroup?_base_append _ hne hopens
  | @callable plain base inner returns _ hplain hbase =>
      obtain ⟨hne, hopens⟩ := opens_alias hbase hplain
      cases h
      rw [signature_eq, List.append_assoc]
      exact unwrapGroup?_base_append _ hne hopens

/-- The base of a name ends at its first opening bracket. -/
theorem append_opens_inj {plain base x y : List Char} {c d : Char}
    (hplain : ∀ a ∈ plain, opensArguments a = false) (hbase : ∀ a ∈ base, opensArguments a = false)
    (hc : opensArguments c = true) (hd : opensArguments d = true)
    (h : plain ++ c :: x = base ++ d :: y) : plain = base ∧ x = y := by
  induction plain generalizing base with
  | nil =>
      cases base with
      | nil => exact ⟨rfl, (List.cons.inj h).2⟩
      | cons b base =>
          have hb := hbase b (by simp)
          rw [← (List.cons.inj h).1, hc] at hb
          cases hb
  | cons a plain ih =>
      cases base with
      | nil =>
          have ha := hplain a (by simp)
          rw [(List.cons.inj h).1, hd] at ha
          cases ha
      | cons b base =>
          obtain ⟨rfl, hrest⟩ := List.cons.inj h
          obtain ⟨rfl, rfl⟩ := ih (fun a ha => hplain a (List.mem_cons_of_mem _ ha))
            (fun a ha => hbase a (List.mem_cons_of_mem _ ha)) hrest
          exact ⟨rfl, rfl⟩

/-- Each parameter of a list that stays as it is stays as it is. -/
theorem canonicalParam_eq_self {inner : List Char} (hne : inner ≠ [])
    (h : Text.joinWith [','] (canonicalParams canonicalize? canonicalize? inner) = inner) :
    ∀ p ∈ splitTop isComma inner, canonicalParam canonicalize? canonicalize? p = p := by
  have hpieces : splitTop isComma inner ≠ [] := splitFrom_ne_nil _ _ _ _
  rw [canonicalParams, if_neg (by simpa using hne)] at h
  have hle : ∀ p ∈ splitTop isComma inner,
      weight isComma 1 [canonicalParam canonicalize? canonicalize? p] ≤ p.countP isComma + 1 := by
    intro p _
    have := conserved_isComma.countP_canonicalParam_le conserved_isComma.noMore_canonicalize
      conserved_isComma.noMore_canonicalize p
    rw [weight_cons, weight_nil]
    omega
  have hweight : weight isComma 1 ((splitTop isComma inner).flatMap fun p =>
      [canonicalParam canonicalize? canonicalize? p]) = weight isComma 1 (splitTop isComma inner) := by
    have hne' : (splitTop isComma inner).map (canonicalParam canonicalize? canonicalize?) ≠ [] := by
      simpa using hpieces
    have hparams := countP_joinWith (k := isComma) ',' hne'
    have hinner := countP_joinWith (k := isComma) ',' hpieces
    rw [h] at hparams
    rw [joinWith_splitTop_isComma] at hinner
    have hone : (isComma ',').toNat = 1 := by decide
    rw [← List.map_eq_flatMap, ← hone, ← hparams, ← hinner]
  have hcount : ∀ p ∈ splitTop isComma inner,
      p.count ',' = (canonicalParam canonicalize? canonicalize? p).count ',' := by
    intro p hp
    have heq := weight_flatMap_eq hle hweight p hp
    rw [weight_cons, weight_nil] at heq
    exact Nat.succ.inj heq.symm
  have heq := eq_of_joinWith_eq (x := ',') (List.forall₂_map_right_iff.2 (List.forall₂_same.2 hcount))
    ((joinWith_splitTop_isComma inner).trans h.symm)
  rw [← List.map_id (splitTop isComma inner), List.map_map] at heq
  exact fun p hp => (List.map_inj_left.1 heq p hp).symm

/-- A parameter that stays as it is lists its alternatives. -/
theorem union_of_canonicalParam_eq_self {p : List Char}
    (h : canonicalParam canonicalize? canonicalize? p = p) :
    canonicalUnion isBar p ≠ [] ∧ union (canonicalUnion isBar p) = p := by
  unfold canonicalParam at h
  split at h
  · rename_i hnil
    have hobject : canonicalUnion isBar object ≠ [] := by decide
    rw [h] at hobject
    exact absurd hnil hobject
  · rename_i hnil
    exact ⟨hnil, h⟩

theorem params_of_fixed {inner : List Char}
    (h : Text.joinWith [','] (canonicalParams canonicalize? canonicalize? inner) = inner) :
    ∃ pss : List (List (List Char)), canonicalParams canonicalize? canonicalize? inner = pss.map union ∧
      (pss ≠ [] → splitTop isComma inner = pss.map union) ∧ (∀ ps ∈ pss, Listed isBar ps) ∧
      ∀ ps ∈ pss, ∀ p ∈ ps, canonicalize? p = some p := by
  by_cases hne : inner = []
  · subst hne
    exact ⟨[], rfl, by simp, by simp, by simp⟩
  · have hself := canonicalParam_eq_self hne h
    have hlisted : ∀ p ∈ splitTop isComma inner, Listed isBar (canonicalUnion isBar p) ∧
        ∀ m ∈ canonicalUnion isBar p, canonicalize? m = some m := by
      intro p hp
      obtain ⟨hsome, hunion⟩ := union_of_canonicalParam_eq_self (hself p hp)
      exact listed_of_union_eq isBarOrComma_of_isBar rfl hsome hunion
    have hmap : (splitTop isComma inner).map (union ∘ canonicalUnion isBar)
        = splitTop isComma inner := by
      conv_rhs => rw [← List.map_id (splitTop isComma inner)]
      exact List.map_congr_left fun p hp => (union_of_canonicalParam_eq_self (hself p hp)).2
    refine ⟨(splitTop isComma inner).map (canonicalUnion isBar), ?_, ?_, ?_, ?_⟩
    · rw [canonicalParams, if_neg (by simpa using hne), List.map_map, hmap]
      conv_rhs => rw [← List.map_id (splitTop isComma inner)]
      exact List.map_congr_left hself
    · rw [List.map_map, hmap]
      exact fun _ => rfl
    · intro ps hps
      obtain ⟨p, hp, rfl⟩ := List.mem_map.1 hps
      exact (hlisted p hp).1
    · intro ps hps
      obtain ⟨p, hp, rfl⟩ := List.mem_map.1 hps
      exact (hlisted p hp).2

/-- A fixed signature has its parameters and return types where they were. No colon is lost, so
that the one in front of the return types is the same. -/
theorem parts_of_fixed_signature {plain base inner : List Char} {returns : Option (List Char)}
    (hplain : ∀ c ∈ plain, opensArguments c = false) (hbase : alias? plain = some base)
    (h : plain ++ '(' :: inner ++ ')' :: returns.elim [] (':' :: ·)
      = signature base (canonicalParams canonicalize? canonicalize? inner)
        (returns.elim [] (canonicalUnion isBarOrComma))) :
    plain = base ∧ Text.joinWith [','] (canonicalParams canonicalize? canonicalize? inner) = inner ∧
      ∀ r ∈ returns, canonicalUnion isBarOrComma r ≠ [] ∧
        union (canonicalUnion isBarOrComma r) = r := by
  have hk : Conserved (· == ':') := ⟨by decide, by decide⟩
  have hparams := hk.countP_canonicalParams_le hk.noMore_canonicalize hk.noMore_canonicalize inner
  rw [signature_eq, List.append_assoc, List.append_assoc, List.cons_append, List.cons_append] at h
  obtain ⟨hplain, hrest⟩ := append_opens_inj hplain (opens_alias hbase hplain).2 rfl rfl h
  refine ⟨hplain, ?_⟩
  cases returns with
  | none =>
      simp only [Option.elim_none, if_true, List.append_cancel_right_eq] at hrest
      exact ⟨hrest.symm, by simp⟩
  | some r =>
      have hreturns : (union (canonicalUnion isBarOrComma r)).countP (· == ':') ≤ _ :=
        hk.countP_union_unionWith_le hk.noMore_canonicalize hk.noMore_canonicalize (fun _ => id) r
      have hclose : (')' == ':') = false := by decide
      by_cases hnil : canonicalUnion isBarOrComma r = []
      · have hcount := congrArg (List.countP (· == ':')) hrest
        simp only [Option.elim_some, hnil, if_true, Option.elim_none, List.countP_append,
          List.countP_cons, List.countP_nil, beq_self_eq_true, hclose] at hcount
        simp at hcount
        omega
      · simp only [Option.elim_some, hnil, if_false] at hrest
        have hcount := congrArg (List.countP (· == ':')) hrest
        simp only [List.countP_append, List.countP_cons, beq_self_eq_true, hclose] at hcount
        have hfront : (inner ++ [')']).count ':'
            = (Text.joinWith [','] (canonicalParams canonicalize? canonicalize? inner) ++ [')']).count
              ':' := by
          rw [List.count_append, List.count_append]
          refine congrArg (· + _) (?_ : inner.countP (· == ':') = List.countP (· == ':') _)
          omega
        obtain ⟨hinner, hr⟩ := append_cons_inj_of_count (x := ':') hfront (by simpa using hrest)
        refine ⟨(List.append_cancel_right hinner).symm, ?_⟩
        intro q hq
        obtain rfl := Option.mem_some.1 hq
        exact ⟨hnil, hr.symm⟩

/-- An array suffix does not survive: its bracket is not written again. -/
theorem canonicalize?_arrayOf_ne {element e : List Char} (he : canonicalize? element = some e) :
    canonicalize? (arrayOf e) ≠ some (element ++ ['[', ']']) := by
  intro h
  have hk : Conserved (· == '[') := ⟨by decide, by decide⟩
  have hle := hk.noMore_canonicalize he
  have hn := hk.noMore_canonicalize h
  have hsuffix : ['[', ']'].countP (· == '[') = 1 := by decide
  rw [hk.countP_arrayOf, List.countP_append, hsuffix] at hn
  omega

/-- A fixed name with arguments has the list of its arguments where it was. The brackets cannot be
gone, since no base name has any. -/
theorem args_of_fixed_generic {plain base inner : List Char}
    (hplain : ∀ c ∈ plain, opensArguments c = false) (hbase : alias? plain = some base)
    (h : (match canonicalUnion isBarOrComma inner with
      | [] => some base
      | args => some (generic base (union args))) = some (generic plain inner)) :
    generic base (union (canonicalUnion isBarOrComma inner)) = generic plain inner ∧
      canonicalUnion isBarOrComma inner ≠ [] ∧ union (canonicalUnion isBarOrComma inner) = inner := by
  obtain ⟨-, hopens⟩ := opens_alias hbase hplain
  split at h
  · have hbracket : '<' ∈ base := by
      rw [Option.some.inj h, generic]
      simp
    cases hopens _ hbracket
  · rename_i args hne
    have hname := Option.some.inj h
    refine ⟨hname, hne, ?_⟩
    rw [generic, generic, List.append_assoc, List.append_assoc] at hname
    exact List.append_cancel_right (append_opens_inj hopens hplain rfl rfl hname).2

/-- Return types that are written as they were read: the list, if there is one, is cut into members
that are their own canonical form. -/
theorem returns_of_fixed {returns : Option (List Char)} {rs : List (List Char)}
    (hrs : rs = returns.elim [] (canonicalUnion isBarOrComma))
    (h : ∀ r ∈ returns, canonicalUnion isBarOrComma r ≠ [] ∧
      union (canonicalUnion isBarOrComma r) = r) :
    returns = (if rs = [] then none else some (union rs)) ∧ (rs ≠ [] → Listed isBarOrComma rs) ∧
      ∀ m ∈ rs, canonicalize? m = some m := by
  cases returns with
  | none =>
      obtain rfl : rs = [] := hrs
      simp
  | some r =>
      obtain ⟨hne, hunion⟩ := h r rfl
      obtain ⟨hlist, hself⟩ := listed_of_union_eq (fun _ => id) rfl hne hunion
      obtain rfl : rs = canonicalUnion isBarOrComma r := hrs
      exact ⟨by rw [if_neg hne, hunion], fun _ => hlist, hself⟩

theorem settled_of_fixed {n : List Char} (h : canonicalize? n = some n) : Settled n := by
  have hmarkers := dropMarkers_of_fixed h
  have hcut := cut_shape n
  have hstep := h
  rw [canonicalize?_eq, canonicalStep] at hstep
  have hpart := hcut.part
  generalize hs : shape n = s at hcut hstep hpart
  rw [hmarkers] at hcut hpart
  -- members are shorter than the list they stand in, which is shorter than the name
  have hmember : ∀ list ∈ s.parts, ∀ m, m.Sublist list → canonicalize? m = some m → Settled m :=
    fun list hlist m hm hself =>
      have : m.length < n.length := hm.length_le.trans_lt (hpart list hlist).2
      settled_of_fixed hself
  cases hcut with
  | nothing => cases hstep
  | group hunwrap =>
      rw [unwrapGroup?_canonicalize hstep] at hunwrap
      cases hunwrap
  | array hname =>
      obtain ⟨e, he, hn⟩ := Option.bind_eq_some_iff.1 hstep
      exact absurd (hname ▸ hn) (canonicalize?_arrayOf_ne he)
  | plain => exact .plain hs hstep
  | kept => exact .kept hs
  | @generic plain base inner hname hplain hbase =>
      obtain ⟨hn, hne, hunion⟩ := args_of_fixed_generic hplain hbase (hname ▸ hstep)
      obtain ⟨hlist, hself⟩ := listed_of_union_eq (fun _ => id) rfl hne hunion
      replace hn := hn.trans hname.symm
      rw [← hn]
      refine .generic ?_ hlist fun m hm => hmember inner (by simp [Shape.parts]) m ?_ (hself m hm)
      · rw [hn, hs, hunion]
      · exact hunion ▸ sublist_union hm
  | @callable plain base inner returns hname hplain hbase =>
      have hn := Option.some.inj hstep
      obtain ⟨-, hinner, hreturns⟩ :=
        parts_of_fixed_signature hplain hbase (hname.symm.trans hn.symm)
      obtain ⟨pss, hparams, hcommas, hlisted, hself⟩ := params_of_fixed hinner
      obtain ⟨hwritten, hlist, hrs⟩ := returns_of_fixed rfl hreturns
      rw [hparams] at hinner
      have hn' : signature base (pss.map union) (returns.elim [] (canonicalUnion isBarOrComma)) = n :=
        hparams ▸ hn
      rw [← hn']
      refine .callable ?_ ?_ hlisted hlist ?_ ?_
      · rw [hn', hs, hinner, ← hwritten]
      · rw [hinner]
        exact hcommas
      · intro ps hps p hp
        refine hmember inner (by simp [Shape.parts]) p ?_ (hself ps hps p hp)
        exact hinner ▸ (sublist_union hp).trans (sublist_joinWith (List.mem_map_of_mem hps))
      · intro m hm
        rw [if_neg (List.ne_nil_of_mem hm)] at hwritten
        have hlist := List.mem_cons_of_mem inner (Option.mem_toList.2 hwritten)
        exact hmember _ hlist m (sublist_union hm) (hrs m hm)
termination_by n.length

/-- A name is its own canonical form exactly if it is settled. -/
theorem canonicalize?_eq_self_iff {n : List Char} : canonicalize? n = some n ↔ Settled n :=
  ⟨settled_of_fixed, canonicalize?_of_settled⟩

end ScriptTypes.TypeName

namespace ScriptTypes

open ScriptTypes.TypeName

/-! ### Reading a canonical form again -/

theorem compact_eq_self_of_canonical {raw n : String} (h : canonicalTypeName? raw = some n) :
    compact n.toList = n.toList := by
  obtain ⟨cs, hcs, rfl⟩ := Option.map_eq_some_iff.1 h
  have hk : Conserved Text.isBlank := ⟨by decide, by decide⟩
  have hle := hk.noMore_canonicalize hcs
  have hcompact : (compact raw.toList).countP Text.isBlank = 0 := by
    simp [compact, List.countP_eq_zero]
  rw [hcompact, Nat.le_zero, List.countP_eq_zero] at hle
  rw [String.toList_ofList, compact, List.filter_eq_self]
  intro c hc
  simpa using hle c hc

theorem canonicalTypeName?_eq_self_iff {n : String} (h : compact n.toList = n.toList) :
    canonicalTypeName? n = some n ↔ Settled n.toList := by
  rw [← canonicalize?_eq_self_iff, canonicalTypeName?, h, Option.map_eq_some_iff]
  constructor
  · rintro ⟨cs, hcs, hn⟩
    rw [hcs, ← hn, String.toList_ofList]
  · intro hself
    exact ⟨n.toList, hself, String.ofList_toList⟩

namespace TypeList

/-- A call that adds names to a list of types. -/
inductive Update where
  | add (raw : String)
  | extend (raws : List String)

def update (list : TypeList) : Update → TypeList
  | .add raw => list.add raw
  | .extend raws => list.extend raws

/-- The list after a sequence of calls. -/
def after (updates : List Update) : TypeList := updates.foldl update empty

theorem add_eq_self_of_mem {list : TypeList} {raw : String}
    (h : ∀ m, canonicalTypeName? raw = some m → m ∈ list.names) :
    list.grows raw = false ∧ list.add raw = list := by
  have hgrows : list.grows raw = false := by
    unfold grows
    split
    · rfl
    · rename_i m hm
      simp [contains, h m hm]
  exact ⟨hgrows, add_eq_self_of_grows_eq_false hgrows⟩

end TypeList

/-- Reading a canonical form again gives the same name exactly if it is settled. So does adding it
again to a list that holds it, unless it no longer denotes a type at all. -/
theorem canonical_again_iff_settled {raw n : String} (h : canonicalTypeName? raw = some n) :
    (canonicalTypeName? n = some n ↔ Settled n.toList) ∧
      ((∀ updates, n ∈ (TypeList.after updates).names →
          (TypeList.after updates).grows n = false ∧
            (TypeList.after updates).add n = TypeList.after updates) ↔
        Settled n.toList ∨ canonicalTypeName? n = none) := by
  have hself := canonicalTypeName?_eq_self_iff (compact_eq_self_of_canonical h)
  refine ⟨hself, ?_, ?_⟩
  · intro hkept
    have honly : (TypeList.after [.add raw]).names = [n] := by
      simp [TypeList.after, TypeList.update, TypeList.add, h, TypeList.contains, TypeList.empty]
    obtain ⟨hgrows, -⟩ := hkept [.add raw] (by simp [honly])
    cases hm : canonicalTypeName? n with
    | none => exact .inr rfl
    | some m =>
        obtain rfl : m = n := by
          simpa [TypeList.grows, hm, TypeList.contains, honly] using hgrows
        exact .inl (hself.1 hm)
  · intro hsettled updates hn
    apply TypeList.add_eq_self_of_mem
    intro m hm
    rcases hsettled with hsettled | hnone
    · rw [hself.2 hsettled] at hm
      exact Option.some.inj hm ▸ hn
    · rw [hnone] at hm
      cases hm

/-- A signature in a list is settled, while a group inside a group leaves its parentheses behind. -/
theorem settled_or_left_in_parentheses :
    Settled "Foo<(Function(A|B,C):X|Y)|Z>".toList ∧ ¬Settled "Foo<(A|B)|C>".toList := by
  have hsettled : canonicalTypeName? "Foo<(function( A | B,C):X|Y),Z>"
      = some "Foo<(Function(A|B,C):X|Y)|Z>" := by decide
  have hleft : canonicalTypeName? "Foo<((A|B)|C)>" = some "Foo<(A|B)|C>" := by decide
  refine ⟨(canonical_again_iff_settled hsettled).1.1 (by decide), fun h => ?_⟩
  have := (canonical_again_iff_settled hleft).1.2 h
  revert this
  decide

/-- Canonicalization is not idempotent, and a list grows by a name it holds. -/
theorem nested_group_flattens_twice :
    canonicalTypeName? "Foo<((A|B)|C)>" = some "Foo<(A|B)|C>" ∧
      canonicalTypeName? "Foo<(A|B)|C>" = some "Foo<A|B|C>" ∧
      (TypeList.ofList ["Foo<((A|B)|C)>"]).names = ["Foo<(A|B)|C>"] ∧
      (TypeList.ofList ["Foo<((A|B)|C)>"]).grows "Foo<(A|B)|C>" = true ∧
      ((TypeList.ofList ["Foo<((A|B)|C)>"]).add "Foo<(A|B)|C>").names
        = ["Foo<(A|B)|C>", "Foo<A|B|C>"] := by
  decide

end ScriptTypes
