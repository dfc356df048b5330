import Mathlib
import ScriptTypes.Proofs.TypeName.Shape

/-!
# What canonicalization keeps

The canonical form of a name is put together from that of its parts. Two measures never grow on
the way: how often the characters of a kind occur, and how far the brackets are from closing. The
first one bounds the rounds in which canonical parts are taken apart again, so that
`canonicalize?` satisfies the equation of one step (`canonicalize?_eq`), and everything else is
proved from that equation.
-/

namespace ScriptTypes.TypeName

/-! ### Lists of alternatives -/

@[simp] theorem addNew_nil (out : List (List Char)) : addNew out [] = out := rfl

theorem addNew_cons_of_mem {out : List (List Char)} {n : List Char} (h : n ∈ out)
    (names : List (List Char)) : addNew out (n :: names) = addNew out names := by
  simp [addNew, h]

theorem addNew_cons_of_not_mem {out : List (List Char)} {n : List Char} (h : n ∉ out)
    (names : List (List Char)) : addNew out (n :: names) = addNew (out ++ [n]) names := by
  simp [addNew, h]

theorem addNew_append (out xs ys : List (List Char)) :
    addNew out (xs ++ ys) = addNew (addNew out xs) ys :=
  List.foldl_append

/-- What is added is a sublist of the names, and no name is added twice. -/
theorem exists_addNew (out names : List (List Char)) :
    ∃ new, addNew out names = out ++ new ∧ new.Sublist names ∧ (out.Nodup → (out ++ new).Nodup) := by
  induction names generalizing out with
  | nil => exact ⟨[], by simp, .slnil, by simp⟩
  | cons n names ih =>
      by_cases h : n ∈ out
      · obtain ⟨new, heq, hsub, hnodup⟩ := ih out
        exact ⟨new, by rw [addNew_cons_of_mem h, heq], hsub.cons n, hnodup⟩
      · obtain ⟨new, heq, hsub, hnodup⟩ := ih (out ++ [n])
        refine ⟨n :: new, ?_, hsub.cons_cons n, ?_⟩
        · rw [addNew_cons_of_not_mem h, heq, List.append_assoc, List.singleton_append]
        · intro hout
          have hnew : (out ++ [n]).Nodup :=
            hout.append (List.nodup_singleton n) (List.disjoint_singleton.2 h)
          have := hnodup hnew
          rwa [List.append_assoc, List.singleton_append] at this

theorem addNew_sublist (names : List (List Char)) : (addNew [] names).Sublist names := by
  obtain ⟨new, heq, hsub, -⟩ := exists_addNew [] names
  rwa [heq, List.nil_append]

theorem nodup_addNew (names : List (List Char)) : (addNew [] names).Nodup := by
  obtain ⟨new, heq, -, hnodup⟩ := exists_addNew [] names
  rw [heq]
  exact hnodup .nil

/-- Names that are all new are all added. -/
theorem addNew_eq_append {out names : List (List Char)} (h : (out ++ names).Nodup) :
    addNew out names = out ++ names := by
  induction names generalizing out with
  | nil => simp
  | cons n names ih =>
      have hn : n ∉ out := fun hmem => (List.nodup_append.1 h).2.2 n hmem n (by simp) rfl
      rw [addNew_cons_of_not_mem hn, ih (by simpa using h), List.append_assoc,
        List.singleton_append]

/-- The alternatives that a piece of a list contributes. -/
def alternatives (canon again : List Char → Option (List Char)) (piece : List Char) :
    List (List Char) :=
  (canon piece).elim [] (members again)

theorem unionWith_eq (canon again : List Char → Option (List Char)) (sep : Char → Bool)
    (list : List Char) :
    unionWith canon again sep list
      = addNew [] ((splitTop sep list).flatMap (alternatives canon again)) := by
  have hfold : ∀ (pieces out : List (List Char)),
      (pieces.filterMap canon).foldl (fun out n => addNew out (members again n)) out
        = addNew out (pieces.flatMap (alternatives canon again)) := by
    intro pieces
    induction pieces with
    | nil => simp
    | cons p pieces ih =>
        intro out
        cases hp : canon p with
        | none => simp [hp, ih, alternatives]
        | some n => simp [hp, ih, alternatives, addNew_append]
  exact hfold _ _

/-- Is the name written like a signature that returns one of several types? Its first alternative
then holds the colon after the parameters. -/
def returnsUnion (name : List Char) : Bool :=
  (splitTop isBar name).head?.any (Text.containsRun [')', ':'])

/-- A name stands for itself, or it is a union and each of its alternatives stands for one. -/
theorem members_cases (again : List Char → Option (List Char)) (name : List Char) :
    members again name = [name] ∧ (hasTopUnion name = true → returnsUnion name = true) ∨
      hasTopUnion name = true ∧ members again name = (splitTop isBar name).filterMap again := by
  rw [hasTopUnion_iff]
  unfold members returnsUnion
  split
  · rename_i first second rest heq
    split
    · rename_i hrun
      exact .inl ⟨rfl, fun _ => by simp [heq, hrun]⟩
    · exact .inr ⟨by simp [heq], by rw [heq]⟩
  · rename_i hshort
    refine .inl ⟨rfl, fun hlength => ?_⟩
    match hsplit : splitTop isBar name with
    | [] => simp [hsplit] at hlength
    | [p] => simp [hsplit] at hlength
    | first :: second :: rest => exact absurd hsplit (hshort first second rest)

theorem members_eq_singleton {again : List Char → Option (List Char)} {name : List Char}
    (h : hasTopUnion name = true → returnsUnion name = true) : members again name = [name] := by
  rw [hasTopUnion_iff] at h
  unfold members
  split
  · rename_i first second rest heq
    have hrun : Text.containsRun [')', ':'] first = true := by
      simpa [returnsUnion, heq] using h (by simp [heq])
    rw [if_pos hrun]
  · rfl

/-! ### Characters that never multiply -/

/-- The characters that a canonical form may bring in. -/
def introduced : List Char := "<>()".toList ++ builtins.flatten

/-- A kind of characters that canonical forms do not bring in. A bar may take the place of a
comma, so bars are such a kind only together with commas. -/
structure Conserved (k : Char → Bool) : Prop where
  introduced : introduced.all (!k ·) = true
  bar : k '|' = true → k ',' = true

/-- A map of names whose results have no more characters of a kind than its arguments. -/
def NoMore (k : Char → Bool) (canon : List Char → Option (List Char)) : Prop :=
  ∀ ⦃p n⦄, canon p = some n → n.countP k ≤ p.countP k

section Conserved

variable {k : Char → Bool} {b : Nat}

theorem weight_flatMap_le {f : List Char → List (List Char)} {ts : List (List Char)}
    (h : ∀ t ∈ ts, weight k b (f t) ≤ t.countP k + b) :
    weight k b (ts.flatMap f) ≤ weight k b ts := by
  induction ts with
  | nil => simp
  | cons t ts ih =>
      have ht := h t (by simp)
      have hts := ih fun u hu => h u (by simp [hu])
      rw [List.flatMap_cons, weight_append, weight_cons]
      omega

theorem weight_flatMap_eq {f : List Char → List (List Char)} {ts : List (List Char)}
    (h : ∀ t ∈ ts, weight k b (f t) ≤ t.countP k + b)
    (heq : weight k b (ts.flatMap f) = weight k b ts) :
    ∀ t ∈ ts, weight k b (f t) = t.countP k + b := by
  induction ts with
  | nil => simp
  | cons t ts ih =>
      have ht := h t (by simp)
      have hrest : ∀ u ∈ ts, weight k b (f u) ≤ u.countP k + b := fun u hu => h u (by simp [hu])
      have hts := weight_flatMap_le hrest
      rw [List.flatMap_cons, weight_append, weight_cons] at heq
      intro u hu
      rcases List.mem_cons.1 hu with rfl | hu
      · omega
      · exact ih hrest (by omega) u hu

/-- Every text that is left out takes at least `b` with it. -/
theorem weight_sublist {ts us : List (List Char)} (h : ts.Sublist us) :
    weight k b ts + us.length * b ≤ weight k b us + ts.length * b := by
  induction h with
  | slnil => simp
  | cons u _ ih =>
      rw [List.length_cons, Nat.succ_mul, weight_cons]
      omega
  | cons_cons u _ ih =>
      rw [List.length_cons, List.length_cons, Nat.succ_mul, Nat.succ_mul, weight_cons, weight_cons]
      omega

theorem Conserved.eq_false (hk : Conserved k) {c : Char} (h : c ∈ TypeName.introduced) :
    k c = false := by
  simpa using List.all_eq_true.1 hk.introduced c h

theorem Conserved.countP_builtin (hk : Conserved k) {name : List Char} (h : name ∈ builtins) :
    name.countP k = 0 := by
  rw [List.countP_eq_zero]
  intro c hc
  rw [hk.eq_false (List.mem_append_right _ (List.mem_flatten.2 ⟨name, h, hc⟩))]
  exact Bool.false_ne_true

theorem Conserved.countP_alias_le (hk : Conserved k) {name base : List Char}
    (h : alias? name = some base) : base.countP k ≤ name.countP k := by
  rcases alias?_eq_some h with rfl | ⟨-, hb⟩
  · exact le_rfl
  · rw [hk.countP_builtin hb]
    exact Nat.zero_le _

theorem Conserved.countP_groupMember (hk : Conserved k) (m : List Char) :
    (groupMember m).countP k = m.countP k := by
  have hopen := hk.eq_false (c := '(') (by decide)
  have hclose := hk.eq_false (c := ')') (by decide)
  unfold groupMember
  split
  · simp [hopen, hclose]
  · rfl

theorem Conserved.countP_union (hk : Conserved k) {ms : List (List Char)} (h : ms ≠ []) :
    (union ms).countP k + (k '|').toNat = weight k (k '|').toNat ms := by
  have hmap : weight k (k '|').toNat (ms.map groupMember) = weight k (k '|').toNat ms := by
    simp [weight, hk.countP_groupMember, Function.comp_def]
  rw [union, countP_joinWith '|' (by simpa using h), hmap]

variable {canon again : List Char → Option (List Char)}

theorem weight_filterMap_le (hagain : NoMore k again) (ts : List (List Char)) :
    weight k b (ts.filterMap again) + ts.length * b
      ≤ weight k b ts + (ts.filterMap again).length * b := by
  induction ts with
  | nil => simp
  | cons t ts ih =>
      cases ht : again t with
      | none =>
          rw [List.filterMap_cons_none ht, List.length_cons, Nat.succ_mul, weight_cons]
          omega
      | some n =>
          have hn := hagain ht
          rw [List.filterMap_cons_some ht, List.length_cons, List.length_cons, Nat.succ_mul,
            Nat.succ_mul, weight_cons, weight_cons]
          omega

theorem weight_members_le (hagain : NoMore k again) (n : List Char) :
    weight k (k '|').toNat (members again n) ≤ n.countP k + (k '|').toNat := by
  rcases members_cases again n with ⟨h, -⟩ | ⟨-, h⟩
  · rw [h, weight_cons, weight_nil, Nat.add_zero]
  · have hmembers := weight_filterMap_le (b := (k '|').toNat) hagain (splitTop isBar n)
    have hlength := Nat.mul_le_mul_right (k '|').toNat
      (List.length_filterMap_le again (splitTop isBar n))
    have hsplit : weight k (k '|').toNat (splitTop isBar n) ≤ _ :=
      weight_splitTop_le (fun c hc => by rw [beq_iff_eq.1 hc]) n
    rw [h]
    omega

theorem weight_alternatives_le (hcanon : NoMore k canon) (hagain : NoMore k again)
    (p : List Char) :
    weight k (k '|').toNat (alternatives canon again p) ≤ p.countP k + (k '|').toNat := by
  cases hp : canon p with
  | none => simp [alternatives, hp]
  | some n =>
      have hn := hcanon hp
      have := weight_members_le hagain n
      simp only [alternatives, hp, Option.elim_some]
      omega

/-- A separator is worth at least as much as the bar that may replace it. -/
theorem Conserved.bar_le (hk : Conserved k) {c : Char} (hc : isBarOrComma c = true) :
    (k '|').toNat ≤ (k c).toNat := by
  rcases Bool.or_eq_true _ _ ▸ hc with hc | hc
  · rw [beq_iff_eq.1 hc]
  · rw [beq_iff_eq.1 hc]
    cases hbar : k '|' with
    | false => exact Nat.zero_le _
    | true => rw [hk.bar hbar]

theorem Conserved.weight_unionWith_le (hk : Conserved k) (hcanon : NoMore k canon)
    (hagain : NoMore k again) {sep : Char → Bool} (hsep : ∀ c, sep c = true → isBarOrComma c = true)
    (list : List Char) :
    weight k (k '|').toNat (unionWith canon again sep list)
      ≤ list.countP k + (k '|').toNat := by
  rw [unionWith_eq]
  calc weight k (k '|').toNat (addNew [] ((splitTop sep list).flatMap (alternatives canon again)))
      ≤ weight k (k '|').toNat ((splitTop sep list).flatMap (alternatives canon again)) := by
        have hsub := addNew_sublist ((splitTop sep list).flatMap (alternatives canon again))
        have hlength := Nat.mul_le_mul_right (k '|').toNat hsub.length_le
        have := weight_sublist (k := k) (b := (k '|').toNat) hsub
        omega
    _ ≤ weight k (k '|').toNat (splitTop sep list) :=
        weight_flatMap_le fun p _ => weight_alternatives_le hcanon hagain p
    _ ≤ list.countP k + (k '|').toNat :=
        weight_splitTop_le (fun c hc => hk.bar_le (hsep c hc)) list

theorem Conserved.countP_union_unionWith_le (hk : Conserved k) (hcanon : NoMore k canon)
    (hagain : NoMore k again) {sep : Char → Bool} (hsep : ∀ c, sep c = true → isBarOrComma c = true)
    (list : List Char) :
    (union (unionWith canon again sep list)).countP k ≤ list.countP k := by
  by_cases h : unionWith canon again sep list = []
  · rw [h]
    exact Nat.zero_le _
  · have hunion := hk.countP_union h
    have hweight := hk.weight_unionWith_le hcanon hagain hsep list
    omega

theorem isBarOrComma_of_isBar (c : Char) (h : isBar c = true) : isBarOrComma c = true := by
  simp [isBarOrComma, h]

theorem Conserved.countP_canonicalParam_le (hk : Conserved k) (hcanon : NoMore k canon)
    (hagain : NoMore k again) (p : List Char) :
    (canonicalParam canon again p).countP k ≤ p.countP k := by
  unfold canonicalParam
  split
  · rw [hk.countP_builtin (by decide)]
    exact Nat.zero_le _
  · exact hk.countP_union_unionWith_le hcanon hagain isBarOrComma_of_isBar p

theorem Conserved.countP_canonicalParams_le (hk : Conserved k) (hcanon : NoMore k canon)
    (hagain : NoMore k again) (inner : List Char) :
    (Text.joinWith [','] (canonicalParams canon again inner)).countP k ≤ inner.countP k := by
  unfold canonicalParams
  split
  · exact Nat.zero_le _
  · have hne : splitTop isComma inner ≠ [] := splitFrom_ne_nil _ _ _ _
    have hinner := countP_joinWith (k := k) ',' hne
    rw [joinWith_splitTop_isComma] at hinner
    have hne' : (splitTop isComma inner).map (canonicalParam canon again) ≠ [] := by
      simpa using hne
    have hparams := countP_joinWith (k := k) ',' hne'
    have hle : weight k (k ',').toNat ((splitTop isComma inner).map (canonicalParam canon again))
        ≤ weight k (k ',').toNat (splitTop isComma inner) := by
      rw [List.map_eq_flatMap]
      refine weight_flatMap_le fun p _ => ?_
      have := hk.countP_canonicalParam_le hcanon hagain p
      rw [weight_cons, weight_nil]
      omega
    omega

theorem Conserved.countP_generic (hk : Conserved k) (base argument : List Char) :
    (generic base argument).countP k = base.countP k + argument.countP k := by
  have hopen := hk.eq_false (c := '<') (by decide)
  have hclose := hk.eq_false (c := '>') (by decide)
  simp [generic, hopen, hclose]

theorem Conserved.countP_arrayOf (hk : Conserved k) (element : List Char) :
    (arrayOf element).countP k = element.countP k := by
  rw [arrayOf, hk.countP_generic, hk.countP_groupMember, hk.countP_builtin (by decide),
    Nat.zero_add]

theorem countP_colon (cs : List Char) : (':' :: cs).countP k = (k ':').toNat + cs.countP k := by
  cases h : k ':' <;> simp [h, Nat.add_comm]

theorem Conserved.countP_callable (hk : Conserved k) (plain inner : List Char)
    (returns : Option (List Char)) :
    (plain ++ '(' :: inner ++ ')' :: returns.elim [] (':' :: ·)).countP k
      = plain.countP k + inner.countP k + returns.elim 0 ((k ':').toNat + ·.countP k) := by
  have hopen := hk.eq_false (c := '(') (by decide)
  have hclose := hk.eq_false (c := ')') (by decide)
  cases returns with
  | none => simp [hopen, hclose]
  | some r => simp [hopen, hclose, countP_colon, Nat.add_assoc]

theorem signature_eq (base : List Char) (params returns : List (List Char)) :
    signature base params returns
      = base ++ '(' :: Text.joinWith [','] params
        ++ ')' :: (if returns = [] then none else some (union returns)).elim [] (':' :: ·) := by
  cases returns <;> simp [signature]

theorem Conserved.countP_signature (hk : Conserved k) (base : List Char)
    (params returns : List (List Char)) :
    (signature base params returns).countP k
      = base.countP k + (Text.joinWith [','] params).countP k
        + if returns = [] then 0 else (k ':').toNat + (union returns).countP k := by
  rw [signature_eq, hk.countP_callable]
  split <;> rfl

/-- One step does not multiply the characters of a conserved kind, and drops those of its markers. -/
theorem Conserved.countP_canonicalStep_le (hk : Conserved k) (hcanon : NoMore k canon)
    (hagain : NoMore k again) {raw n : List Char} (h : canonicalStep canon again raw = some n) :
    n.countP k ≤ (dropMarkers raw).countP k := by
  have hcut := cut_shape raw
  unfold canonicalStep at h
  generalize shape raw = s at hcut h
  generalize dropMarkers raw = name at hcut ⊢
  cases hcut with
  | nothing => cases h
  | group hunwrap =>
      have hn := hcanon h
      rw [unwrapGroup?_eq_some hunwrap]
      simp only [List.countP_append, List.countP_cons] at hn ⊢
      omega
  | @array element hname =>
      obtain ⟨e, he, hn⟩ := Option.bind_eq_some_iff.1 h
      have hn := hagain hn
      have he := hcanon he
      rw [hk.countP_arrayOf] at hn
      rw [hname, List.countP_append]
      omega
  | plain => exact hk.countP_alias_le h
  | kept =>
      cases h
      exact le_rfl
  | @generic plain base inner hname _ hbase =>
      have hb := hk.countP_alias_le hbase
      have hargs := hk.countP_union_unionWith_le hcanon hagain (fun _ => id) inner
      have hname := hk.countP_generic plain inner ▸ congrArg (List.countP k) hname
      rw [hname]
      simp only at h
      split at h <;> cases h
      · omega
      · rw [hk.countP_generic]
        omega
  | @callable plain base inner returns hname _ hbase =>
      have hb := hk.countP_alias_le hbase
      have hparams := hk.countP_canonicalParams_le hcanon hagain inner
      cases h
      rw [hk.countP_signature, hname, hk.countP_callable]
      cases returns with
      | none =>
          simp only [Option.elim_none, if_true]
          omega
      | some r =>
          have hret := hk.countP_union_unionWith_le hcanon hagain (fun _ => id) r
          rw [Option.elim_some, Option.elim_some]
          by_cases hr : unionWith canon again isBarOrComma r = []
          · rw [if_pos hr]
            omega
          · rw [if_neg hr]
            omega

end Conserved

/-! ### The equation of one step -/

section NoMore

variable {k : Char → Bool} {again : List Char → Option (List Char)}

theorem Conserved.noMore_within (hk : Conserved k) (hagain : NoMore k again) (depth : Nat) :
    NoMore k (canonicalWithin again depth) := by
  induction depth with
  | zero =>
      intro p n h
      cases h
  | succ depth ih =>
      intro p n h
      exact (hk.countP_canonicalStep_le ih hagain h).trans (sublist_dropMarkers p).countP_le

theorem Conserved.noMore_rounds (hk : Conserved k) (rounds : Nat) :
    NoMore k (canonicalRounds rounds) := by
  induction rounds with
  | zero =>
      intro p n h
      cases h
  | succ rounds ih => exact fun p n h => hk.noMore_within ih (p.length + 1) h

theorem conserved_isJoint : Conserved isJoint := ⟨by decide, by decide⟩

end NoMore

/-! ### What one step reads -/

/-- An alternative of a union has lost a bar. -/
theorem joints_lt_of_mem_splitTop {name piece : List Char} (htop : hasTopUnion name = true)
    (h : piece ∈ splitTop isBar name) : piece.countP isJoint < name.countP isJoint := by
  have hlength := (hasTopUnion_iff name).1 htop
  have hpiece := countP_add_le_weight (k := isJoint) (b := 1) h
  have hname : weight isJoint 1 (splitTop isBar name) ≤ name.countP isJoint + 1 := by
    refine weight_splitTop_le ?_ name
    intro c hc
    rw [beq_iff_eq.1 hc]
    decide
  omega

/-- The alternatives of each parameter in a list of parameters, with their separator. -/
def paramLists (inner : List Char) : List ((Char → Bool) × List Char) :=
  if inner.isEmpty then [] else (splitTop isComma inner).map (isBar, ·)

/-- The lists of alternatives that are read in a name, each with its separators. -/
def Shape.lists : Shape → List ((Char → Bool) × List Char)
  | .nothing | .group _ | .array _ | .plain _ => []
  -- the forms of these parameters are found and then dropped
  | .kept _ params => params.toList.flatMap paramLists
  | .generic _ inner => [(isBarOrComma, inner)]
  | .callable _ inner returns => paramLists inner ++ returns.toList.map (isBarOrComma, ·)

theorem sublist_of_mem_paramLists {inner : List Char} {sep : Char → Bool} {list : List Char}
    (h : (sep, list) ∈ paramLists inner) : list.Sublist inner := by
  unfold paramLists at h
  split at h
  · cases h
  · obtain ⟨p, hp, heq⟩ := List.mem_map.1 h
    obtain ⟨-, rfl⟩ := Prod.mk.inj heq
    exact sublist_of_mem_splitTop hp

/-- A part of a name is a shorter text of it. -/
theorem Shape.sublist_of_mem_parts {raw p : List Char} (h : p ∈ (shape raw).parts) :
    p.Sublist raw ∧ p.length < raw.length := by
  have hsub := sublist_dropMarkers raw
  obtain ⟨hp, hlength⟩ := (cut_shape raw).part p h
  exact ⟨hp.trans hsub, hlength.trans_le hsub.length_le⟩

/-- A list of alternatives is a shorter text of the name. -/
theorem Shape.sublist_of_mem_lists {raw : List Char} {sep : Char → Bool} {list : List Char}
    (h : (sep, list) ∈ (shape raw).lists) : list.Sublist raw ∧ list.length < raw.length := by
  suffices ∃ p ∈ (shape raw).parts, list.Sublist p by
    obtain ⟨p, hp, hlist⟩ := this
    obtain ⟨hsub, hlength⟩ := sublist_of_mem_parts hp
    exact ⟨hlist.trans hsub, hlist.length_le.trans_lt hlength⟩
  cases hshape : shape raw with
  | nothing | plain | group | array => simp [hshape, lists] at h
  | kept name params =>
    rw [hshape] at h
    obtain ⟨inner, hinner, hlist⟩ := List.mem_flatMap.1 h
    exact ⟨inner, hinner, sublist_of_mem_paramLists hlist⟩
  | generic base inner =>
    rw [hshape] at h
    obtain ⟨-, rfl⟩ := Prod.mk.inj (List.mem_singleton.1 h)
    exact ⟨_, List.mem_singleton_self _, .refl _⟩
  | callable base inner returns =>
    rw [hshape] at h
    rcases List.mem_append.1 h with h | h
    · exact ⟨inner, List.mem_cons_self, sublist_of_mem_paramLists h⟩
    · obtain ⟨r, hr, heq⟩ := List.mem_map.1 h
      obtain ⟨-, rfl⟩ := Prod.mk.inj heq
      exact ⟨_, List.mem_cons_of_mem _ hr, .refl _⟩

/-- The element of an array type has lost the joint of the suffix. -/
theorem joints_lt_of_shape_array {raw element : List Char} (h : shape raw = .array element) :
    element.countP isJoint < raw.countP isJoint := by
  have hcut := cut_shape raw
  rw [h] at hcut
  have hname : dropMarkers raw = element ++ ['[', ']'] := by
    cases hcut with
    | array hname => exact hname
  have hle : (dropMarkers raw).countP isJoint ≤ raw.countP isJoint :=
    (sublist_dropMarkers raw).countP_le
  have hsuffix : ['[', ']'].countP isJoint = 1 := by decide
  rw [hname, List.countP_append, hsuffix] at hle
  omega

section Congr

variable {raw : List Char} {canon canon' again again' : List Char → Option (List Char)}

theorem members_congr {name : List Char}
    (h : hasTopUnion name = true → returnsUnion name = false →
      ∀ x ∈ splitTop isBar name, again x = again' x) :
    members again name = members again' name := by
  by_cases hflat : hasTopUnion name = true → returnsUnion name = true
  · rw [members_eq_singleton hflat, members_eq_singleton hflat]
  · obtain ⟨htop, hreturns⟩ := Classical.not_imp.1 hflat
    have hagain := h htop (Bool.eq_false_iff.2 hreturns)
    unfold members
    split
    · rename_i first second rest heq
      rw [heq] at hagain
      rw [List.filterMap_congr hagain]
    · rfl

/-- A union depends on the forms of its pieces, and on those of the alternatives where the form of
a piece is taken apart again. -/
theorem unionWith_congr {sep : Char → Bool} {list : List Char}
    (hpiece : ∀ p ∈ splitTop sep list, canon p = canon' p)
    (hagain : ∀ p ∈ splitTop sep list, ∀ n, canon p = some n → hasTopUnion n = true →
      returnsUnion n = false → ∀ a ∈ splitTop isBar n, again a = again' a) :
    unionWith canon again sep list = unionWith canon' again' sep list := by
  rw [unionWith_eq, unionWith_eq]
  congr 1
  refine List.flatMap_congr fun p hp => ?_
  unfold alternatives
  rw [← hpiece p hp]
  cases hn : canon p with
  | none => rfl
  | some n => exact members_congr (hagain p hp n hn)

/-- One step depends on the form of what a group or an array type holds, on that of the array type
which is put together, and on the unions of the lists in the name. -/
theorem canonicalStep_congr_of_lists
    (hgroup : ∀ inner, shape raw = .group inner → canon inner = canon' inner)
    (helement : ∀ element, shape raw = .array element → canon element = canon' element)
    (harray : ∀ element e, shape raw = .array element → canon element = some e →
      again (arrayOf e) = again' (arrayOf e))
    (hunion : ∀ sep list, (sep, list) ∈ (shape raw).lists →
      unionWith canon again sep list = unionWith canon' again' sep list) :
    canonicalStep canon again raw = canonicalStep canon' again' raw := by
  unfold canonicalStep
  cases hshape : shape raw with
  | nothing => rfl
  | plain => rfl
  | kept => rfl
  | group inner => exact hgroup inner hshape
  | array element =>
    simp only
    rw [← helement element hshape]
    cases he : canon element with
    | none => rfl
    | some e => exact harray element e hshape he
  | generic base inner =>
    rw [hshape] at hunion
    simp only [hunion isBarOrComma inner (List.mem_singleton_self _)]
  | callable base inner returns =>
    rw [hshape] at hunion
    have hparams : canonicalParams canon again inner = canonicalParams canon' again' inner := by
      unfold canonicalParams
      split
      · rfl
      · rename_i hne
        refine List.map_congr_left fun p hp => ?_
        have hlist : (isBar, p) ∈ (Shape.callable base inner returns).lists := by
          refine List.mem_append_left _ ?_
          rw [paramLists, if_neg hne]
          exact List.mem_map_of_mem hp
        unfold canonicalParam
        rw [hunion isBar p hlist]
    have hreturns : returns.elim [] (unionWith canon again isBarOrComma)
        = returns.elim [] (unionWith canon' again' isBarOrComma) := by
      cases returns with
      | none => rfl
      | some r => exact hunion isBarOrComma r (List.mem_append_right _ (List.mem_singleton_self _))
    simp only
    rw [hparams, hreturns]

/-- One step depends on the canonical form of shorter texts only, and on that of names with fewer
joints where canonical parts are taken apart again. -/
theorem canonicalStep_congr
    (hcanon : ∀ p, p.Sublist raw → p.length < raw.length → canon p = canon' p)
    (hagain : ∀ x, x.countP isJoint < raw.countP isJoint → again x = again' x)
    (hcount : NoMore isJoint canon) :
    canonicalStep canon again raw = canonicalStep canon' again' raw := by
  have hpart : ∀ p ∈ (shape raw).parts, canon p = canon' p := fun p hp =>
    hcanon p (Shape.sublist_of_mem_parts hp).1 (Shape.sublist_of_mem_parts hp).2
  refine canonicalStep_congr_of_lists (fun inner h => ?_) (fun element h => ?_)
    (fun element e h he => ?_) (fun sep list hlist => ?_)
  · exact hpart inner (by simp [h, Shape.parts])
  · exact hpart element (by simp [h, Shape.parts])
  · refine hagain (arrayOf e) ?_
    rw [conserved_isJoint.countP_arrayOf]
    exact (hcount he).trans_lt (joints_lt_of_shape_array h)
  · obtain ⟨hsub, hlength⟩ := Shape.sublist_of_mem_lists hlist
    refine unionWith_congr (fun p hp => ?_) (fun p hp n hn htop _ a ha => ?_)
    · have hsubp := sublist_of_mem_splitTop hp
      exact hcanon p (hsubp.trans hsub) (hsubp.length_le.trans_lt hlength)
    · have hjoints : n.countP isJoint ≤ raw.countP isJoint :=
        (hcount hn).trans ((sublist_of_mem_splitTop hp).trans hsub).countP_le
      exact hagain a ((joints_lt_of_mem_splitTop htop ha).trans_le hjoints)

end Congr

theorem canonicalWithin_congr {again again' : List Char → Option (List Char)}
    (hcount : NoMore isJoint again) {depth depth' : Nat} {raw : List Char}
    (hagain : ∀ x, x.countP isJoint < raw.countP isJoint → again x = again' x)
    (hdepth : raw.length < depth) (hdepth' : raw.length < depth') :
    canonicalWithin again depth raw = canonicalWithin again' depth' raw := by
  induction depth generalizing depth' raw with
  | zero => exact absurd hdepth (Nat.not_lt_zero _)
  | succ depth ih =>
      cases depth' with
      | zero => exact absurd hdepth' (Nat.not_lt_zero _)
      | succ depth' =>
          refine canonicalStep_congr ?_ hagain (conserved_isJoint.noMore_within hcount depth)
          intro p hsub hlen
          exact ih (fun x hx => hagain x (hx.trans_le hsub.countP_le)) (by omega) (by omega)

/-- As many rounds as a name has joints, and one more, are enough. -/
theorem canonicalRounds_congr {rounds rounds' : Nat} {cs : List Char}
    (h : cs.countP isJoint < rounds) (h' : cs.countP isJoint < rounds') :
    canonicalRounds rounds cs = canonicalRounds rounds' cs := by
  induction rounds generalizing rounds' cs with
  | zero => exact absurd h (Nat.not_lt_zero _)
  | succ rounds ih =>
      cases rounds' with
      | zero => exact absurd h' (Nat.not_lt_zero _)
      | succ rounds' =>
          refine canonicalWithin_congr (conserved_isJoint.noMore_rounds rounds) ?_
            (Nat.lt_succ_self _) (Nat.lt_succ_self _)
          exact fun x hx => ih (by omega) (by omega)

/-- The canonical form of a name is put together from that of its parts. -/
theorem canonicalize?_eq (raw : List Char) :
    canonicalize? raw = canonicalStep canonicalize? canonicalize? raw := by
  refine canonicalStep_congr ?_ ?_ ?_
  · intro p hsub hlen
    refine canonicalWithin_congr (conserved_isJoint.noMore_rounds _) ?_ hlen (Nat.lt_succ_self _)
    intro x hx
    exact canonicalRounds_congr (hx.trans_le hsub.countP_le) hx
  · exact fun x hx => canonicalRounds_congr hx (Nat.lt_succ_self _)
  · exact conserved_isJoint.noMore_within (conserved_isJoint.noMore_rounds _) _

theorem Conserved.noMore_canonicalize {k : Char → Bool} (hk : Conserved k) :
    NoMore k canonicalize? :=
  fun _ _ h => hk.noMore_rounds _ h

open Classical in
/-- What is kept by one step holds of canonical forms, if it can hold of all names at once. -/
theorem canonicalize?_induction {P : List Char → Option (List Char) → Prop}
    (other : List Char → Option (List Char)) (hother : ∀ p, P p (other p))
    (hstep : ∀ canon again, (∀ p, P p (canon p)) → (∀ p, P p (again p)) →
      ∀ raw, P raw (canonicalStep canon again raw)) (raw : List Char) :
    P raw (canonicalize? raw) := by
  -- the step asks for smaller names only, so the other ones may have any form
  have heq : canonicalize? raw = canonicalStep
      (fun p => if p.Sublist raw ∧ p.length < raw.length then canonicalize? p else other p)
      (fun x => if x.countP isJoint < raw.countP isJoint then canonicalize? x else other x) raw := by
    rw [canonicalize?_eq]
    refine canonicalStep_congr ?_ ?_ conserved_isJoint.noMore_canonicalize
    · exact fun p hsub hlen => (if_pos ⟨hsub, hlen⟩).symm
    · exact fun x hx => (if_pos hx).symm
  rw [heq]
  refine hstep _ _ ?_ ?_ raw
  · intro p
    split
    · exact canonicalize?_induction other hother hstep p
    · exact hother p
  · intro x
    split
    · exact canonicalize?_induction other hother hstep x
    · exact hother x
termination_by (raw.countP isJoint, raw.length)
decreasing_by
  · rename_i h
    rcases h.1.countP_le.lt_or_eq with hlt | heq
    · exact Prod.Lex.left _ _ hlt
    · rw [heq]
      exact Prod.Lex.right _ h.2
  · exact Prod.Lex.left _ _ ‹_›

/-! ### Brackets -/

/-- In a list with net depth `d`, only the last text may leave brackets open or close too many. -/
inductive Level : Int → List (List Char) → Prop
  | nil : Level 0 []
  | last (t : List Char) : Level (net t) [t]
  | cons {t : List Char} {d : Int} {ts : List (List Char)} (h : net t = 0) (hts : Level d ts) :
      Level d (t :: ts)

namespace Level

variable {d : Int} {ts us : List (List Char)}

theorem sum_eq (h : Level d ts) : (ts.map net).sum = d := by
  induction h with
  | nil => rfl
  | last t => simp
  | cons h _ ih => simp [h, ih]

theorem head {t u : List Char} (h : Level d (t :: u :: us)) : net t = 0 := by
  cases h with
  | cons h _ => exact h

theorem of_zeros (h : ∀ t ∈ ts, net t = 0) : Level 0 ts := by
  induction ts with
  | nil => exact .nil
  | cons t ts ih => exact .cons (h t (by simp)) (ih fun u hu => h u (by simp [hu]))

theorem zeros_append (h : ∀ t ∈ ts, net t = 0) (hus : Level d us) : Level d (ts ++ us) := by
  induction ts with
  | nil => exact hus
  | cons t ts ih => exact .cons (h t (by simp)) (ih fun u hu => h u (by simp [hu]))

theorem zeros {e : Int} (h : Level e ts) (he : e = 0) : ∀ t ∈ ts, net t = 0 := by
  induction h with
  | nil => simp
  | last t => simpa using he
  | cons h _ ih => simpa using ⟨h, ih he⟩

theorem flatMap {f : List Char → List (List Char)} (h : Level d ts)
    (hf : ∀ t, Level (net t) (f t)) : Level d (ts.flatMap f) := by
  induction h with
  | nil => exact .nil
  | last t => simpa using hf t
  | @cons t d ts h _ ih =>
      rw [List.flatMap_cons]
      exact zeros_append ((hf t).zeros h) ih

/-- Leaving out repeated texts keeps the net depth: what is left out stood earlier, so it closes
its brackets. -/
theorem addNew (h : Level d ts) (out : List (List Char)) (hout : ∀ t ∈ out, net t = 0) :
    Level d (addNew out ts) := by
  induction h generalizing out with
  | nil => exact of_zeros hout
  | last t =>
      by_cases ht : t ∈ out
      · rw [addNew_cons_of_mem ht, addNew_nil, hout t ht]
        exact of_zeros hout
      · rw [addNew_cons_of_not_mem ht, addNew_nil]
        exact zeros_append hout (.last t)
  | @cons t d ts h _ ih =>
      by_cases ht : t ∈ out
      · rw [addNew_cons_of_mem ht]
        exact ih out hout
      · rw [addNew_cons_of_not_mem ht]
        refine ih _ fun u hu => ?_
        rcases List.mem_append.1 hu with hu | hu
        · exact hout u hu
        · rw [List.mem_singleton.1 hu, h]

end Level

theorem level_splitTop {sep : Char → Bool} (hsep : ∀ c, sep c = true → delta c = 0)
    (cs : List Char) : Level (net cs) (splitTop sep cs) := by
  obtain ⟨front, last, heq, hfront, hlast⟩ := net_splitTop hsep cs
  rw [heq, ← hlast]
  exact .zeros_append hfront (.last last)

theorem delta_of_isBarOrComma (c : Char) (h : isBarOrComma c = true) : delta c = 0 := by
  rcases Bool.or_eq_true _ _ ▸ h with h | h <;> (rw [beq_iff_eq.1 h]; rfl)

theorem delta_of_isBar (c : Char) (h : isBar c = true) : delta c = 0 :=
  delta_of_isBarOrComma c (isBarOrComma_of_isBar c h)

/-- A map of names whose results leave as many brackets open as its arguments. Where it gives no
name, the argument has to close all of its brackets. -/
def KeepsNet (canon : List Char → Option (List Char)) : Prop :=
  ∀ p, Level (net p) (canon p).toList

section KeepsNet

variable {canon again : List Char → Option (List Char)}

theorem KeepsNet.net_eq (h : KeepsNet canon) {p n : List Char} (hn : canon p = some n) :
    net n = net p := by
  simpa [hn] using (h p).sum_eq

theorem KeepsNet.net_eq_zero (h : KeepsNet canon) {p : List Char} (hn : canon p = none) :
    net p = 0 := by
  simpa [hn] using (h p).sum_eq.symm

theorem keepsNet_iff : KeepsNet canon ↔ ∀ p, (canon p).elim 0 net = net p := by
  constructor
  · intro h p
    cases hn : canon p with
    | none => exact (h.net_eq_zero hn).symm
    | some n => exact h.net_eq hn
  · intro h p
    have hp := h p
    cases hn : canon p with
    | none =>
        rw [← hp, hn]
        exact .nil
    | some n =>
        rw [← hp, hn]
        exact .last n

theorem level_members (hagain : KeepsNet again) (n : List Char) :
    Level (net n) (members again n) := by
  rcases members_cases again n with ⟨h, -⟩ | ⟨-, h⟩
  · rw [h]
    exact .last n
  · rw [h, List.filterMap_eq_flatMap_toList]
    exact (level_splitTop delta_of_isBar n).flatMap hagain

theorem level_unionWith (hcanon : KeepsNet canon) (hagain : KeepsNet again) {sep : Char → Bool}
    (hsep : ∀ c, sep c = true → isBarOrComma c = true) (list : List Char) :
    Level (net list) (unionWith canon again sep list) := by
  rw [unionWith_eq]
  refine ((level_splitTop (fun c hc => delta_of_isBarOrComma c (hsep c hc)) list).flatMap ?_).addNew
    [] (by simp)
  intro p
  unfold alternatives
  cases hn : canon p with
  | none =>
      rw [hcanon.net_eq_zero hn]
      exact .nil
  | some n =>
      rw [← hcanon.net_eq hn]
      exact level_members hagain n

@[simp] theorem net_groupMember (m : List Char) : net (groupMember m) = net m := by
  unfold groupMember
  split
  · simp only [List.cons_append, net_cons, net_append, net_nil]
    have hopen : delta '(' = 1 := rfl
    have hclose : delta ')' = -1 := rfl
    omega
  · rfl

theorem net_union (ms : List (List Char)) : net (union ms) = (ms.map net).sum := by
  rw [union, net_joinWith rfl, List.map_map]
  simp [Function.comp_def]

theorem net_union_unionWith (hcanon : KeepsNet canon) (hagain : KeepsNet again)
    {sep : Char → Bool} (hsep : ∀ c, sep c = true → isBarOrComma c = true) (list : List Char) :
    net (union (unionWith canon again sep list)) = net list := by
  rw [net_union, (level_unionWith hcanon hagain hsep list).sum_eq]

theorem net_spelled : ∀ name ∈ spellings ++ builtins, net name = 0 := by decide

theorem net_alias {name base : List Char} (h : alias? name = some base) : net base = net name := by
  rcases alias?_eq_some h with rfl | ⟨hname, hbase⟩
  · rfl
  · rw [net_spelled name (by simp [hname]), net_spelled base (by simp [hbase])]

theorem net_generic (base argument : List Char) :
    net (generic base argument) = net base + net argument := by
  have hopen : delta '<' = 1 := rfl
  have hclose : delta '>' = -1 := rfl
  simp only [generic, net_append, net_cons, net_nil]
  omega

theorem net_callable (plain inner : List Char) (returns : Option (List Char)) :
    net (plain ++ '(' :: inner ++ ')' :: returns.elim [] (':' :: ·))
      = net plain + net inner + returns.elim 0 net := by
  have hopen : delta '(' = 1 := rfl
  have hclose : delta ')' = -1 := rfl
  have hcolon : delta ':' = 0 := rfl
  cases returns with
  | none =>
      simp only [Option.elim_none, net_append, net_cons, net_nil]
      omega
  | some r =>
      simp only [Option.elim_some, net_append, net_cons]
      omega

theorem net_canonicalParam (hcanon : KeepsNet canon) (hagain : KeepsNet again) (p : List Char) :
    net (canonicalParam canon again p) = net p := by
  have hp := net_union_unionWith hcanon hagain isBarOrComma_of_isBar p
  unfold canonicalParam
  split
  · rename_i hnil
    rw [hnil] at hp
    exact hp
  · exact hp

theorem net_canonicalParams (hcanon : KeepsNet canon) (hagain : KeepsNet again)
    (inner : List Char) :
    net (Text.joinWith [','] (canonicalParams canon again inner)) = net inner := by
  unfold canonicalParams
  split
  · rename_i hempty
    rw [List.isEmpty_iff.1 hempty]
    rfl
  · conv_rhs => rw [← joinWith_splitTop_isComma inner, net_joinWith rfl]
    rw [net_joinWith rfl, List.map_map]
    congr 1
    exact List.map_congr_left fun p _ => net_canonicalParam hcanon hagain p

theorem KeepsNet.canonicalStep (hcanon : KeepsNet canon) (hagain : KeepsNet again)
    (raw : List Char) : (canonicalStep canon again raw).elim 0 net = net raw := by
  have hcut := cut_shape raw
  rw [← net_dropMarkers raw]
  unfold TypeName.canonicalStep
  generalize shape raw = s at hcut ⊢
  generalize dropMarkers raw = name at hcut ⊢
  have hcanon' := keepsNet_iff.1 hcanon
  have hagain' := keepsNet_iff.1 hagain
  have hopen : delta '(' = 1 := rfl
  have hclose : delta ')' = -1 := rfl
  cases hcut with
  | nothing hname =>
      rw [hname]
      rfl
  | @group inner hunwrap =>
      simp only [hcanon' inner, unwrapGroup?_eq_some hunwrap, List.cons_append, net_cons,
        net_append, net_nil]
      omega
  | @array element hname =>
      have hsuffix : net ['[', ']'] = 0 := rfl
      simp only
      rw [hname, net_append, hsuffix, Int.add_zero, ← hcanon' element]
      cases canon element with
      | none => rfl
      | some e =>
          rw [Option.bind_some, hagain', arrayOf, net_generic, net_groupMember]
          exact Int.zero_add _
  | plain =>
      cases h : alias? name with
      | none =>
          rcases alias?_cases name with hself | hmem
          · rw [hself] at h
            cases h
          · simp [h, net_spelled name (by simp [hmem])]
      | some base => simpa [h] using net_alias h
  | kept => rfl
  | @generic plain base inner hname _ hbase =>
      have hargs := net_union_unionWith hcanon hagain (fun _ => id) inner
      have hname : net name = net plain + net inner := hname ▸ net_generic plain inner
      rw [hname, ← net_alias hbase, ← hargs]
      simp only
      split
      · rename_i hnil
        simp [hnil, union, Text.joinWith]
      · simp [net_generic]
  | @callable plain base inner returns hname _ hbase =>
      have hparams := net_canonicalParams hcanon hagain inner
      have hreturns : (if returns.elim [] (unionWith canon again isBarOrComma) = [] then none
          else some (union (returns.elim [] (unionWith canon again isBarOrComma)))).elim 0 net
            = returns.elim 0 net := by
        cases returns with
        | none => rfl
        | some r =>
            have hr := net_union_unionWith hcanon hagain (fun _ => id) r
            by_cases hnil : unionWith canon again isBarOrComma r = []
            · rw [hnil, net_union] at hr
              simpa [hnil] using hr
            · simpa [hnil] using hr
      simp only [Option.elim_some]
      rw [signature_eq, net_callable, hname, net_callable, hparams, net_alias hbase, hreturns]

end KeepsNet

theorem keepsNet_canonicalize : KeepsNet canonicalize? := by
  refine keepsNet_iff.2 (canonicalize?_induction (P := fun p n => n.elim 0 net = net p) some
    (fun _ => rfl) ?_)
  exact fun _ _ hcanon hagain => (keepsNet_iff.2 hcanon).canonicalStep (keepsNet_iff.2 hagain)

end ScriptTypes.TypeName
