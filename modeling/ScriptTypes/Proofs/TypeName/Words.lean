import ScriptTypes.Proofs.TypeName.Canonical

/-!
# The words of a type name

Brackets and separators cut a type name into words. Whatever is done with names leaves their words
alone: a name is cut between words and put together from whole words, and only the markers of
documentation are taken off a word. A vocabulary is a set of words that allows for this. The names
spelled with its words are closed under the operations on names: the canonical form, and all that
builds compound names or takes them apart.
-/

namespace ScriptTypes.TypeName

/-- The characters between words: the brackets and what separates the parts of a name. -/
def separates (c : Char) : Bool := ['<', '>', '(', ')', '[', ']', '|', ',', ':'].contains c

theorem isBlank_of_separates {c : Char} (h : separates c = true) : Text.isBlank c = false := by
  simp only [separates, List.contains_eq_mem, List.mem_cons, List.not_mem_nil, or_false,
    decide_eq_true_eq] at h
  rcases h with rfl | rfl | rfl | rfl | rfl | rfl | rfl | rfl | rfl <;> decide

theorem separates_of_isBarOrComma {c : Char} (h : isBarOrComma c = true) :
    separates c = true := by
  simp only [isBarOrComma, isBar, isComma, Bool.or_eq_true, beq_iff_eq] at h
  rcases h with rfl | rfl <;> decide

theorem compact_append (cs cs' : List Char) : compact (cs ++ cs') = compact cs ++ compact cs' :=
  List.filter_append _ _

theorem compact_of_isBlank_eq_false {cs : List Char} (h : ∀ c ∈ cs, Text.isBlank c = false) :
    compact cs = cs :=
  List.filter_eq_self.2 fun c hc => by rw [h c hc]; rfl

/-- The words of a name, which blanks are no part of. -/
def words (cs : List Char) : List (List Char) := (compact cs).splitOnP separates

/-- Words stand in the text as they are, the first one at its beginning. -/
theorem infix_of_mem_splitOnP (p : Char → Bool) (cs : List Char) :
    (∀ w ∈ cs.splitOnP p, w <:+: cs) ∧ ∀ w ∈ (cs.splitOnP p).head?, w <+: cs := by
  induction cs with
  | nil => simp
  | cons c cs ih =>
    rw [List.splitOnP_cons_eq_if_modifyHead]
    split
    · refine ⟨?_, by simp⟩
      refine List.forall_mem_cons.2 ⟨List.nil_infix, fun w hw => ?_⟩
      exact (ih.1 w hw).trans (List.suffix_cons c cs).isInfix
    · cases hsplit : cs.splitOnP p with
      | nil => exact absurd hsplit (List.splitOnP_ne_nil _ _)
      | cons first rest =>
        rw [hsplit] at ih
        have hfirst : c :: first <+: c :: cs := List.cons_prefix_cons.2 ⟨rfl, ih.2 first rfl⟩
        refine ⟨?_, by simpa using hfirst⟩
        refine List.forall_mem_cons.2 ⟨hfirst.isInfix, fun w hw => ?_⟩
        exact (ih.1 w (List.mem_cons_of_mem _ hw)).trans (List.suffix_cons c cs).isInfix

theorem infix_of_mem_words {cs w : List Char} (h : w ∈ words cs) : w <:+: compact cs :=
  (infix_of_mem_splitOnP separates (compact cs)).1 w h

/-- The characters after the last separator. -/
theorem exists_last_word (cs : List Char) :
    ∃ before w, (∀ c ∈ w, separates c = false) ∧
      (cs = w ∨ ∃ c, separates c = true ∧ cs = before ++ c :: w) := by
  induction cs using List.reverseRecOn with
  | nil => exact ⟨[], [], by simp, .inl rfl⟩
  | append_singleton cs c ih =>
    by_cases hc : separates c = true
    · exact ⟨cs, [], by simp, .inr ⟨c, hc, rfl⟩⟩
    · obtain ⟨before, w, hw, hcs⟩ := ih
      refine ⟨before, w ++ [c], ?_, ?_⟩
      · intro d hd
        rcases List.mem_append.1 hd with hd | hd
        · exact hw d hd
        · rw [List.mem_singleton.1 hd]
          exact Bool.eq_false_iff.2 hc
      · rcases hcs with rfl | ⟨d, hd, rfl⟩
        · exact .inl rfl
        · exact .inr ⟨d, hd, by simp⟩

/-- Words to spell names with. -/
structure Vocabulary where
  Word : List Char → Prop
  common : ∀ w, '$' ∉ w → Word w
  front : ∀ c w, isMarker c = true → Word (c :: w) → Word w
  back : ∀ w, Word (w ++ ['=']) → Word w

namespace Vocabulary

/-- A name is made of words of the vocabulary. -/
def Spells (V : Vocabulary) (cs : List Char) : Prop := ∀ w ∈ words cs, V.Word w

variable {V : Vocabulary} {c : Char} {as bs cs : List Char}

/-! ### Cutting and joining -/

theorem spells_append_cons (h : separates c = true) :
    V.Spells (as ++ c :: bs) ↔ V.Spells as ∧ V.Spells bs := by
  have hcompact : compact (as ++ c :: bs) = compact as ++ c :: compact bs := by
    simp [compact, isBlank_of_separates h]
  unfold Spells words
  rw [hcompact, List.splitOnP_append_cons _ _ h]
  simp only [List.mem_append, or_imp, forall_and]

theorem spells_of_separates_eq_false (h : ∀ c ∈ compact cs, separates c = false) :
    V.Spells cs ↔ V.Word (compact cs) := by
  simp [Spells, words, List.splitOnP_eq_singleton h]

theorem spells_compact : V.Spells (compact cs) ↔ V.Spells cs := by
  simp [Spells, words, compact]

/-- A name without a dollar sign has common words only. -/
theorem spells_of_not_mem (h : '$' ∉ cs) : V.Spells cs := by
  intro w hw
  refine V.common w fun hdollar => h ?_
  exact List.mem_of_mem_filter ((infix_of_mem_words hw).subset hdollar)

theorem spells_nil : V.Spells [] := spells_of_not_mem List.not_mem_nil

theorem spells_cons (h : separates c = true) : V.Spells (c :: cs) ↔ V.Spells cs := by
  rw [← List.nil_append (c :: cs), spells_append_cons h]
  exact and_iff_right spells_nil

theorem spells_concat (h : separates c = true) : V.Spells (cs ++ [c]) ↔ V.Spells cs := by
  rw [spells_append_cons h]
  exact and_iff_left spells_nil

theorem spells_joinWith (h : separates c = true) {names : List (List Char)} :
    V.Spells (Text.joinWith [c] names) ↔ ∀ n ∈ names, V.Spells n := by
  induction names with
  | nil => simp [Text.joinWith, spells_nil]
  | cons n names ih =>
    cases names with
    | nil => simp [Text.joinWith]
    | cons n' names =>
      rw [joinWith_cons n (by simp), spells_append_cons h, ih]
      simp

/-! ### Markers -/

theorem spells_of_marker_cons (h : isMarker c = true) (hspells : V.Spells (c :: cs)) :
    V.Spells cs := by
  have hc : separates c = false ∧ Text.isBlank c = false := by
    simp only [isMarker, Bool.or_eq_true, beq_iff_eq] at h
    rcases h with (rfl | rfl) | rfl <;> decide
  intro w hw
  have hwords : words (c :: cs) = (words cs).modifyHead (c :: ·) := by
    simp [words, compact, hc, List.splitOnP_cons_eq_if_modifyHead]
  unfold Spells at hspells
  rw [hwords] at hspells
  cases hcs : words cs with
  | nil => simp [hcs] at hw
  | cons first rest =>
    rw [hcs, List.modifyHead_cons, List.forall_mem_cons] at hspells
    rw [hcs] at hw
    rcases List.mem_cons.1 hw with rfl | hw
    · exact V.front c _ h hspells.1
    · exact hspells.2 w hw

theorem spells_of_concat_eq (h : V.Spells (cs ++ ['='])) : V.Spells cs := by
  obtain ⟨before, w, hw, hcs⟩ := exists_last_word (compact cs)
  have heq : separates '=' = false := by decide
  have hword (h : V.Spells (w ++ ['='])) (hcompact : compact w = w) : V.Spells w := by
    rw [spells_of_separates_eq_false] at h ⊢
    · exact V.back _ (compact_append w ['='] ▸ h)
    · rwa [hcompact]
    · intro c hc
      rcases List.mem_append.1 (List.mem_of_mem_filter hc) with hc | hc
      · exact hw c hc
      · rw [List.mem_singleton.1 hc]
        exact heq
  have hcompact : compact (compact cs) = compact cs := by simp [compact]
  have hself : ∀ c ∈ compact cs, Text.isBlank c = false := by
    intro c hc
    simpa using (List.mem_filter.1 hc).2
  have happend : compact (cs ++ ['=']) = compact cs ++ ['='] := compact_append cs ['=']
  rw [← spells_compact, happend] at h
  rw [← spells_compact]
  rcases hcs with hcs | ⟨c, hc, hcs⟩
  · rw [hcs] at h hcompact ⊢
    exact hword h hcompact
  · rw [hcs, List.append_assoc, List.cons_append, spells_append_cons hc] at h
    rw [hcs, spells_append_cons hc]
    refine ⟨h.1, hword h.2 (compact_of_isBlank_eq_false fun d hd => hself d ?_)⟩
    rw [hcs]
    simp [hd]

theorem Spells.dropMarkers (h : V.Spells cs) : V.Spells (dropMarkers cs) := by
  obtain ⟨l, r, heq, hl, hr⟩ := exists_markers cs
  generalize TypeName.dropMarkers cs = name at heq
  subst heq
  have hback : V.Spells (name ++ r) := by
    clear hr
    induction l with
    | nil => exact h
    | cons c l ih =>
      rw [List.forall_mem_cons] at hl
      exact ih hl.2 (spells_of_marker_cons hl.1 h)
  clear h hl
  induction r using List.reverseRecOn with
  | nil => simpa using hback
  | append_singleton r c ih =>
    obtain rfl : c = '=' := hr c (by simp)
    rw [← List.append_assoc] at hback
    exact ih (fun c hc => hr c (by simp [hc])) (spells_of_concat_eq hback)

/-! ### Building names -/

theorem spells_groupMember {name : List Char} : V.Spells (groupMember name) ↔ V.Spells name := by
  unfold groupMember
  split
  · rw [spells_concat (by decide), spells_cons (by decide)]
  · rfl

theorem spells_union {names : List (List Char)} :
    V.Spells (union names) ↔ ∀ n ∈ names, V.Spells n := by
  rw [union, spells_joinWith (by decide), List.forall_mem_map]
  exact forall₂_congr fun n _ => spells_groupMember

theorem spells_generic {base argument : List Char} :
    V.Spells (generic base argument) ↔ V.Spells base ∧ V.Spells argument := by
  rw [generic, spells_concat (by decide), spells_append_cons (by decide)]

theorem spells_arrayOf {element : List Char} : V.Spells (arrayOf element) ↔ V.Spells element := by
  rw [arrayOf, spells_generic, spells_groupMember]
  exact and_iff_right (spells_of_not_mem (by decide))

theorem spells_functionOf {returns : List (List Char)} (h : ∀ n ∈ returns, V.Spells n) :
    V.Spells (functionOf returns) := by
  unfold functionOf
  have hfunction : V.Spells function := spells_of_not_mem (by decide)
  split
  · exact hfunction
  · exact spells_generic.2 ⟨hfunction, spells_union.2 h⟩

/-- The part of a name after a bracket and an optional text behind a colon. -/
theorem spells_callable {base inner : List Char} {returns : Option (List Char)} :
    V.Spells (base ++ '(' :: inner ++ ')' :: returns.elim [] (':' :: ·)) ↔
      V.Spells base ∧ V.Spells inner ∧ ∀ r ∈ returns, V.Spells r := by
  rw [spells_append_cons (by decide), spells_append_cons (by decide), and_assoc]
  cases returns with
  | none => simp [spells_nil]
  | some r => simp [spells_cons (show separates ':' = true by decide)]

theorem spells_signature {base : List Char} {params returns : List (List Char)}
    (hbase : V.Spells base) (hparams : ∀ n ∈ params, V.Spells n)
    (hreturns : ∀ n ∈ returns, V.Spells n) : V.Spells (signature base params returns) := by
  rw [signature_eq, spells_callable, spells_joinWith (by decide)]
  refine ⟨hbase, hparams, fun r hr => ?_⟩
  split at hr
  · cases hr
  · cases hr
    exact spells_union.2 hreturns

/-! ### Taking names apart -/

theorem Spells.of_mem_splitTop {sep : Char → Bool} (hsep : ∀ c, sep c = true → separates c = true)
    (h : V.Spells cs) : ∀ piece ∈ splitTop sep cs, V.Spells piece := by
  have hfrom (d : Int) (piece cs : List Char) (h : V.Spells (piece.reverse ++ cs)) :
      ∀ p ∈ splitFrom sep d piece cs, V.Spells p := by
    induction cs generalizing d piece with
    | nil => simpa [splitFrom] using h
    | cons c cs ih =>
      unfold splitFrom
      split
      · rename_i hc
        rw [spells_append_cons (hsep c hc.2)] at h
        exact List.forall_mem_cons.2 ⟨h.1, ih d [] h.2⟩
      · exact ih _ (c :: piece) (by simpa using h)
  exact hfrom 0 [] cs h

theorem Spells.unwrapGroup {inner : List Char} (h : V.Spells cs)
    (hunwrap : unwrapGroup? cs = some inner) : V.Spells inner := by
  rw [unwrapGroup?_eq_some hunwrap] at h
  rwa [← spells_cons (c := '(') (by decide), ← spells_concat (c := ')') (by decide)]

theorem Spells.alias {base : List Char} (h : V.Spells cs) (hbase : alias? cs = some base) :
    V.Spells base := by
  rcases alias?_eq_some hbase with rfl | ⟨-, hmem⟩
  · exact h
  · have hall : ∀ name ∈ builtins, '$' ∉ name := by decide
    exact spells_of_not_mem (hall base hmem)

theorem Spells.genericArgument {base argument : List Char} (h : V.Spells cs)
    (hargument : genericArgument? base cs = some argument) : V.Spells argument := by
  have heq : ∃ tail rest, cs = base ++ '<' :: rest ∧ rest = argument ++ '>' :: tail := by
    simp only [genericArgument?, Option.bind_eq_bind, Option.bind_eq_some_iff] at hargument
    obtain ⟨name, hname, rest, hrest, arg, harg, hargument⟩ := hargument
    split at hargument
    · cases hargument
    · cases hargument
      rw [Text.dropPrefix?_eq_some_iff] at hname hrest
      rw [dropSuffix?_eq_some_iff] at harg
      exact ⟨[], rest, by rw [hname, hrest]; rfl, harg⟩
  obtain ⟨tail, rest, rfl, rfl⟩ := heq
  rw [spells_append_cons (by decide), spells_append_cons (by decide)] at h
  exact h.2.1

theorem Spells.ungroup (h : V.Spells cs) : V.Spells (ungroup cs) := by
  unfold TypeName.ungroup
  cases hunwrap : unwrapGroup? cs with
  | none => exact h
  | some inner => exact h.unwrapGroup hunwrap

/-! ### Canonical forms -/

/-- The canonical forms of spelled names are spelled. -/
def Keeps (V : Vocabulary) (canon : List Char → Option (List Char)) : Prop :=
  ∀ raw n, V.Spells raw → canon raw = some n → V.Spells n

section Canonical

variable {canon again : List Char → Option (List Char)}

theorem Keeps.members (hagain : V.Keeps again) (h : V.Spells cs) :
    ∀ n ∈ members again cs, V.Spells n := by
  rcases members_cases again cs with ⟨heq, -⟩ | ⟨-, heq⟩
  · simpa [heq] using h
  · intro n hn
    rw [heq] at hn
    obtain ⟨piece, hpiece, hn⟩ := List.mem_filterMap.1 hn
    refine hagain piece n (h.of_mem_splitTop (fun c hc => ?_) piece hpiece) hn
    exact separates_of_isBarOrComma (isBarOrComma_of_isBar c hc)

theorem Keeps.unionWith (hcanon : V.Keeps canon) (hagain : V.Keeps again) {sep : Char → Bool}
    (hsep : ∀ c, sep c = true → isBarOrComma c = true) (h : V.Spells cs) :
    ∀ n ∈ unionWith canon again sep cs, V.Spells n := by
  intro n hn
  rw [unionWith_eq] at hn
  obtain ⟨piece, hpiece, hn⟩ := List.mem_flatMap.1 ((addNew_sublist _).subset hn)
  have hspells := h.of_mem_splitTop (fun c hc => separates_of_isBarOrComma (hsep c hc)) piece hpiece
  unfold alternatives at hn
  cases hform : canon piece with
  | none => simp [hform] at hn
  | some form =>
    rw [hform] at hn
    exact hagain.members (hcanon piece form hspells hform) n hn

theorem Keeps.canonicalParams (hcanon : V.Keeps canon) (hagain : V.Keeps again) (h : V.Spells cs) :
    ∀ n ∈ canonicalParams canon again cs, V.Spells n := by
  unfold TypeName.canonicalParams
  split
  · simp
  · intro n hn
    obtain ⟨param, hparam, rfl⟩ := List.mem_map.1 hn
    have hspells := h.of_mem_splitTop (fun c hc => separates_of_isBarOrComma (by simp [isBarOrComma, hc]))
      param hparam
    unfold canonicalParam
    split
    · exact spells_of_not_mem (by decide)
    · exact spells_union.2 (hcanon.unionWith hagain isBarOrComma_of_isBar hspells)

/-- One step puts words of the name together again. -/
theorem Keeps.canonicalStep (hcanon : V.Keeps canon) (hagain : V.Keeps again) :
    V.Keeps (canonicalStep canon again) := by
  intro raw n hraw h
  have hname := hraw.dropMarkers
  have hcut := cut_shape raw
  unfold TypeName.canonicalStep at h
  generalize shape raw = s at hcut h
  generalize TypeName.dropMarkers raw = name at hcut hname
  cases hcut with
  | nothing => cases h
  | group hunwrap => exact hcanon _ n (hname.unwrapGroup hunwrap) h
  | @array element heq =>
    obtain ⟨e, he, hn⟩ := Option.bind_eq_some_iff.1 h
    have helement : V.Spells element := by
      rw [heq, spells_append_cons (by decide)] at hname
      exact hname.1
    exact hagain _ n (spells_arrayOf.2 (hcanon element e helement he)) hn
  | plain => exact hname.alias h
  | kept =>
    cases h
    exact hname
  | @generic plain base inner heq _ hbase =>
    have hparts := spells_generic.1 (heq ▸ hname)
    have hbase := hparts.1.alias hbase
    simp only at h
    split at h <;> cases h
    · exact hbase
    · refine spells_generic.2 ⟨hbase, spells_union.2 ?_⟩
      exact hcanon.unionWith hagain (fun _ => id) hparts.2
  | @callable plain base inner returns heq _ hbase =>
    have hparts := spells_callable.1 (heq ▸ hname)
    cases h
    refine spells_signature (hparts.1.alias hbase) (hcanon.canonicalParams hagain hparts.2.1) ?_
    cases returns with
    | none => simp
    | some r => exact hcanon.unionWith hagain (fun _ => id) (hparts.2.2 r rfl)

end Canonical

theorem keeps_canonicalize : V.Keeps canonicalize? := by
  intro raw n hraw h
  refine canonicalize?_induction (P := fun raw n? => V.Spells raw → ∀ n ∈ n?, V.Spells n)
    (fun _ => none) (by simp) ?_ raw hraw n h
  intro canon again hcanon hagain raw hraw n hn
  exact Keeps.canonicalStep (fun raw n h hn => hcanon raw h n hn)
    (fun raw n h hn => hagain raw h n hn) raw n hraw hn

theorem Spells.returnTypes (h : V.Spells cs) : ∀ n ∈ returnTypes cs, V.Spells n := by
  have hunion {returns : List Char} (h : V.Spells returns) :
      ∀ n ∈ canonicalUnion isBar returns, V.Spells n :=
    keeps_canonicalize.unionWith keeps_canonicalize isBarOrComma_of_isBar h
  unfold TypeName.returnTypes
  split
  · rename_i returns heq
    exact hunion (h.genericArgument heq)
  · split
    · rename_i rest heq
      split
      · rename_i inner returns hclose
        rw [Text.dropPrefix?_eq_some_iff.1 heq, splitAtClose_eq_some hclose] at h
        rw [spells_append_cons (by decide), spells_append_cons (by decide),
          spells_cons (by decide)] at h
        exact hunion h.2.2
      · simp
    · simp

end Vocabulary

/-- A single word of its own is a canonical form, once its markers are gone. -/
theorem canonicalize?_of_word {cs : List Char} (h : ∀ c ∈ cs, separates c = false)
    (hdollar : '$' ∈ dropMarkers cs) : canonicalize? cs = some (dropMarkers cs) := by
  have hcut := cut_shape cs
  have hname : ∀ c ∈ dropMarkers cs, separates c = false :=
    fun c hc => h c ((sublist_dropMarkers cs).subset hc)
  rw [canonicalize?_eq]
  unfold canonicalStep
  generalize shape cs = s at hcut
  generalize dropMarkers cs = name at hcut hname hdollar
  have hcontra {c : Char} (hc : separates c = true) : c ∉ name := fun hmem => by
    simp [hname c hmem] at hc
  cases hcut with
  | nothing heq => simp [heq] at hdollar
  | group hunwrap =>
    refine absurd ?_ (hcontra (c := '(') (by decide))
    simp [unwrapGroup?_eq_some hunwrap]
  | array heq => exact absurd (by simp [heq]) (hcontra (c := '[') (by decide))
  | plain =>
    have hall : ∀ name ∈ spellings, '$' ∉ name := by decide
    exact (alias?_cases name).resolve_right fun hmem => hall name hmem hdollar
  | kept => rfl
  | generic heq => exact absurd (by simp [heq]) (hcontra (c := '<') (by decide))
  | callable heq => exact absurd (by simp [heq]) (hcontra (c := '(') (by decide))

end ScriptTypes.TypeName
