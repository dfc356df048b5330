import ScriptTypes.Proofs.Inference.Careful
import ScriptTypes.Proofs.Inference.Shown
import ScriptTypes.Proofs.Inference.Vocabulary

/-!
# Generated names stand apart

Generated names start with the stem of the script's file and a dollar sign. If no name from outside
contains this beginning, and no bracket or separator comes into a generated name, then such a name
is a word of its own: it comes up in other names as it is, and only because its type is registered.

The words that a registry knows are those without the beginning of generated names, and the names
of its types. A registry is closed if it knows all names that its types hold. In a closed registry
a question about known names meets no type that is still to be generated.
-/

namespace ScriptTypes

open ScriptTypes.TypeName (separates isMarker compact dropMarkers)
open ScriptTypes.TypeName.Vocabulary

namespace Setting

variable {s : Setting}

/-- What all generated names start with. -/
def mark (s : Setting) : List Char := s.fileStem.toList ++ ['$']

/-- A character that is no bracket, separator, marker or blank, as letters, digits, underscores and
hyphens are none. -/
def isInert (c : Char) : Bool := !(separates c || isMarker c || Text.isBlank c)

theorem of_isInert {c : Char} (h : isInert c = true) :
    separates c = false ∧ isMarker c = false ∧ Text.isBlank c = false := by
  simp only [isInert, Bool.not_eq_true', Bool.or_eq_false_iff] at h
  exact ⟨h.1.1, h.1.2, h.2⟩

/-- Generated names come up only where their types do. -/
structure Apart (s : Setting) : Prop where
  stem : ∀ c ∈ s.fileStem.toList, isInert c = true
  foreign : ∀ t ∈ s.foreignNames, ¬ s.mark <:+: compact t.toList
  paths : ∀ o ∈ s.owners, ∀ c ∈ (o.collection s).path.toList, separates c = false

/-- What follows the beginning of a generated name: the offset and the path. -/
def label : Origin → (path : String) → List Char
  | .literal offset, path =>
    (toString offset).toList ++ if path.isEmpty then [] else '.' :: path.toList
  | .scope offset, path => (toString offset).toList ++ '.' :: path.toList

theorem separates_eq_false_of_isDigit {c : Char} (h : c.isDigit = true) : separates c = false := by
  rw [Bool.eq_false_iff]
  intro hc
  simp only [separates, List.contains_eq_mem, List.mem_cons, List.not_mem_nil, or_false,
    decide_eq_true_eq] at hc
  rcases hc with rfl | rfl | rfl | rfl | rfl | rfl | rfl | rfl | rfl <;> simp at h

theorem isDigit_of_mem_toString {n : Nat} {c : Char} (h : c ∈ (toString n).toList) :
    c.isDigit = true := by
  rw [Nat.toString_eq_repr, Nat.repr, String.toList_ofList] at h
  exact Nat.isDigit_of_mem_toDigits (by decide) (by decide) h

theorem separates_eq_false_of_mem_label {origin : Origin} {path : String}
    (h : ∀ c ∈ path.toList, separates c = false) :
    ∀ c ∈ label origin path, separates c = false := by
  have hdigits (n : Nat) : ∀ c ∈ (toString n).toList, separates c = false :=
    fun c hc => separates_eq_false_of_isDigit (isDigit_of_mem_toString hc)
  have hdotted : ∀ c ∈ '.' :: path.toList, separates c = false :=
    List.forall_mem_cons.2 ⟨by decide, h⟩
  intro c hc
  cases origin with
  | literal offset =>
    rcases List.mem_append.1 hc with hc | hc
    · exact hdigits offset c hc
    · split at hc
      · cases hc
      · exact hdotted c hc
  | scope offset =>
    rcases List.mem_append.1 hc with hc | hc
    · exact hdigits offset c hc
    · exact hdotted c hc

theorem exists_generatedName (s : Setting) (origin : Origin) (path : String) :
    ∃ raw : String, raw.toList = s.mark ++ label origin path ∧
      s.generatedName origin path = (canonicalTypeName? raw).getD raw := by
  cases origin with
  | literal offset =>
    unfold generatedName
    dsimp only
    split
    · rename_i hempty
      exact ⟨_, by simp [mark, label, hempty], rfl⟩
    · rename_i hpath
      exact ⟨_, by simp [mark, label, hpath], rfl⟩
  | scope offset => exact ⟨_, by simp [mark, label], rfl⟩

/-- What is left of the beginning of generated names in their canonical form. -/
def canonicalMark (s : Setting) : List Char := (compact s.mark).dropWhile isMarker

theorem compact_mark (s : Setting) : compact s.mark = compact s.fileStem.toList ++ ['$'] := by
  rw [mark, TypeName.compact_append]
  rfl

/-- The dollar sign ends what can be dropped in front of a name. -/
theorem dropMarkers_compact_mark_append (s : Setting) (cs : List Char) :
    dropMarkers (compact (s.mark ++ cs))
      = s.canonicalMark ++ Text.dropRightWhile (· == '=') (compact cs) := by
  have hfront (as bs : List Char) : (as ++ '$' :: bs).dropWhile isMarker
      = as.dropWhile isMarker ++ '$' :: bs := by
    rw [List.dropWhile_append]
    split
    · rename_i hempty
      rw [List.isEmpty_iff.1 hempty]
      rfl
    · rfl
  rw [dropMarkers, TypeName.compact_append, canonicalMark, compact_mark, List.append_assoc,
    List.singleton_append, hfront, hfront, Text.dropRightWhile_append_cons (by decide),
    List.append_assoc, List.singleton_append]

/-- A generated name is put together from the beginning and a label, and loses what documentation
could mean by its end. -/
theorem toList_generatedName (hstem : ∀ c ∈ s.fileStem.toList, separates c = false)
    (origin : Origin) {path : String} (h : ∀ c ∈ path.toList, separates c = false) :
    (s.generatedName origin path).toList
      = s.canonicalMark ++ Text.dropRightWhile (· == '=') (compact (label origin path)) := by
  obtain ⟨raw, hraw, hname⟩ := s.exists_generatedName origin path
  have hword : ∀ c ∈ compact (s.mark ++ label origin path), separates c = false := by
    intro c hc
    rcases List.mem_append.1 (List.mem_of_mem_filter hc) with hc | hc
    · rcases List.mem_append.1 hc with hc | hc
      · exact hstem c hc
      · rw [List.mem_singleton.1 hc]
        decide
    · exact separates_eq_false_of_mem_label h c hc
  have hdollar : '$' ∈ s.canonicalMark := by
    rw [canonicalMark, compact_mark, List.dropWhile_append]
    split
    · exact List.mem_singleton_self _
    · exact List.mem_append_right _ (List.mem_singleton_self _)
  have hcanonical := TypeName.canonicalize?_of_word hword
    (by rw [dropMarkers_compact_mark_append]; exact List.mem_append_left _ hdollar)
  rw [hname, canonicalTypeName?, hraw, hcanonical, dropMarkers_compact_mark_append,
    Option.map_some, Option.getD_some, String.toList_ofList]

namespace Apart

variable (hs : s.Apart)
include hs

theorem of_mem_mark {c : Char} (h : c ∈ s.mark) :
    separates c = false ∧ isMarker c = false ∧ Text.isBlank c = false := by
  rcases List.mem_append.1 h with h | h
  · exact of_isInert (hs.stem c h)
  · rw [List.mem_singleton.1 h]
    decide

theorem canonicalMark_eq : s.canonicalMark = s.mark := by
  rw [canonicalMark, TypeName.compact_of_isBlank_eq_false fun c hc => (hs.of_mem_mark hc).2.2,
    List.dropWhile_eq_self_iff]
  exact fun hne => Bool.eq_false_iff.1 (hs.of_mem_mark (List.getElem_mem hne)).2.1

theorem separates_stem : ∀ c ∈ s.fileStem.toList, separates c = false :=
  fun c hc => (of_isInert (hs.stem c hc)).1

variable {o : Owner} (ho : o ∈ s.owners)
include ho

theorem type_eq :
    (o.type s).toList
      = s.mark ++ Text.dropRightWhile (· == '=')
        (compact (label (o.origin s) (o.collection s).path)) := by
  rw [← hs.canonicalMark_eq]
  exact toList_generatedName hs.separates_stem (o.origin s) (hs.paths o ho)

theorem dropMarkers_type : dropMarkers (o.type s).toList = (o.type s).toList := by
  rw [hs.type_eq ho, ← hs.canonicalMark_eq, ← dropMarkers_compact_mark_append,
    TypeName.dropMarkers_dropMarkers]

theorem of_mem_type {c : Char} (h : c ∈ (o.type s).toList) :
    separates c = false ∧ Text.isBlank c = false := by
  rw [hs.type_eq ho] at h
  rcases List.mem_append.1 h with h | h
  · exact ⟨(hs.of_mem_mark h).1, (hs.of_mem_mark h).2.2⟩
  · rw [Text.dropRightWhile, List.mem_reverse] at h
    have hmem := List.mem_filter.1 (List.mem_reverse.1 ((List.dropWhile_sublist _).subset h))
    exact ⟨separates_eq_false_of_mem_label (hs.paths o ho) c hmem.1, by simpa using hmem.2⟩

theorem mark_infix_type : s.mark <:+: (o.type s).toList := by
  rw [hs.type_eq ho]
  exact (List.prefix_append _ _).isInfix

/-- The name of a generated type is a word of its own. -/
theorem knows_type_iff {V : TypeName.Vocabulary} :
    V.Knows (o.type s) ↔ V.Word (o.type s).toList := by
  have hcompact : compact (o.type s).toList = (o.type s).toList :=
    TypeName.compact_of_isBlank_eq_false fun c hc => (hs.of_mem_type ho hc).2
  have hword : ∀ c ∈ compact (o.type s).toList, separates c = false := by
    rw [hcompact]
    exact fun c hc => (hs.of_mem_type ho hc).1
  rw [Knows, spells_of_separates_eq_false hword, hcompact]

end Apart

end Setting

namespace Registry

variable {s : Setting} {hs : s.Apart} {r r' : Registry}

/-- The words that a registry knows: those without the beginning of generated names, and the names
of its types. -/
def vocabulary (hs : s.Apart) (r : Registry) : TypeName.Vocabulary where
  Word w := s.mark <:+: w →
    ∃ o ∈ s.owners, (o.type s).toList = w ∧ Entries.contains (o.type s) r = true
  common w h hmark := absurd (hmark.subset (by simp [Setting.mark])) h
  front c w hc h hmark := by
    obtain ⟨o, ho, htype, -⟩ := h (hmark.trans (List.suffix_cons c w).isInfix)
    have hhead : c ∈ (TypeName.dropMarkers (o.type s).toList).head? := by
      rw [hs.dropMarkers_type ho, htype]
      rfl
    exact absurd (TypeName.head_dropMarkers c hhead) (by simp [hc])
  back w h hmark := by
    obtain ⟨o, ho, htype, -⟩ := h (hmark.trans (List.prefix_append w _).isInfix)
    have hlast : '=' ∈ (TypeName.dropMarkers (o.type s).toList).getLast? := by
      rw [hs.dropMarkers_type ho, htype]
      simp
    exact absurd rfl (TypeName.getLast_dropMarkers '=' hlast)

theorem covers_vocabulary : (r.vocabulary hs).Covers s := by
  intro t ht w hw hmark
  exact absurd (hmark.trans (TypeName.infix_of_mem_words hw)) (hs.foreign t ht)

theorem vocabulary_mono
    (h : ∀ t, Entries.contains t r = true → Entries.contains t r' = true) :
    r.vocabulary hs ≤ r'.vocabulary hs := by
  intro w hw hmark
  obtain ⟨o, ho, htype, hmem⟩ := hw hmark
  exact ⟨o, ho, htype, h _ hmem⟩

theorem Included.vocabulary_le (h : r.Included r') : r.vocabulary hs ≤ r'.vocabulary hs :=
  vocabulary_mono fun _ ht => h.contains ht

/-- A generated type is known where it is registered. -/
theorem knows_type_iff {o : Owner} (ho : o ∈ s.owners) :
    (r.vocabulary hs).Knows (o.type s) ↔ Entries.contains (o.type s) r = true := by
  rw [hs.knows_type_iff ho]
  constructor
  · intro h
    obtain ⟨o', -, htype, hmem⟩ := h (hs.mark_infix_type ho)
    rwa [← String.toList_inj.1 htype]
  · exact fun h _ => ⟨o, ho, rfl, h⟩

/-- All types can be generated, and the names that they hold are known. -/
structure Closed (hs : s.Apart) (r : Registry) : Prop where
  generated : ∀ t, Entries.contains t r = true → s.isGenerated t = true
  parents : ∀ t g, Entries.get? t r = some g → (r.vocabulary hs).KnowsAll g.parents
  members : ∀ t g, Entries.get? t r = some g → ∀ member e, Entries.get? member g.members = some e →
    (r.vocabulary hs).KnowsElement e

theorem Closed.nil (hs : s.Apart) : Closed hs [] where
  generated _ h := nomatch h
  parents _ _ h := nomatch h
  members _ _ h := nomatch h

/-! ### Questions about known names -/

/-- What holds of a type and is passed on to parents holds of all ancestors. -/
theorem forall_mem_ancestors {P : TypeName → Prop} (h : ∀ t, P t → ∀ p ∈ r.parents t, P p)
    {t : TypeName} (ht : P t) : ∀ u ∈ r.ancestors t, P u := by
  have hwithin (n : Nat) (found pending ancestors : List TypeName) (hfound : ∀ u ∈ found, P u)
      (hpending : ∀ u ∈ pending, P u)
      (heq : ancestorsWithin r t n found pending = some ancestors) : ∀ u ∈ ancestors, P u := by
    induction n generalizing found pending with
    | zero => cases heq
    | succ n ih =>
      cases pending with
      | nil =>
        cases heq
        exact hfound
      | cons p pending =>
        rw [List.forall_mem_cons] at hpending
        unfold ancestorsWithin at heq
        split at heq
        · exact ih found pending hfound hpending.2 heq
        · refine ih _ _ ?_ ?_ heq
          · exact List.forall_mem_append.2 ⟨hfound, by simpa using hpending.1⟩
          · exact List.forall_mem_append.2 ⟨h p hpending.1, hpending.2⟩
  exact hwithin _ [] _ _ (List.forall_mem_nil _) (h t ht)
    (ancestorsWithin_eq (Nat.lt_succ_self _) t)

namespace Closed

variable (h : r.Closed hs)
include h

theorem knows_parents {t p : TypeName} (hp : p ∈ r.parents t) : (r.vocabulary hs).Knows p := by
  cases hget : Entries.get? t r with
  | none => simp [Registry.parents, hget] at hp
  | some g =>
    rw [parents_of_get?_eq_some hget] at hp
    exact h.parents t g hget p hp

/-- What a lookup finds is known. -/
theorem knowsElement_of_mem_lookup {type : TypeName} {member : String} {e : Element}
    (he : e ∈ r.lookup s.index type member) : (r.vocabulary hs).KnowsElement e := by
  obtain ⟨u, -, hown⟩ := exists_own_of_lookup (List.ne_nil_of_mem he)
  rw [hown] at he
  cases hget : Entries.get? u r with
  | none =>
    rw [own_of_get?_eq_none hget] at he
    exact s.knowsElement_of_mem_elements covers_vocabulary (Index.mem_elements_of_members he)
  | some g =>
    rw [own_of_get?_eq_some hget] at he
    exact h.members u g hget member e (Option.mem_toList.1 he)

theorem knowsAll_visits {q : Inference.Question} (hq : q.Known (r.vocabulary hs)) :
    (r.vocabulary hs).KnowsAll (q.visits r) := by
  have hvisits {t : TypeName} (ht : (r.vocabulary hs).Knows t) :
      (r.vocabulary hs).KnowsAll (t :: r.ancestors t) :=
    List.forall_mem_cons.2 ⟨ht, forall_mem_ancestors (fun _ _ p hp => h.knows_parents hp) ht⟩
  cases q with
  | members type member => exact hvisits hq
  | ancestors type => exact hvisits hq
  | shows types member => exact knowsAll_flatMap.2 fun t ht => hvisits (hq t ht)

/-- A question about known names is ready. -/
theorem isReady {q : Inference.Question} (hq : q.Known (r.vocabulary hs)) :
    q.isReady s r = true := by
  refine List.all_eq_true.2 fun t ht => ?_
  rw [Bool.or_eq_true, Bool.not_eq_true']
  by_cases hgenerated : s.isGenerated t = true
  · obtain ⟨o, ho, rfl⟩ := s.isGenerated_iff.1 hgenerated
    exact .inr ((knows_type_iff ho).1 (h.knowsAll_visits hq _ ht))
  · exact .inl (Bool.eq_false_iff.2 hgenerated)

/-- Known questions have known answers. -/
theorem answerKnown {q : Inference.Question} (hq : q.Known (r.vocabulary hs)) :
    q.AnswerKnown (r.vocabulary hs) (q.answer s.index r) := by
  cases q with
  | members type member => exact fun e he => h.knowsElement_of_mem_lookup he
  | shows types member => trivial
  | ancestors type => exact fun t ht => h.knowsAll_visits hq t (List.mem_cons_of_mem _ ht)

/-! ### New types and members -/

/-- A new type may have known parents. -/
theorem register {o : Owner} (ho : o ∈ s.owners) {parents : List TypeName}
    (hparents : (r.vocabulary hs).KnowsAll parents) :
    (r.register (o.type s) parents).Closed hs := by
  have hle : r.vocabulary hs ≤ (r.register (o.type s) parents).vocabulary hs :=
    vocabulary_mono fun t ht => contains_register.2 (.inl ht)
  refine ⟨fun t ht => ?_, fun t g hg => ?_, fun t g hg member e he => ?_⟩
  · rcases contains_register.1 ht with ht | rfl
    · exact h.generated t ht
    · exact s.isGenerated_iff.2 ⟨o, ho, rfl⟩
  · rcases of_get?_register hg with hg | rfl
    · exact (h.parents t g hg).mono hle
    · exact hparents.mono hle
  · rcases of_get?_register hg with hg | rfl
    · exact KnowsAll.mono (h.members t g hg member e he) hle
    · cases he

/-- A new member may be any known element. -/
theorem addMember {type : TypeName} {member : String} {e : Element}
    (he : (r.vocabulary hs).KnowsElement e) : (r.addMember type member e).Closed hs := by
  have hle : r.vocabulary hs ≤ (r.addMember type member e).vocabulary hs :=
    vocabulary_mono fun t ht => by rwa [contains_addMember]
  refine ⟨fun t ht => ?_, fun t g hg => ?_, fun t g hg m x hx => ?_⟩
  · rw [contains_addMember] at ht
    exact h.generated t ht
  · obtain ⟨g₀, hg₀, hparents, -⟩ := of_get?_addMember hg
    rw [hparents]
    exact (h.parents t g₀ hg₀).mono hle
  · obtain ⟨g₀, hg₀, -, hmembers⟩ := of_get?_addMember hg
    rcases hmembers m x hx with hx | ⟨-, -, rfl⟩
    · exact KnowsAll.mono (h.members t g₀ hg₀ m x hx) hle
    · exact KnowsAll.mono he hle

end Closed

end Registry

end ScriptTypes
