import ScriptTypes.Proofs.Inference.Respects
import ScriptTypes.Proofs.TypeName.Words

/-!
# The words that inference knows

The names that inference handles are spelled with words from outside the script and with words that
its calls and questions brought up: it makes up no others. This module states it for programs. What
a call may bring up grows while inference runs, so the vocabulary of a program grows with each call.

Main statements: `speaks_nodeTypes`, `speaks_element` and `speaks_missing`.
-/

namespace ScriptTypes

open Script (NodeId)

/-! ### Names from outside -/

theorem Entries.mem_of_mem_getD {α : Type} {name : String} {entries : Entries (List α)} {a : α}
    (h : a ∈ (get? name entries).getD []) : ∃ as, (name, as) ∈ entries ∧ a ∈ as := by
  cases hget : get? name entries with
  | none => exact absurd h (by simp [hget])
  | some as =>
    rw [hget] at h
    obtain ⟨l₁, l₂, heq, -⟩ := List.lookup_eq_some_iff.1 hget
    exact ⟨as, by simp [heq], h⟩

/-- All type names that an element holds. -/
def Element.typeNames (e : Element) : List TypeName :=
  e.types ++ e.signature.elim [] fun g => g.parameters.flatMap Parameter.types ++ g.returns

namespace Index

/-- All globals and members. -/
def elements (index : Index) : List Element :=
  index.globals.flatMap Prod.snd ++ index.types.flatMap fun t => t.2.members.flatMap Prod.snd

variable {index : Index} {type : TypeName} {member : String} {e : Element}

theorem mem_elements_of_ownMembers (h : e ∈ index.ownMembers type member) :
    e ∈ index.elements := by
  obtain ⟨es, hmember, he⟩ := Entries.mem_of_mem_getD h
  cases htype : Entries.get? type index.types with
  | none =>
    have hnil : (index.record type).members = [] := by rw [record, htype]; rfl
    rw [hnil] at hmember
    cases hmember
  | some r =>
    rw [record, htype, Option.getD_some] at hmember
    obtain ⟨l₁, l₂, heq, -⟩ := List.lookup_eq_some_iff.1 htype
    refine List.mem_append_right _ (List.mem_flatMap.2 ⟨(type, r), by simp [heq], ?_⟩)
    exact List.mem_flatMap.2 ⟨(member, es), hmember, he⟩

theorem mem_elements_of_nearestMembers (h : e ∈ index.nearestMembers type member) :
    e ∈ index.elements := by
  unfold nearestMembers at h
  generalize type :: index.ancestors type = types at h
  cases hfind : (types.map fun t => index.ownMembers t member).find? (fun es => !es.isEmpty) with
  | none => exact absurd h (by rw [hfind]; exact List.not_mem_nil)
  | some es =>
    rw [hfind] at h
    obtain ⟨t, -, rfl⟩ := List.mem_map.1 (List.mem_of_find?_eq_some hfind)
    exact mem_elements_of_ownMembers h

theorem mem_elements_of_members (h : e ∈ index.members type member) : e ∈ index.elements := by
  unfold members orElse at h
  split at h
  · split at h
    · exact mem_elements_of_ownMembers h
    · exact mem_elements_of_nearestMembers h
  · exact mem_elements_of_nearestMembers h

theorem mem_elements_of_globalsFor {file name : String} (h : e ∈ index.globalsFor file name) :
    e ∈ index.elements := by
  unfold globalsFor at h
  simp only [List.partition_eq_filter_filter, List.mem_append, List.mem_filter] at h
  obtain ⟨es, hglobals, he⟩ := Entries.mem_of_mem_getD (h.elim And.left And.left)
  exact List.mem_append_left _ (List.mem_flatMap.2 ⟨(name, es), hglobals, he⟩)

end Index

namespace Doc

/-- All type names of a tag. -/
def Tag.typeNames : Tag → List TypeName
  | .param _ types _ _ | .result types _ | .type types _ => types
  | .other _ _ => []

/-- All type names of a documentation comment. -/
def Block.typeNames (b : Block) : List TypeName := b.tags.flatMap Tag.typeNames

theorem Block.mem_typeNames_of_paramAt? {b : Block} {position : Nat} {p : Param} {t : TypeName}
    (h : b.paramAt? position = some p) (ht : t ∈ p.types) : t ∈ b.typeNames := by
  obtain ⟨tag, htag, hparam⟩ := List.mem_filterMap.1 (List.mem_of_getElem? h)
  refine List.mem_flatMap.2 ⟨tag, htag, ?_⟩
  cases tag with
  | param name types usage text =>
    cases hparam
    exact ht
  | result types text => cases hparam
  | type types text => cases hparam
  | other name text => cases hparam

theorem Block.mem_typeNames_of_resultTypes {b : Block} {t : TypeName} (h : t ∈ b.resultTypes) :
    t ∈ b.typeNames := by
  obtain ⟨tag, htag, ht⟩ := List.mem_flatMap.1 h
  refine List.mem_flatMap.2 ⟨tag, htag, ?_⟩
  cases tag with
  | result types text => exact ht
  | param name types usage text => cases ht
  | type types text => cases ht
  | other name text => cases ht

theorem Block.mem_typeNames_of_declaredTypes {b : Block} {t : TypeName}
    (h : t ∈ b.declaredTypes) : t ∈ b.typeNames := by
  obtain ⟨tag, htag, ht⟩ := List.mem_flatMap.1 h
  refine List.mem_flatMap.2 ⟨tag, htag, ?_⟩
  cases tag with
  | type types text => exact ht
  | param name types usage text => cases ht
  | result types text => cases ht
  | other name text => cases ht

end Doc

/-- The type names that do not come from the script's own code: those of the index, of the modules
it knows, of the renaming, and of the script's documentation. -/
def Setting.foreignNames (s : Setting) : List TypeName :=
  s.index.elements.flatMap Element.typeNames ++ s.index.modules.map (·.1 ++ ".exports")
    ++ s.renames.entries.map Prod.snd
    ++ s.module.nodes.flatMap fun n => (s.module.docs? n).elim [] Doc.Block.typeNames

namespace TypeName.Vocabulary

variable {V V' : Vocabulary}

instance : Preorder Vocabulary where
  le V V' := ∀ w, V.Word w → V'.Word w
  le_refl _ _ := id
  le_trans _ _ _ h h' w := h' w ∘ h w

/-! ### Known names -/

/-- A name is spelled with words of the vocabulary. -/
def Knows (V : Vocabulary) (t : TypeName) : Prop := V.Spells t.toList

theorem Knows.mono {t : TypeName} (h : V.Knows t) (hle : V ≤ V') : V'.Knows t :=
  fun w hw => hle w (h w hw)

theorem knows_of_not_mem {t : TypeName} (h : '$' ∉ t.toList) : V.Knows t := spells_of_not_mem h

/-- All of some names are known. -/
def KnowsAll (V : Vocabulary) (ts : List TypeName) : Prop := ∀ t ∈ ts, V.Knows t

theorem KnowsAll.mono {ts : List TypeName} (h : V.KnowsAll ts) (hle : V ≤ V') : V'.KnowsAll ts :=
  fun t ht => (h t ht).mono hle

theorem knowsAll_singleton {t : TypeName} : V.KnowsAll [t] ↔ V.Knows t := by simp [KnowsAll]

theorem knowsAll_append {ts us : List TypeName} :
    V.KnowsAll (ts ++ us) ↔ V.KnowsAll ts ∧ V.KnowsAll us := by
  simp [KnowsAll, or_imp, forall_and]

theorem knowsAll_flatMap {α : Type} {xs : List α} {f : α → List TypeName} :
    V.KnowsAll (xs.flatMap f) ↔ ∀ x ∈ xs, V.KnowsAll (f x) := by
  simp only [KnowsAll, List.mem_flatMap, forall_exists_index, and_imp]
  exact ⟨fun h x hx t ht => h t x hx ht, fun h t x hx ht => h x hx t ht⟩

theorem knowsAll_map {α : Type} {xs : List α} {f : α → TypeName} :
    V.KnowsAll (xs.map f) ↔ ∀ x ∈ xs, V.Knows (f x) := by
  simp [KnowsAll]

theorem KnowsAll.spells_chars {ts : List TypeName} (h : V.KnowsAll ts) :
    ∀ cs ∈ chars ts, V.Spells cs := by
  simpa [chars, KnowsAll, Knows] using h

theorem knows_ofList {cs : List Char} : V.Knows (String.ofList cs) ↔ V.Spells cs := by
  rw [Knows, String.toList_ofList]

theorem Knows.canonical {raw t : TypeName} (h : V.Knows raw) (ht : canonicalTypeName? raw = some t) :
    V.Knows t := by
  obtain ⟨cs, hcs, rfl⟩ := Option.map_eq_some_iff.1 ht
  exact knows_ofList.2 (keeps_canonicalize _ _ (spells_compact.2 h) hcs)

theorem KnowsAll.typeList {raws : List TypeName} (h : V.KnowsAll raws) :
    V.KnowsAll (TypeList.ofList raws).names := by
  have hextend (list : TypeList) (hlist : V.KnowsAll list.names) :
      V.KnowsAll (list.extend raws).names := by
    induction raws generalizing list with
    | nil => exact hlist
    | cons raw raws ih =>
      rw [KnowsAll, List.forall_mem_cons] at h
      refine ih h.2 (list.add raw) ?_
      unfold TypeList.add
      split
      · exact hlist
      · rename_i t ht
        split
        · exact hlist
        · exact knowsAll_append.2 ⟨hlist, knowsAll_singleton.2 (h.1.canonical ht)⟩
  exact hextend _ (fun t ht => nomatch ht)

theorem Knows.arrayTypeOf {t : TypeName} (h : V.Knows t) : V.Knows (arrayTypeOf t) :=
  knows_ofList.2 (spells_arrayOf.2 h)

theorem KnowsAll.functionType {ts : List TypeName} (h : V.KnowsAll ts) :
    V.Knows (functionType ts) :=
  knows_ofList.2 (spells_functionOf h.spells_chars)

theorem KnowsAll.unionType {ts : List TypeName} (h : V.KnowsAll ts) : V.Knows (unionType ts) :=
  knows_ofList.2 (spells_union.2 h.spells_chars)

theorem KnowsAll.functionSignatureType {params returns : List TypeName} (hparams : V.KnowsAll params)
    (hreturns : V.KnowsAll returns) : V.Knows (functionSignatureType params returns) :=
  knows_ofList.2 (spells_signature (spells_of_not_mem (by decide)) hparams.spells_chars
    hreturns.spells_chars)

theorem Knows.argument {t e : TypeName} {base : List Char} (h : V.Knows t)
    (he : ((TypeName.genericArgument? base t.toList).map TypeName.ungroup).map String.ofList = some e) :
    V.Knows e := by
  obtain ⟨cs, hcs, rfl⟩ := Option.map_eq_some_iff.1 he
  obtain ⟨arg, harg, rfl⟩ := Option.map_eq_some_iff.1 hcs
  exact knows_ofList.2 (h.genericArgument harg).ungroup

theorem Knows.elementType {t e : TypeName} (h : V.Knows t) (he : elementType? t = some e) :
    V.Knows e :=
  h.argument he

theorem Knows.classBaseType {t e : TypeName} (h : V.Knows t) (he : classBaseType? t = some e) :
    V.Knows e :=
  h.argument he

theorem Knows.functionReturnTypes {t : TypeName} (h : V.Knows t) :
    V.KnowsAll (functionReturnTypes t) :=
  knowsAll_map.2 fun cs hcs => knows_ofList.2 (h.returnTypes cs hcs)

/-! ### Known elements -/

/-- All names in an element are known. -/
def KnowsElement (V : Vocabulary) (e : Element) : Prop := V.KnowsAll e.typeNames

theorem KnowsElement.types {e : Element} (h : V.KnowsElement e) : V.KnowsAll e.types :=
  (knowsAll_append.1 h).1

theorem KnowsElement.referenceTypes {e : Element} (h : V.KnowsElement e) :
    V.KnowsAll e.referenceTypes := by
  obtain ⟨htypes, hsignature⟩ := knowsAll_append.1 h
  unfold Element.referenceTypes
  cases hg : e.signature with
  | none => exact htypes
  | some g =>
    rw [hg, Option.elim_some, knowsAll_append, knowsAll_flatMap] at hsignature
    refine List.forall_mem_cons.2 ⟨KnowsAll.functionSignatureType ?_ hsignature.2, ?_⟩
    · refine knowsAll_map.2 fun p hp => ?_
      unfold Parameter.slot
      split
      · exact knows_of_not_mem (by decide)
      · exact KnowsAll.unionType (hsignature.1 p hp)
    · exact fun t ht => htypes t (List.mem_of_mem_filter ht)

/-- The names from outside are known. -/
def Covers (V : Vocabulary) (s : Setting) : Prop := V.KnowsAll s.foreignNames

end TypeName.Vocabulary

open TypeName.Vocabulary

namespace Setting

variable {s : Setting} {V : TypeName.Vocabulary}

theorem knowsElement_of_mem_elements (hV : V.Covers s) {e : Element} (h : e ∈ s.index.elements) :
    V.KnowsElement e := by
  have hnames := (knowsAll_append.1 (knowsAll_append.1 (knowsAll_append.1 hV).1).1).1
  exact knowsAll_flatMap.1 hnames e h

theorem knowsAll_docs (hV : V.Covers s) {n : NodeId} {b : Doc.Block}
    (h : s.module.docs? n = some b) : V.KnowsAll b.typeNames := by
  have hlt : n < s.module.size := by
    by_contra hle
    have hnone : s.module.entries[n]? = none := by simpa [Script.Module.size] using hle
    simp [Script.Module.docs?, Script.Module.form, hnone] at h
  have hdocs := knowsAll_flatMap.1 (knowsAll_append.1 hV).2 n (List.mem_range.2 hlt)
  rwa [h] at hdocs

theorem knows_apply (hV : V.Covers s) {t : TypeName} (h : V.Knows t) :
    V.Knows (s.renames.apply t) := by
  unfold TypeRenaming.apply
  cases hlookup : s.renames.entries.lookup t with
  | none => exact h
  | some t' =>
    obtain ⟨l₁, l₂, heq, -⟩ := List.lookup_eq_some_iff.1 hlookup
    have hrenames := (knowsAll_append.1 (knowsAll_append.1 hV).1).2
    exact hrenames t' (List.mem_map.2 ⟨(t, t'), by simp [heq], rfl⟩)

theorem knowsAll_globals (hV : V.Covers s) (name : String) :
    V.KnowsAll ((s.globals name).flatMap Element.referenceTypes) := by
  refine knowsAll_flatMap.2 fun e he => ?_
  exact (knowsElement_of_mem_elements hV (Index.mem_elements_of_globalsFor he)).referenceTypes

theorem knowsAll_parameterTypes (hV : V.Covers s) {docs : Option Doc.Block}
    (hdocs : ∀ b ∈ docs, V.KnowsAll b.typeNames) (position : Nat) (name : String) :
    V.KnowsAll (s.parameterTypes docs position name) := by
  have hdocumented : V.KnowsAll (s.documentedTypes docs position name) := by
    unfold documentedTypes
    split
    · rename_i p hp
      obtain ⟨b, hb, hp⟩ := Option.bind_eq_some_iff.1 hp
      split
      · refine knowsAll_map.2 fun t ht => knows_apply hV ?_
        exact hdocs b hb t (Doc.Block.mem_typeNames_of_paramAt? hp ht)
      · exact fun t ht => nomatch ht
    · exact fun t ht => nomatch ht
  unfold parameterTypes
  split
  · exact knowsAll_singleton.2 (knows_of_not_mem (by decide))
  · exact hdocumented

theorem knowsAll_parameterNodeTypes (hV : V.Covers s) (n params : NodeId) (name : String) :
    V.KnowsAll (s.parameterNodeTypes n params name) := by
  refine knowsAll_parameterTypes hV (fun b hb => ?_) _ _
  obtain ⟨f, -, hf⟩ := Option.bind_eq_some_iff.1 hb
  exact knowsAll_docs hV hf

theorem knowsAll_declaredTypes (hV : V.Covers s) (v : NodeId) :
    V.KnowsAll (s.declaredTypes v) := by
  unfold declaredTypes
  split
  · rename_i p _
    split
    · rename_i docs _ hform
      have hdocs : s.module.docs? p = some docs := by simp [Script.Module.docs?, hform]
      exact fun t ht => knowsAll_docs hV hdocs t (Doc.Block.mem_typeNames_of_declaredTypes ht)
    · exact fun t ht => nomatch ht
  · exact fun t ht => nomatch ht

theorem knows_documentedFunction (hV : V.Covers s) {v : NodeId} {t : TypeName}
    (h : s.documentedFunction? v = some t) : V.Knows t := by
  unfold documentedFunction? at h
  split at h
  · rename_i docs _ _ hform
    have hdocs : s.module.docs? v = some docs := by simp [Script.Module.docs?, hform]
    split at h
    · cases h
      refine KnowsAll.functionType fun t ht => ?_
      exact knowsAll_docs hV hdocs t (Doc.Block.mem_typeNames_of_resultTypes ht)
    · cases h
  · cases h

theorem knowsAll_requiredTypes (hV : V.Covers s) (callee : NodeId) (args : List NodeId) :
    V.KnowsAll (s.requiredTypes callee args) := by
  intro t ht
  obtain ⟨id, -, hid⟩ := List.mem_filterMap.1 ht
  obtain ⟨path, -, hpath⟩ := Option.bind_eq_some_iff.1 hid
  obtain ⟨word, hword, rfl⟩ := Option.map_eq_some_iff.1 hpath
  have hmodules := (knowsAll_append.1 (knowsAll_append.1 (knowsAll_append.1 hV).1).1).2
  exact knowsAll_map.1 hmodules word (List.mem_of_find?_eq_some hword)

theorem knows_receiverType (hV : V.Covers s) (object : NodeId) {t : TypeName} (h : V.Knows t) :
    V.Knows (s.receiverType object t) := by
  have hrenamed := knows_apply hV h
  unfold receiverType
  split
  · dsimp only
    split
    · exact knows_of_not_mem (by decide)
    · exact hrenamed
  · exact hrenamed

theorem knowsElement_signature (hV : V.Covers s) (values : List NodeId) {types : TypeList}
    (h : V.KnowsAll types.names) (name : String) (owner : TypeName) :
    V.KnowsElement
      { name, owner, types := types.names, signature := s.signature? values types } := by
  refine knowsAll_append.2 ⟨h, ?_⟩
  simp only
  unfold signature?
  split
  · rename_i first rest
    split
    · rename_i docs params body hform
      rw [Option.elim_some, knowsAll_append]
      constructor
      · refine knowsAll_flatMap.2 fun p hp => ?_
        unfold parameters at hp
        split at hp
        · obtain ⟨item, -, hitem⟩ := List.mem_filterMap.1 hp
          obtain ⟨word, -, rfl⟩ := Option.map_eq_some_iff.1 hitem
          refine knowsAll_parameterTypes hV (fun b hb => ?_) _ _
          exact knowsAll_docs hV (n := first) (by simp [Script.Module.docs?, hform, Option.mem_def.1 hb])
        · cases hp
      · refine KnowsAll.typeList (knowsAll_flatMap.2 fun t ht => ?_)
        exact (h t (List.mem_of_mem_filter ht)).functionReturnTypes
    · exact fun t ht => nomatch ht
  · exact fun t ht => nomatch ht

end Setting

/-! ### Programs that know what they talk about -/

/-- The names in an answer are known. -/
def Call.Known (V : TypeName.Vocabulary) : (b : Call) → b.Answer → Prop
  | .node _ _, types => V.KnowsAll types
  | .owner _, e => V.KnowsElement e

namespace Inference

variable {s : Setting} {a : Call} {V : TypeName.Vocabulary}

namespace Question

/-- The names in a question are known. -/
def Known (V : TypeName.Vocabulary) : Question → Prop
  | members type _ | ancestors type => V.Knows type
  | shows types _ => V.KnowsAll types

/-- The names in the answer to a question are known. -/
def AnswerKnown (V : TypeName.Vocabulary) : (q : Question) → q.Answer → Prop
  | members _ _, (es : List Element) => ∀ e ∈ es, V.KnowsElement e
  | shows _ _, _ => True
  | ancestors _, types => V.KnowsAll types

end Question

namespace Program

variable {α β : Type} {Q : TypeName.Vocabulary → α → Prop} {Q' : TypeName.Vocabulary → β → Prop}

/-- A program asks about known names only and ends as stated, if the answers it gets are known.
Each call may leave a larger vocabulary. -/
def Speaks (Q : TypeName.Vocabulary → α → Prop) : Program s a α → TypeName.Vocabulary → Prop
  | done x, V => Q V x
  | call b _ rest, V => ∀ V', V ≤ V' → ∀ y, b.Known V' y → (rest y).Speaks Q V'
  | ask q rest, V => q.Known V ∧ ∀ y, q.AnswerKnown V y → (rest y).Speaks Q V

theorem Speaks.weaken {p : Program s a α} (h : p.Speaks Q V) :
    p.Speaks (fun _ _ => True) V := by
  induction p generalizing V with
  | done x => trivial
  | call b hb rest ih => exact fun V' hle y hy => ih y (h V' hle y hy)
  | ask q rest ih => exact ⟨h.1, fun y hy => ih y (h.2 y hy)⟩

theorem Speaks.bind {p : Program s a α} {f : α → Program s a β} (h : p.Speaks Q V)
    (hf : ∀ V', V ≤ V' → ∀ x, Q V' x → (f x).Speaks Q' V') : (p >>= f).Speaks Q' V := by
  induction p generalizing V with
  | done x => exact hf V le_rfl x h
  | call b hb rest ih =>
    intro V₁ hle y hy
    exact ih y (h V₁ hle y hy) fun V₂ hle' => hf V₂ (hle.trans hle')
  | ask q rest ih => exact ⟨h.1, fun y hy => ih y (h.2 y hy) hf⟩

theorem speaks_answerOf {b : Call} {hb : b ∈ s.callees a} :
    (answerOf b hb : Program s a b.Answer).Speaks (fun V => b.Known V) V :=
  fun _ _ _ hy => hy

theorem speaks_answerTo {q : Question} (h : q.Known V) :
    (answerTo q : Program s a q.Answer).Speaks (fun V => q.AnswerKnown V) V :=
  ⟨h, fun _ hy => hy⟩

/-- Results that stay known are gathered one after the other. -/
theorem speaks_gather {K : TypeName.Vocabulary → β → Prop}
    (hK : ∀ V V' y, V ≤ V' → K V y → K V' y) {xs : List α} {f : α → Program s a (List β)}
    (h : ∀ x ∈ xs, ∀ V', V ≤ V' → (f x).Speaks (fun V ys => ∀ y ∈ ys, K V y) V') :
    (gather xs f).Speaks (fun V ys => ∀ y ∈ ys, K V y) V := by
  induction xs generalizing V with
  | nil => exact fun y hy => nomatch hy
  | cons x xs ih =>
    rw [List.forall_mem_cons] at h
    refine Speaks.bind (h.1 V le_rfl) fun V₁ hle₁ ys hys => ?_
    have hrest := ih fun x hx V' hle => h.2 x hx V' (hle₁.trans hle)
    refine Speaks.bind hrest fun V₂ hle₂ rest hrest => ?_
    intro y hy
    rcases List.mem_append.1 hy with hy | hy
    · exact hK V₁ V₂ y hle₂ (hys y hy)
    · exact hrest y hy

theorem speaks_gather_types {xs : List α} {f : α → Program s a (List TypeName)}
    (h : ∀ x ∈ xs, ∀ V', V ≤ V' → (f x).Speaks (fun V => V.KnowsAll) V') :
    (gather xs f).Speaks (fun V => V.KnowsAll) V :=
  speaks_gather (fun _ _ _ hle h => h.mono hle) h

theorem speaks_anyOf {xs : List α} {f : α → Program s a Bool}
    (h : ∀ x ∈ xs, ∀ V', V ≤ V' → (f x).Speaks (fun _ _ => True) V') :
    (anyOf xs f).Speaks (fun _ _ => True) V := by
  induction xs generalizing V with
  | nil => trivial
  | cons x xs ih =>
    rw [List.forall_mem_cons] at h
    refine Speaks.bind (h.1 V le_rfl) fun V₁ hle found _ => ?_
    cases found with
    | true => trivial
    | false => exact ih fun x hx V' hle' => h.2 x hx V' (hle.trans hle')

end Program

open Program

section Nodes

variable {scope : ScopeId} {n : NodeId}

theorem speaks_partTypes : (partTypes s scope n).Speaks (fun V => V.KnowsAll) V :=
  speaks_gather_types fun _ _ _ _ => speaks_answerOf

theorem speaks_anyString : (anyString s scope n).Speaks (fun _ _ => True) V :=
  speaks_anyOf fun _ _ _ _ => Speaks.bind speaks_answerOf fun _ _ _ _ => trivial

theorem knowsAll_undeclaredTypes (hV : V.Covers s) (name : String) :
    V.KnowsAll (undeclaredTypes s scope n name) := by
  unfold undeclaredTypes
  dsimp only
  split
  · split
    · exact Setting.knowsAll_parameterNodeTypes hV _ _ _
    · exact Setting.knowsAll_globals hV name
  · exact Setting.knowsAll_globals hV name

/-- A list of one name without a dollar sign is known. -/
theorem knowsAll_common {t : TypeName} (h : '$' ∉ t.toList) : V.KnowsAll [t] :=
  knowsAll_singleton.2 (knows_of_not_mem h)

theorem knowsAll_nil : V.KnowsAll [] := fun _ h => nomatch h

theorem knowsAll_literalType (value : Script.Literal) : V.KnowsAll [literalType value] := by
  refine knowsAll_common ?_
  cases value with
  | string _ => exact (by decide : '$' ∉ Primitive.string.name.toList)
  | number _ => exact (by decide : '$' ∉ Primitive.number.name.toList)
  | boolean _ => exact (by decide : '$' ∉ Primitive.boolean.name.toList)
  | regex _ => exact (by decide : '$' ∉ Primitive.regExp.name.toList)

theorem knowsAll_unaryTypes (op : Script.UnaryOp) : V.KnowsAll (unaryTypes op) := by
  cases op
  case void => exact knowsAll_nil
  all_goals exact knowsAll_common (by decide)

/-- The parts of a node give the types that it is made from. -/
theorem Speaks.of_partTypes {α : Type} {Q : TypeName.Vocabulary → α → Prop}
    {f : List TypeName → Program s (.node scope n) α} (hV : V.Covers s)
    (h : ∀ V : TypeName.Vocabulary, V.Covers s → ∀ types, V.KnowsAll types → (f types).Speaks Q V) :
    (partTypes s scope n >>= f).Speaks Q V :=
  Speaks.bind speaks_partTypes fun V' hle types htypes => h V' (hV.mono hle) types htypes

theorem speaks_formTypes (hV : V.Covers s) :
    (formTypes s scope n).Speaks (fun V => V.KnowsAll) V := by
  unfold formTypes
  split
  case h_1 name _ => exact knowsAll_undeclaredTypes hV name
  case h_2 value _ => exact knowsAll_literalType value
  case h_3 => exact knowsAll_common (by decide)
  case h_4 =>
    refine Speaks.of_partTypes hV fun V hV types htypes => ?_
    exact knowsAll_map.2 fun t ht => (htypes.typeList t ht).arrayTypeOf
  case h_5 => exact knowsAll_common (by decide)
  case h_6 =>
    refine Speaks.of_partTypes hV fun V hV types htypes => ?_
    refine knowsAll_singleton.2 (KnowsAll.functionType ?_)
    split
    · exact knowsAll_common (by decide)
    · exact htypes.typeList
  case h_7 =>
    split
    · exact knowsAll_common (by decide)
    · refine Speaks.bind speaks_anyString fun V' _ found _ => ?_
      cases found <;> exact knowsAll_common (by decide)
  case h_8 => exact knowsAll_common (by decide)
  case h_9 => exact speaks_partTypes
  case h_10 => exact speaks_partTypes
  case h_11 => exact knowsAll_common (by decide)
  case h_12 => exact speaks_partTypes
  case h_13 =>
    refine Speaks.bind speaks_anyString fun V' _ found _ => ?_
    cases found <;> exact knowsAll_common (by decide)
  case h_14 => exact knowsAll_common (by decide)
  case h_15 => exact speaks_partTypes
  case h_16 =>
    refine Speaks.of_partTypes hV fun V hV types htypes => ?_
    refine speaks_gather_types fun t ht V' hle => ?_
    have hknown := (htypes.typeList t ht).mono hle
    refine Speaks.bind (speaks_answerTo ?_) fun V'' _ members hmembers => ?_
    · show V'.Knows ((TypeName.classBaseType? t).getD t)
      cases hbase : TypeName.classBaseType? t with
      | none => exact hknown
      | some base => exact hknown.classBaseType hbase
    · exact knowsAll_flatMap.2 fun e he => (hmembers e he).types
  case h_17 callee args _ =>
    refine Speaks.of_partTypes hV fun V hV types htypes => ?_
    have hunknown : V.KnowsAll (if (TypeList.ofList types).isEmpty && s.needsObject n
        then [TypeName.objectType] else []) := by
      split
      · exact knowsAll_common (by decide)
      · exact knowsAll_nil
    refine Speaks.bind (Q := fun V => V.KnowsAll) (speaks_gather_types fun t ht V' hle => ?_)
      fun V' hle returned hreturned => ?_
    · have hknown := (htypes.typeList t ht).mono hle
      split
      · exact hknown.functionReturnTypes
      · refine Speaks.bind (speaks_answerTo (show V'.Knows t from hknown))
          fun V'' _ ancestors hancestors => ?_
        refine knowsAll_flatMap.2 fun u hu => ?_
        exact (hancestors u (List.mem_of_mem_filter hu)).functionReturnTypes
    · refine knowsAll_append.2 ⟨knowsAll_append.2 ⟨?_, hunknown.mono hle⟩, hreturned⟩
      exact Setting.knowsAll_requiredTypes (hV.mono hle) callee args
  case h_18 object property _ =>
    refine Speaks.of_partTypes hV fun V hV types htypes => ?_
    refine speaks_gather_types fun t ht V' hle => ?_
    have hknown := Setting.knows_receiverType (hV.mono hle) object ((htypes.typeList t ht).mono hle)
    refine Speaks.bind (speaks_answerTo hknown) fun V'' _ members hmembers => ?_
    exact knowsAll_flatMap.2 fun e he => (hmembers e he).referenceTypes
  case h_19 =>
    refine Speaks.of_partTypes hV fun V hV types htypes => ?_
    refine knowsAll_map.2 fun t ht => ?_
    cases helement : TypeName.elementType? t with
    | none => exact knows_of_not_mem (by decide)
    | some e => exact (htypes.typeList t ht).elementType helement
  case h_20 => exact speaks_partTypes
  case h_21 op _ _ => exact knowsAll_unaryTypes op
  case h_22 => exact knowsAll_common (by decide)
  case h_23 => exact knowsAll_nil

/-- The types of a node are known. -/
theorem speaks_nodeTypes (hV : V.Covers s) :
    (nodeTypes s scope n).Speaks (fun V => V.KnowsAll) V := by
  unfold nodeTypes
  split
  · exact Speaks.bind speaks_answerOf fun V' _ e he => KnowsElement.referenceTypes he
  · exact speaks_formTypes hV

end Nodes

section Owners

variable {o : Owner}

/-- What the values of an owner say about it is known. -/
theorem speaks_element (hV : V.Covers s) :
    (element s o).Speaks (fun V => V.KnowsElement) V := by
  unfold element
  refine Speaks.bind (Q := fun V => V.KnowsAll) (speaks_gather_types fun v _ V' hle => ?_)
    fun V' hle types htypes => ?_
  · have hdeclared := Setting.knowsAll_declaredTypes (hV.mono hle) v.1
    dsimp only
    split
    · rename_i function hfunction
      refine knowsAll_append.2 ⟨hdeclared, knowsAll_singleton.2 ?_⟩
      exact Setting.knows_documentedFunction (hV.mono hle) hfunction
    · refine Speaks.bind speaks_answerOf fun V'' hle' types htypes => ?_
      exact knowsAll_append.2 ⟨hdeclared.mono hle', KnowsAll.typeList htypes⟩
  · exact Setting.knowsElement_signature (hV.mono hle) _ (htypes.typeList) _ _

/-- The search for missing properties asks about the types that it is given. -/
theorem speaks_missing {types : List TypeName} (h : V.KnowsAll types) :
    (missing s o types).Speaks (fun _ _ => True) V := by
  refine Speaks.weaken (speaks_gather (K := fun _ _ => True) (fun _ _ _ _ => id) ?_)
  intro p _ V' hle
  dsimp only
  split
  · exact fun _ _ => trivial
  · exact Speaks.bind (speaks_answerTo (h.mono hle)) fun _ _ _ _ _ _ => trivial

end Owners

end Inference

end ScriptTypes
