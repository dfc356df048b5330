import ScriptTypes.Proofs.Inference.Declared
import ScriptTypes.Proofs.Script.Attached
import ScriptTypes.Proofs.TypeName.Slots

/-!
# Types of parameters

A parameter is met in two places. Inside of its function it is a name, whose types are found by
going from the name up to the function and back to the tag at its position. In the signature of the
function it is a slot, one for each name in the list of parameters. Both have the same types: those
of the tag at that position, if it is for that name, renamed, else any object.

The signature is a text, and read back from its canonical form the slots are what they were as long
as the text of the return types does not end in the array suffix.
-/

namespace ScriptTypes

open Script (Module NodeId)

/-! ### Where a parameter stands -/

namespace Script.Module.WellFormed

variable {m : Module} (h : m.WellFormed) {f params body : NodeId} {fname : Option String}
  {docs : Option Doc.Block} (hf : m.form f = .function fname docs params body)
  {items : List NodeId} (hitems : m.form params = .parameters items)

include h hf in
theorem parent?_parameters : m.parent? params = some f := by
  have hpart : (m.form f).parts[0]? = some (.parameters, params) := by
    rw [hf]
    rfl
  exact h.parent?_of_part hpart

include h hitems in
theorem parameter_position {i : Nat} {x : NodeId} (hx : items[i]? = some x) :
    m.parent? x = some params ∧ m.childIndex? x = some i := by
  have hpart : (m.form params).parts[i]? = some (.name, x) := by
    rw [hitems, Form.parts, List.getElem?_map, hx, Option.map_some]
  exact ⟨h.parent?_of_part hpart, h.childIndex?_of_part hpart⟩

include h hf hitems in
/-- A function's scope declares its parameters. -/
theorem declares_parameter {x : NodeId} (hx : x ∈ items) {name : String}
    (hname : m.form x = .identifier name) : m.declares (some f) name = true := by
  have hchild : x ∈ m.children params := by
    rw [Module.children, hitems]
    exact hx
  have hparent : m.parent? x = some params := (parent?_eq_some_iff h.children).2 hchild
  have hparams : params ∈ m.children f := mem_children_of_parent? (h.parent?_parameters hf)
  have haround : m.functionAround? x = some f := by
    rw [h.functionAround?_of_mem_children hchild, h.functionAround?_of_mem_children hparams]
    simp [isFunction, hitems, hf]
  have hdeclaration : m.declaration? x = some (name, some x) := by
    rw [declaration?, hname]
    exact if_pos (isParameter_iff.2 ⟨params, items, hparent, hitems⟩)
  refine List.any_eq_true.2 ⟨(name, some x), List.mem_filterMap.2 ⟨x, ?_, ?_⟩, beq_self_eq_true _⟩
  · exact mem_preorder_iff.2 (h.under_root (h.lt_size_of_mem_children hchild))
  · rw [if_pos haround, hdeclaration]

include h hf hitems in
theorem hasSymbol_parameter {program : List NodeId} (hroot : m.form m.root = .program program)
    {x : NodeId} (hx : x ∈ items) {name : String} (hname : m.form x = .identifier name) :
    (Scopes.ofModule m).hasSymbol ((Scopes.ofModule m).idOf (some f)) name = true := by
  have hg : some f ∈ (Scopes.ofModule m).functions :=
    (h.some_mem_functions hroot).2 (by simp [isFunction, hf])
  have hcontains := (h.contains_symbols_iff hroot hg name).2
    (.inl (h.declares_parameter hf hitems hx hname))
  obtain ⟨c, hc⟩ := Option.isSome_iff_exists.1 hcontains
  rw [Scopes.hasSymbol, h.symbol?_idOf hroot hg hc]
  rfl

end Script.Module.WellFormed

/-! ### Documented types -/

namespace Setting

variable {s : Setting}

theorem parameterTypes_ne_nil (docs : Option Doc.Block) (i : Nat) (name : String) :
    s.parameterTypes docs i name ≠ [] := by
  unfold parameterTypes
  split
  · exact List.cons_ne_nil _ _
  · assumption

/-- Renaming leads from encoded types to encoded types. -/
theorem encoding_apply {renames : TypeRenaming}
    (hrenames : ∀ e ∈ renames.entries, TypeName.Encoding e.2) {t : TypeName}
    (ht : TypeName.Encoding t) : TypeName.Encoding (renames.apply t) := by
  unfold TypeRenaming.apply
  cases hlookup : renames.entries.lookup t with
  | none => exact ht
  | some d =>
    obtain ⟨l, r, hentries, -⟩ := List.lookup_eq_some_iff.1 hlookup
    exact hrenames (t, d) (by rw [hentries]; simp)

theorem encoding_parameterTypes {docs : Option Doc.Block}
    (hdocs : ∀ block ∈ docs, ∀ p ∈ block.params, ∀ t ∈ p.types, TypeName.Encoding t)
    (hrenames : ∀ e ∈ s.renames.entries, TypeName.Encoding e.2) (i : Nat) (name : String) :
    ∀ t ∈ s.parameterTypes docs i name, TypeName.Encoding t := by
  have hdocumented : ∀ t ∈ s.documentedTypes docs i name, TypeName.Encoding t := by
    intro t ht
    unfold documentedTypes at ht
    split at ht
    · rename_i p hp
      obtain ⟨block, hblock, hparam⟩ := Option.bind_eq_some_iff.1 hp
      split at ht
      · obtain ⟨t, htypes, rfl⟩ := List.mem_map.1 ht
        have hmem : p ∈ block.params := List.mem_of_getElem? hparam
        exact encoding_apply hrenames (hdocs block hblock p hmem t htypes)
      · cases ht
    · cases ht
  intro t ht
  unfold parameterTypes at ht
  split at ht
  · rw [List.mem_singleton.1 ht]
    exact .atom (by decide)
  · exact hdocumented t ht

section Places

variable {f params body : NodeId} {fname : Option String} {docs : Option Doc.Block}
  {items : List NodeId}

/-- A name among the parameters has the types of its position. -/
theorem parameterNodeTypes_eq (h : s.module.WellFormed)
    (hf : s.module.form f = .function fname docs params body)
    (hitems : s.module.form params = .parameters items) {i : Nat} {x : NodeId}
    (hx : items[i]? = some x) (name : String) :
    s.parameterNodeTypes x params name = s.parameterTypes docs i name := by
  rw [parameterNodeTypes, h.parent?_parameters hf, (h.parameter_position hitems hx).2]
  simp [Module.docs?, hf]

theorem parameters_eq (hitems : s.module.form params = .parameters items)
    (hnames : ∀ x ∈ items, ∃ name, s.module.form x = .identifier name) :
    s.parameters params docs = items.zipIdx.map fun (x, i) =>
      let name := (s.module.identifier? x).getD ""
      ⟨name, s.parameterTypes docs i name⟩ := by
  rw [parameters, hitems]
  refine List.filterMap_eq_map_iff_forall_eq_some.2 ?_
  rintro ⟨x, i⟩ hx
  obtain ⟨name, hname⟩ := hnames x (List.fst_mem_of_mem_zipIdx hx)
  simp [Module.identifier?, hname]

theorem getElem?_parameters (hitems : s.module.form params = .parameters items)
    (hnames : ∀ x ∈ items, ∃ name, s.module.form x = .identifier name) {i : Nat} {x : NodeId}
    (hx : items[i]? = some x) {name : String} (hname : s.module.form x = .identifier name) :
    (s.parameters params docs)[i]? = some ⟨name, s.parameterTypes docs i name⟩ := by
  rw [parameters_eq hitems hnames, List.getElem?_map, List.getElem?_zipIdx, hx]
  simp [Module.identifier?, hname]

/-- The signature of what has a function as its first value. -/
theorem signature?_of_function {values : List NodeId}
    (hf : s.module.form f = .function fname docs params body) (hvalues : values.head? = some f)
    (types : TypeList) :
    s.signature? values types = some {
      parameters := s.parameters params docs
      returns := (TypeList.ofList ((types.names.filter TypeName.isFunctionType).flatMap
        TypeName.functionReturnTypes)).names } := by
  obtain ⟨rest, rfl⟩ := List.head?_eq_some_iff.1 hvalues
  rw [signature?, hf]

end Places

end Setting

namespace Inference

variable {s : Setting} {f params body : NodeId} {fname : Option String} {docs : Option Doc.Block}
  {items : List NodeId}

/-! ### The name inside of the function -/

theorem answer_parameter (h : s.module.WellFormed)
    (hf : s.module.form f = .function fname docs params body)
    (hitems : s.module.form params = .parameters items) {i : Nat} {x : NodeId}
    (hx : items[i]? = some x) {name : String} (hname : s.module.form x = .identifier name)
    {scope : ScopeId} (hscope : s.scopes.hasSymbol scope name = true) (entered : List Symbol)
    (r : Registry) :
    answer s entered (.node scope x) r = (s.parameterTypes docs i name, r) := by
  have hlist : s.parameterList? x = some params := by
    rw [Setting.parameterList?, (h.parameter_position hitems hx).1, Option.filter_some, hitems]
    rfl
  have howner : s.owner? scope x = none := by simp [Setting.owner?, hname, hlist]
  have htypes : undeclaredTypes s scope x name = s.parameterTypes docs i name := by
    rw [undeclaredTypes, hlist]
    simp only [hscope, if_true]
    exact Setting.parameterNodeTypes_eq h hf hitems hx name
  rw [answer_node howner, formTypes, hname, ← htypes]
  rfl

theorem infer_parameter (h : s.module.WellFormed)
    (hf : s.module.form f = .function fname docs params body)
    (hitems : s.module.form params = .parameters items) {i : Nat} {x : NodeId}
    (hx : items[i]? = some x) {name : String} (hname : s.module.form x = .identifier name)
    {scope : ScopeId} (hscope : s.scopes.hasSymbol scope name = true)
    (htypes : ∀ t ∈ s.parameterTypes docs i name, TypeName.Encoding t) (r : Registry) :
    infer s x scope r = ((s.parameterTypes docs i name).eraseDups, r) := by
  have hcanonical : (s.parameterTypes docs i name).filterMap canonicalTypeName?
      = s.parameterTypes docs i name := by
    refine (List.filterMap_eq_map_iff_forall_eq_some.2 fun t ht => ?_).trans (List.map_id _)
    exact TypeName.canonicalTypeName?_of_encoded (htypes t ht).encoded
  have hanswer := answer_parameter h hf hitems hx hname hscope [] r
  calc infer s x scope r
      = ((TypeList.ofList (answer s [] (.node scope x) r).1).names,
          (answer s [] (.node scope x) r).2) := rfl
    _ = ((s.parameterTypes docs i name).eraseDups, r) := by
        rw [hanswer, TypeList.names_ofList, hcanonical]

/-! ### The slot in the signature -/

/-- An element of a symbol or a property that has the function as its first value. -/
def BuiltFrom (s : Setting) (f : NodeId) (e : Element) : Prop :=
  ∃ o entered entered' r, (Owner.values s o).head? = some f ∧
    enter entered (.owner o) = some entered' ∧ (answer s entered (.owner o) r).1 = e

/-- Moving properties into a generated type does not touch the signature. -/
theorem signature_generate {o : Owner}
    (calls : (b : Call) → b ∈ s.callees (.owner o) → Infer b.Answer) (e : Element)
    (properties : List (PropertyName s o)) (r : Registry) :
    (generate calls e properties r).1.signature = e.signature := by
  by_cases hne : properties = []
  · subst hne
    rfl
  · cases hcontains : Entries.contains (o.type s) r with
    | true =>
      rw [generate_of_contains hne hcontains]
      rfl
    | false =>
      rw [generate_of_not_contains hne hcontains]
      rfl

theorem BuiltFrom.exists_types {e : Element} (h : BuiltFrom s f e) :
    ∃ values types, values.head? = some f ∧ e.signature = s.signature? values types := by
  obtain ⟨o, entered, entered', r, hvalues, henter, rfl⟩ := h
  have helement := congrFun (@run_element s entered' o) r
  refine ⟨o.values s, .ofList ((o.values s).mapM (valueTypes s entered') r).1.flatten, hvalues, ?_⟩
  rw [answer_of_enter_eq_some henter]
  exact (signature_generate _ _ _ _).trans (congrArg (fun x => x.1.signature) helement)

theorem BuiltFrom.exists_signature {e : Element} (h : BuiltFrom s f e)
    (hf : s.module.form f = .function fname docs params body) :
    ∃ returns, e.signature = some ⟨s.parameters params docs, returns⟩ ∧
      ∀ r ∈ returns, TypeName.compact r.toList = r.toList := by
  obtain ⟨values, types, hvalues, hsignature⟩ := h.exists_types
  refine ⟨_, hsignature.trans (Setting.signature?_of_function hf hvalues types), fun r hr => ?_⟩
  obtain ⟨raw, -, hcanonical⟩ := TypeList.mem_names_ofList.1 hr
  exact compact_eq_self_of_canonical hcanonical

/-- **A parameter has the same types inside of its function and in the function's signature.** Let
the documented types of the parameters and the targets of the renaming be encoded. Then in the scope
of its function a parameter is known to have the types of its position, each once, and it does not
matter whether other parameters have its name. The signature of what is built from the function has
a parameter with these types at the same position. In the canonical form of the signature the slot
at this position is the union of these types, each once, exactly if the text of the return types
does not end in the array suffix; and no encoded return types end in it. -/
theorem parameters_keep_their_types {cs : List Char} {m : Module} (hm : Module.ofText cs = .ok m)
    (index : Index) (renames : TypeRenaming) (location : Path) (resolve : String → Option Path)
    {f params body : NodeId} {fname : Option String} {docs : Option Doc.Block}
    (hf : m.form f = .function fname docs params body)
    (hdocs : ∀ block ∈ docs, ∀ p ∈ block.params, ∀ t ∈ p.types, TypeName.Encoding t)
    (hrenames : ∀ e ∈ renames.entries, TypeName.Encoding e.2) :
    let s := Setting.ofModule m index renames location resolve
    ∃ items, m.form params = .parameters items ∧
      ∀ i x, items[i]? = some x → ∃ name, m.form x = .identifier name ∧
        let types := s.parameterTypes docs i name
        (∀ r, infer s x (s.scopes.idOf (some f)) r = (types.eraseDups, r)) ∧
        ∀ e, BuiltFrom s f e → ∃ sig, e.signature = some sig ∧
          sig.parameters.length = items.length ∧ sig.parameters[i]? = some ⟨name, types⟩ ∧
          ((∃ n, canonicalTypeName? sig.typeName = some n ∧
              (TypeName.parameterSlots n)[i]? = some (TypeName.unionType types.eraseDups)) ↔
            TypeName.endsInSuffix (TypeName.chars sig.returns) = false) ∧
          ((∀ t ∈ sig.returns, TypeName.Encoding t) →
            TypeName.endsInSuffix (TypeName.chars sig.returns) = false) := by
  intro s
  have hwf : s.module.WellFormed := Module.wellFormed_of_ofText hm
  obtain ⟨program, hroot⟩ := Module.form_root_of_ofText hm
  obtain ⟨-, items, hitems, hnames⟩ := hwf.children_of_function hf
  refine ⟨items, hitems, fun i x hx => ?_⟩
  have hmem : x ∈ items := List.mem_of_getElem? hx
  obtain ⟨name, hname⟩ := hnames x hmem
  have hencoding := Setting.encoding_parameterTypes (s := s) hdocs hrenames
  refine ⟨name, hname, ?_, fun e he => ?_⟩
  · have hscope := hwf.hasSymbol_parameter hf hitems hroot hmem hname
    exact infer_parameter hwf hf hitems hx hname hscope (hencoding i name)
  · obtain ⟨returns, hsignature, hreturns⟩ := he.exists_signature hf
    have hparameters : s.parameters params docs = items.zipIdx.map _ :=
      Setting.parameters_eq hitems hnames
    have hall : ∀ p ∈ s.parameters params docs,
        p.types ≠ [] ∧ ∀ t ∈ p.types, TypeName.Encoding t := by
      intro p hp
      rw [hparameters] at hp
      obtain ⟨⟨y, j⟩, -, rfl⟩ := List.mem_map.1 hp
      exact ⟨Setting.parameterTypes_ne_nil docs j _, hencoding j _⟩
    let sig : Signature := ⟨s.parameters params docs, returns⟩
    have hi : sig.parameters[i]? = some ⟨name, s.parameterTypes docs i name⟩ :=
      Setting.getElem?_parameters hitems hnames hx hname
    have hslot := Signature.exists_slot_iff (fun p hp => (hall p hp).1)
      (fun p hp => (hall p hp).2) hreturns hi
    refine ⟨sig, hsignature, ?_, hi, hslot, ?_⟩
    · rw [show sig.parameters = _ from hparameters, List.length_map, List.length_zipIdx]
    · intro hencoded
      refine TypeName.endsInSuffix_of_encoded fun r hr => ?_
      obtain ⟨t, ht, rfl⟩ := List.mem_map.1 hr
      exact (hencoded t ht).encoded

/-- What is found for a symbol within some depth is built from the first value of the symbol. -/
theorem builtFrom_of_within {key : Symbol} (hvalues : (Owner.values s (.symbol key)).head? = some f)
    (depth : Nat) {x : Element × Registry}
    (h : within s depth [] (.owner (.symbol key)) [] = some x) : BuiltFrom s f x.1 := by
  refine ⟨.symbol key, [], [key], [], hvalues, rfl, ?_⟩
  rw [refines_within depth [] (.owner (.symbol key)) [] x h]

/-- Two parameters of one name, and a renaming after which two types of the second are the same. -/
theorem repeated_parameters_keep_their_types : ∃ m : Module,
    Module.ofText ("/** @param \x7bFoo\x7d a\n * @param \x7bBar|Foo|Foo[]\x7d a\n" ++
      " * @return \x7bFoo[]\x7d */ function f(a, a) \x7b\x7d").toList = .ok m ∧
    (∀ block ∈ m.docs? 4, ∀ p ∈ block.params, ∀ t ∈ p.types, TypeName.Encoding t) ∧
    let s := Setting.ofModule m .empty ⟨[("Bar", "Foo")]⟩ "main.js" fun _ => none
    infer s 1 (s.scopes.idOf (some 4)) [] = (["Foo", "Array<Foo>"], []) ∧
    ∃ e sig n, BuiltFrom s 4 e ∧ e.signature = some sig ∧ sig.returns = ["Array<Foo>"] ∧
      canonicalTypeName? sig.typeName = some n ∧
      (TypeName.parameterSlots n)[1]? = some "Foo|Array<Foo>" := by
  obtain ⟨m, hm, hfunction, hdocs, hchildren, hitems, hname, htypes, hvalues, hwithin⟩ :=
    Module.exists_ofText
    ("/** @param \x7bFoo\x7d a\n * @param \x7bBar|Foo|Foo[]\x7d a\n" ++
      " * @return \x7bFoo[]\x7d */ function f(a, a) \x7b\x7d")
    (fun m =>
      let s := Setting.ofModule m .empty ⟨[("Bar", "Foo")]⟩ "main.js" fun _ => none
      m.isFunction 4 = true ∧
      m.docs? 4 = some { tags := [.param "a" ["Foo"] .required "",
        .param "a" ["Bar", "Foo", "Array<Foo>"] .required "", .result ["Array<Foo>"] ""] } ∧
      m.children 4 = [2, 3] ∧ m.children 2 = [0, 1] ∧ m.identifier? 1 = some "a" ∧
      s.parameterTypes (m.docs? 4) 1 "a" = ["Foo", "Foo", "Array<Foo>"] ∧
      (Owner.values s (.symbol (0, "f"))).head? = some 4 ∧
      (within s 20 [] (.owner (.symbol (0, "f"))) []).any
        (fun x => (Element.signature x.1).map Signature.returns = some ["Array<Foo>"]) = true)
    (by decide +kernel)
  have hfoo : TypeName.Encoding "Foo" := .atom (by decide)
  have hbar : TypeName.Encoding "Bar" := .atom (by decide)
  have harray : TypeName.Encoding "Array<Foo>" := by
    have hname : "Array<Foo>" = TypeName.arrayTypeOf "Foo" := by decide
    rw [hname]
    exact .array hfoo
  have hencoded : ∀ block ∈ m.docs? 4, ∀ p ∈ block.params, ∀ t ∈ p.types, TypeName.Encoding t := by
    rw [hdocs]
    rintro block ⟨⟩
    simp [Doc.Block.params, Doc.Tag.param?, hfoo, hbar, harray]
  obtain ⟨fname, docs, params, body, hf⟩ := Module.isFunction_iff.1 hfunction
  obtain rfl : docs = m.docs? 4 := by rw [Module.docs?, hf]
  rw [Module.children, hf] at hchildren
  obtain ⟨rfl, rfl⟩ : params = 2 ∧ body = 3 := by simpa [Script.Form.children] using hchildren
  obtain ⟨items, hform, hparameters⟩ := parameters_keep_their_types hm .empty
    ⟨[("Bar", "Foo")]⟩ "main.js" (fun _ => none) hf hencoded (by simp [hfoo])
  rw [Module.children, hform] at hitems
  obtain rfl : items = [0, 1] := hitems
  obtain ⟨name, hidentifier, hinfer, hsignature⟩ := hparameters 1 1 rfl
  obtain rfl : name = "a" := by simpa [Module.identifier?, hidentifier] using hname
  obtain ⟨x, hx, hreturns⟩ := Option.any_eq_true _ _ |>.1 hwithin
  have hbuilt := builtFrom_of_within hvalues 20 hx
  obtain ⟨sig, hsig, -, -, hslot, hsuffix⟩ := hsignature x.1 hbuilt
  have hreturns : sig.returns = ["Array<Foo>"] := by simpa [hsig] using hreturns
  simp only [htypes] at hinfer hslot
  obtain ⟨n, hn, hslot⟩ := hslot.2 (hsuffix (by simp [hreturns, harray]))
  exact ⟨m, hm, hencoded, hinfer [], x.1, sig, n, hbuilt, hsig, hreturns, hn, hslot⟩

/-- The canonical form of a documented return type may end in the array suffix. Then the suffix is
read as one of the whole signature, and what is found for the function is an array. -/
theorem function_with_suffix_is_array : ∃ m : Module,
    Module.ofText "/** @return \x7bx[]<=<=<=<>>>>\x7d */ function f(a) \x7b\x7d".toList = .ok m ∧
    let s := Setting.ofScript .empty m
    (∃ e, BuiltFrom s 3 e ∧ e.signature = some ⟨[⟨"a", ["Object"]⟩], ["x[]"]⟩) ∧
    (infer s 0 (s.scopes.idOf (some 3)) []).1 = ["Object"] ∧
    canonicalTypeName? (Signature.mk [⟨"a", ["Object"]⟩] ["x[]"]).typeName
      = some "Array<Function(Object):x>" ∧
    TypeName.parameterSlots "Array<Function(Object):x>" = [] ∧
    (symbolTypes s 0 "f" []).1 = ["Array<Function(Object):x>"] := by
  obtain ⟨m, hm, hvalues, hwithin, hparameter, hsymbol⟩ := Module.exists_ofText
    "/** @return \x7bx[]<=<=<=<>>>>\x7d */ function f(a) \x7b\x7d"
    (fun m =>
      let s := Setting.ofScript .empty m
      (Owner.values s (.symbol (0, "f"))).head? = some 3 ∧
      (within s 20 [] (.owner (.symbol (0, "f"))) []).any
        (fun x => Element.signature x.1 = some ⟨[⟨"a", ["Object"]⟩], ["x[]"]⟩) = true ∧
      ((afterWithin s 20 []).bind
        ((Query.node 0 (s.scopes.idOf (some 3))).run s (within s 20 []))).map Prod.fst
          = some ["Object"] ∧
      ((afterWithin s 20 []).bind ((Query.symbol 0 "f").run s (within s 20 []))).map Prod.fst
        = some ["Array<Function(Object):x>"])
    (by decide +kernel)
  obtain ⟨x, hx, hsignature⟩ := Option.any_eq_true _ _ |>.1 hwithin
  refine ⟨m, hm, ⟨x.1, builtFrom_of_within hvalues 20 hx, of_decide_eq_true hsignature⟩,
    answer_eq_of_within 20 hparameter, ?_, ?_, answer_eq_of_within 20 hsymbol⟩
  · decide +kernel
  · decide +kernel

end Inference

end ScriptTypes
