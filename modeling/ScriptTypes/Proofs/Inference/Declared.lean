import ScriptTypes.Proofs.Inference.FunctionTypes
import ScriptTypes.Proofs.Inference.Complete
import ScriptTypes.Proofs.Scope.Collected

/-!
# Declared types

A documented declaration declares types. They count as types of the value that the declaration
gives, so that a symbol without properties has them together with the types of its values. A
declaration that gives no value declares nothing, whatever its documentation says.
-/

namespace ScriptTypes

open Script (Module NodeId)

namespace Script.Module

variable {m : Module}

theorem lt_size_of_declaration {d : NodeId} {name : String} {docs : Option Doc.Block}
    {value : Option NodeId} (hd : m.form d = .declaration name docs value) : d < m.size := by
  by_contra hsize
  have hnone : m.entries[d]? = none := Array.getElem?_eq_none (Nat.not_lt.1 hsize)
  rw [form, hnone] at hd
  cases hd

/-- A documented node that declares a name and is no function is a declaration. -/
theorem form_of_documented {d : NodeId} {name : String} {value : Option NodeId} {docs : Doc.Block}
    (hd : m.declaration? d = some (name, value)) (hfunction : m.isFunction d = false)
    (hdocs : m.docs? d = some docs) : m.form d = .declaration name (some docs) value := by
  cases hform : m.form d with
  | declaration name' docs' value' =>
    simp only [declaration?, docs?, hform, Option.some.injEq, Prod.mk.injEq] at hd hdocs
    rw [hd.1, hd.2, hdocs]
  | function => simp [isFunction, hform] at hfunction
  | _ => simp [docs?, hform] at hdocs

namespace WellFormed

variable (h : m.WellFormed)
include h

theorem mem_declarations {d : NodeId} {name : String} {docs : Option Doc.Block}
    {value : Option NodeId} (hd : m.form d = .declaration name docs value) :
    (name, value) ∈ m.declarations (m.functionAround? d) := by
  refine List.mem_filterMap.2 ⟨d, ?_, ?_⟩
  · exact mem_preorder_iff.2 (h.under_root (lt_size_of_declaration hd))
  · rw [if_pos rfl, declaration?, hd]

theorem mem_declaredValues {d v : NodeId} {name : String} {docs : Option Doc.Block}
    (hd : m.form d = .declaration name docs (some v)) :
    v ∈ m.declaredValues (m.functionAround? d) name :=
  List.mem_filterMap.2 ⟨(name, some v), h.mem_declarations hd, if_pos rfl⟩

variable {items : List NodeId} (hroot : m.form m.root = .program items)
include hroot

/-- A scope comes first among those in which its names are looked up. -/
theorem symbol?_idOf {g : Option NodeId} (hg : g ∈ (Scopes.ofModule m).functions) {name : String}
    {c : Collection} (hc : NameMap.get? name
      ((Scopes.ofModule m).get ((Scopes.ofModule m).idOf g)).symbols = some c) :
    (Scopes.ofModule m).symbol? ((Scopes.ofModule m).idOf g) name
      = some ((Scopes.ofModule m).idOf g, c) := by
  have hchain := (h.nests_scopes hroot).chain g hg
  have hfirst : ∃ outer, m.enclosing g = g :: outer := by
    cases g with
    | none => exact ⟨[], rfl⟩
    | some f => exact ⟨_, enclosing_some f⟩
  obtain ⟨outer, houter⟩ := hfirst
  rw [Scopes.symbol?, hchain, houter, List.map_cons, List.findSome?_cons, hc]
  rfl

/-- A declared name is a symbol of the scope around the declaration. Its values are those of the
declarations and assignments of the name. -/
theorem exists_symbol_of_declaration {d : NodeId} {name : String} {docs : Option Doc.Block}
    {value : Option NodeId} (hd : m.form d = .declaration name docs value) :
    ∃ c, NameMap.get? name ((Scopes.ofModule m).get
        ((Scopes.ofModule m).idOf (m.functionAround? d))).symbols = some c ∧
      c.values = (m.declaredValues (m.functionAround? d) name
        ++ m.assignedValues (m.functionAround? d) name []).eraseDups := by
  have hg := h.functionAround?_mem_functions hroot d
  have hdeclares : m.declares (m.functionAround? d) name = true :=
    List.any_eq_true.2 ⟨(name, value), h.mem_declarations hd, beq_iff_eq.2 rfl⟩
  obtain ⟨c, hc⟩ := Option.isSome_iff_exists.1 ((h.isSome_at?_iff hroot hg name []).2
    (.inl ⟨rfl, hdeclares⟩))
  obtain ⟨c', hget, hself⟩ := Option.bind_eq_some_iff.1 hc
  obtain rfl : c' = c := Option.some.inj hself
  refine ⟨c', hget, ?_⟩
  rw [h.values_of_at? hroot hg hc, if_pos rfl]

end WellFormed

end Script.Module

theorem Element.referenceTypes_eq_types {e : Element} (h : e.signature = none) :
    e.referenceTypes = e.types := by
  rw [referenceTypes, h]

namespace Setting

variable {s : Setting}

/-- What is declared for a value is what the declaration declares that gives it. -/
theorem mem_declaredTypes_iff (h : s.module.WellFormed) {v : NodeId} {t : TypeName} :
    t ∈ s.declaredTypes v ↔ ∃ d name docs,
      s.module.form d = .declaration name (some docs) (some v) ∧ t ∈ docs.declaredTypes := by
  constructor
  · intro ht
    unfold declaredTypes at ht
    split at ht
    · rename_i d hparent
      split at ht
      · rename_i name docs value hform
        have hchild := Module.mem_children_of_parent? hparent
        rw [Module.children, hform] at hchild
        obtain rfl : value = some v := Option.mem_toList.1 hchild
        exact ⟨d, name, docs, hform, ht⟩
      · cases ht
    · cases ht
  · rintro ⟨d, name, docs, hform, ht⟩
    have hchild : v ∈ s.module.children d := by
      rw [Module.children, hform]
      exact List.mem_singleton_self v
    rw [declaredTypes, (Module.parent?_eq_some_iff h.children).2 hchild]
    dsimp only
    rwa [hform]

/-- The symbol that a declared name means where it is declared. -/
theorem exists_symbol_of_declaration (h : s.module.WellFormed) (hexact : s.module.Exact)
    (hscopes : s.scopes = Scopes.ofModule s.module) {items : List NodeId}
    (hroot : s.module.form s.module.root = .program items) {d : NodeId} {name : String}
    {docs : Option Doc.Block} {value : Option NodeId}
    (hd : s.module.form d = .declaration name docs value) :
    ∃ c, NameMap.get? name (s.scopes.get (s.scopeOf d)).symbols = some c ∧
      s.scopes.symbol? (s.scopeOf d) name = some (s.scopeOf d, c) ∧
      c.values = (s.module.declaredValues (s.module.functionAround? d) name
        ++ s.module.assignedValues (s.module.functionAround? d) name []).eraseDups := by
  have hscope : s.scopeOf d = s.scopes.idOf (s.module.functionAround? d) := by
    refine scopeOf_eq h hscopes hroot hexact (Module.lt_size_of_declaration hd) fun items hitems => ?_
    cases hd.symm.trans hitems
  rw [hscope, hscopes]
  obtain ⟨c, hc, hvalues⟩ := h.exists_symbol_of_declaration hroot hd
  exact ⟨c, hc, h.symbol?_idOf hroot (h.functionAround?_mem_functions hroot d) hc, hvalues⟩

theorem signature?_eq_none {values : List NodeId}
    (h : ∀ v ∈ values.head?, s.module.isFunction v = false) (types : TypeList) :
    s.signature? values types = none := by
  cases values with
  | nil => rfl
  | cons first rest =>
    have hfirst := h first rfl
    rw [signature?]
    dsimp only
    split
    · rename_i hform
      simp [Module.isFunction, hform] at hfirst
    · rfl

end Setting

namespace Inference

variable {s : Setting} {entered : List Symbol}

/-- The types that a value gives to what has it: those that its declaration declares, and its own.
A function whose result is documented is not looked into. -/
def valueTypes (s : Setting) (entered : List Symbol) (v : NodeId) : Infer (List TypeName) :=
  match s.documentedFunction? v with
  | some function => return s.declaredTypes v ++ [function]
  | none =>
    (s.declaredTypes v ++ ·) <$> (Query.node v (s.scopeOf v)).run s (answer s entered)

/-- An element says what its values say, one after the other. -/
theorem run_element (o : Owner) :
    (element s o).run (currently s) (fun b _ => answer s entered b)
      = (fun found => ({
          name := o.name
          owner := o.memberOf s
          types := (TypeList.ofList found.flatten).names
          signature := s.signature? (o.values s) (TypeList.ofList found.flatten) } : Element))
        <$> (o.values s).mapM (valueTypes s entered) := by
  rw [element, Program.run_bind, Program.run_gather_eq_mapM, ← mapM_attach _ (o.values s),
    bind_map_left, ← bind_pure_comp]
  refine congrArg (fun f => (o.values s).attach.mapM f >>= _) (funext fun v => ?_)
  unfold valueTypes
  split <;> rename_i hfunction <;> simp only [hfunction] <;> rfl

/-- A symbol without properties that is no function has the types of its values. -/
theorem run_symbol {scope owner : ScopeId} {name : String} {c : Collection}
    (hsymbol : s.scopes.symbol? scope name = some (owner, c)) (hnew : (owner, name) ∉ entered)
    (hproperties : c.properties = []) (hfirst : ∀ v ∈ c.values.head?, s.module.isFunction v = false)
    {r : Registry} {found : List (List TypeName) × Registry}
    (hfound : c.values.mapM (valueTypes s ((owner, name) :: entered)) r = found) :
    (Query.symbol scope name).run s (answer s entered) r
      = ((TypeList.ofList (TypeList.ofList found.1.flatten).names).names, found.2) := by
  have hcollection := Owner.collection_symbol hsymbol
  have hvalues : (Owner.symbol (owner, name)).values s = c.values :=
    congrArg Collection.values hcollection
  have hsubject : (Query.symbol scope name).subject s = .call (.owner (.symbol (owner, name))) := by
    rw [Query.subject, symbolSubject, Setting.symbolNamed?, hsymbol]
    rfl
  have henter : enter entered (.owner (.symbol (owner, name))) = some ((owner, name) :: entered) :=
    if_neg hnew
  have hanswer := (answer_of_enter_eq_some (s := s) henter).trans
    ((ownerElement_of_isEmpty (hcollection.symm ▸ hproperties)).trans
      (run_element (.symbol (owner, name))))
  rw [Query.run, hsubject]
  dsimp only
  rw [hanswer, hvalues]
  subst hfound
  refine Prod.ext (congrArg (fun ts => (TypeList.ofList ts).names) ?_) rfl
  exact Element.referenceTypes_eq_types (Setting.signature?_eq_none hfirst _)

/-- What a value brings in every state is among what is found for all values. -/
theorem mem_flatten_mapM {α β : Type} {f : α → Infer (List β)} {xs : List α} {x : α} (hx : x ∈ xs)
    {y : β} (hy : ∀ r, y ∈ (f x r).1) (r : Registry) : y ∈ (xs.mapM f r).1.flatten := by
  induction xs generalizing r with
  | nil => cases hx
  | cons x' xs ih =>
    rw [List.mapM_cons]
    show y ∈ (f x' r).1 ++ (xs.mapM f (f x' r).2).1.flatten
    rcases List.mem_cons.1 hx with rfl | hx
    · exact List.mem_append_left _ (hy r)
    · exact List.mem_append_right _ (ih hx _)

theorem mem_valueTypes_of_declared {v : NodeId} {t : TypeName} (ht : t ∈ s.declaredTypes v)
    (r : Registry) : t ∈ (valueTypes s entered v r).1 := by
  unfold valueTypes
  cases s.documentedFunction? v <;> exact List.mem_append_left _ ht

/-- **Only a declaration that gives a value declares types.** A declared name is a symbol of the
scope around the declaration, and its values are those that declarations and assignments give to it.
If it has no properties and its first value is no function, then it has the types that each of these
values brings, one value after the other, all in canonical form; and with its own types a value
brings exactly the types that the documentation of its declaration declares. So a name that is never
given a value has no types, and what the documentation of a declaration with a value declares is
among the types of the name. This holds in texts of less than 2 ^ 32 bytes. -/
theorem declared_types_come_with_values {cs : List Char} {m : Module}
    (hm : Module.ofText cs = .ok m) (hsize : Text.byteSize cs < 2 ^ 32)
    (index : Index) (renames : TypeRenaming) (location : Path) (resolve : String → Option Path)
    {d : NodeId} {x : String} {docs : Option Doc.Block} {value : Option NodeId}
    (hd : m.form d = .declaration x docs value) (r : Registry) :
    let s := Setting.ofModule m index renames location resolve
    let scope := s.scopeOf d
    (∀ v t, t ∈ s.declaredTypes v ↔ ∃ d x docs,
      m.form d = .declaration x (some docs) (some v) ∧ t ∈ docs.declaredTypes) ∧
    ∃ c, NameMap.get? x (s.scopes.get scope).symbols = some c ∧
      c.values = (m.declaredValues (m.functionAround? d) x
        ++ m.assignedValues (m.functionAround? d) x []).eraseDups ∧
      (c.properties = [] → (∀ v ∈ c.values.head?, m.isFunction v = false) →
        let found := c.values.mapM (valueTypes s [(scope, x)]) r
        symbolTypes s scope x r
          = ((TypeList.ofList (TypeList.ofList found.1.flatten).names).names, found.2) ∧
        (c.values = [] → symbolTypes s scope x r = ([], r)) ∧
        ∀ v block, value = some v → docs = some block → ∀ t ∈ block.declaredTypes,
          ∀ n, canonicalTypeName? t = some n →
            (canonicalTypeName? n).toList ⊆ (symbolTypes s scope x r).1 ∧
              (TypeName.Settled n.toList → n ∈ (symbolTypes s scope x r).1)) := by
  intro s scope
  have hwf := Module.wellFormed_of_ofText hm
  obtain ⟨items, hroot⟩ := Module.form_root_of_ofText hm
  have hdeclared (v : NodeId) (t : TypeName) : t ∈ s.declaredTypes v ↔ ∃ d x docs,
      m.form d = .declaration x (some docs) (some v) ∧ t ∈ docs.declaredTypes :=
    Setting.mem_declaredTypes_iff hwf
  obtain ⟨c, hc, hsymbol, hvalues⟩ := Setting.exists_symbol_of_declaration (s := s) hwf
    (Module.exact_of_ofText hm hsize) rfl hroot hd
  refine ⟨hdeclared, c, hc, hvalues, ?_⟩
  intro hproperties hfirst found
  have hrun : symbolTypes s scope x r
      = ((TypeList.ofList (TypeList.ofList found.1.flatten).names).names, found.2) :=
    run_symbol hsymbol List.not_mem_nil hproperties hfirst rfl
  refine ⟨hrun, fun hnil => ?_, ?_⟩
  · have hfound : found = ([], r) := by
      show c.values.mapM (valueTypes s [(scope, x)]) r = _
      rw [hnil]
      rfl
    rw [hrun, hfound]
    rfl
  · rintro v block rfl rfl t ht n hn
    have hv : v ∈ c.values := by
      rw [hvalues, List.mem_eraseDups]
      exact List.mem_append_left _ (hwf.mem_declaredValues hd)
    have hflat : t ∈ found.1.flatten :=
      mem_flatten_mapM hv (mem_valueTypes_of_declared ((hdeclared v t).2 ⟨d, x, block, hd, ht⟩)) r
    -- the element and the answer are lists of types, and either makes its names canonical
    have hcanonical {n' : TypeName} (hn' : canonicalTypeName? n = some n') :
        n' ∈ (symbolTypes s scope x r).1 := by
      rw [hrun]
      exact TypeList.mem_names_ofList.2 ⟨n, TypeList.mem_names_ofList.2 ⟨t, hflat, hn⟩, hn'⟩
    refine ⟨fun n' hn' => hcanonical (Option.mem_toList.1 hn'), fun hsettled => hcanonical ?_⟩
    exact (canonicalTypeName?_eq_self_iff (compact_eq_self_of_canonical hn)).2 hsettled

/-- A name that is declared with a value of unknown type, and then assigned to. -/
theorem declared_types_come_with_unknown_value : ∃ m : Module,
    Module.ofText
        "function f() \x7b var y; /** @type \x7bFoo|Bar[]\x7d */ var x = y; x = 1; \x7d".toList
      = .ok m ∧
    m.form 4 = .declaration "x" (some { tags := [.type ["Foo", "Array<Bar>"] ""] }) (some 3) ∧
    ∀ t ∈ ["Foo", "Array<Bar>"],
      t ∈ (symbolTypes (.ofScript .empty m) ((Setting.ofScript .empty m).scopeOf 4) "x" []).1 := by
  obtain ⟨m, hm, hdeclares, hfunction, hdocs, hplain⟩ := Module.exists_ofText
    "function f() \x7b var y; /** @type \x7bFoo|Bar[]\x7d */ var x = y; x = 1; \x7d"
    (fun m => m.declaration? 4 = some ("x", some 3) ∧ m.isFunction 4 = false ∧
      m.docs? 4 = some { tags := [.type ["Foo", "Array<Bar>"] ""] } ∧
      (NameMap.get? "x"
          ((Scopes.ofModule m).get ((Setting.ofScript .empty m).scopeOf 4)).symbols).all
        (fun c => c.properties.isEmpty && c.values.all (!m.isFunction ·)) = true)
    (by decide +kernel)
  have hd := Module.form_of_documented hdeclares hfunction hdocs
  obtain ⟨-, c, hc, -, hall⟩ := declared_types_come_with_values hm (by decide +kernel) .empty .empty
    "main.js" (fun _ => none) hd []
  have hplain := Option.all_eq_true _ _ |>.1 hplain c hc
  simp only [Bool.and_eq_true, List.isEmpty_iff, List.all_eq_true, Bool.not_eq_true'] at hplain
  obtain ⟨-, -, hdeclared⟩ := hall hplain.1 fun v hv => hplain.2 v (List.mem_of_mem_head? hv)
  have hself : ∀ t ∈ ["Foo", "Array<Bar>"], canonicalTypeName? t = some t := by decide +kernel
  refine ⟨m, hm, hd, fun t ht => ?_⟩
  have hsub := (hdeclared 3 _ rfl rfl t ht t (hself t ht)).1
  rw [hself t ht] at hsub
  exact hsub (List.mem_singleton_self t)

/-- A documented declaration whose name is never given a value. -/
theorem declared_type_is_lost_without_value : ∃ m : Module,
    Module.ofText "/** @type \x7bFoo\x7d */ var x;".toList = .ok m ∧
    m.form 0 = .declaration "x" (some { tags := [.type ["Foo"] ""] }) none ∧
    (∃ c, NameMap.get? "x" ((Scopes.ofModule m).get ((Setting.ofScript .empty m).scopeOf 0)).symbols
      = some c ∧ c.properties = [] ∧ c.values = []) ∧
    canonicalTypeName? "Foo" = some "Foo" ∧
    (symbolTypes (.ofScript .empty m) ((Setting.ofScript .empty m).scopeOf 0) "x" []).1 = [] := by
  obtain ⟨m, hm, hdeclares, hfunction, hdocs, hplain, hwithin⟩ := Module.exists_ofText
    "/** @type \x7bFoo\x7d */ var x;"
    (fun m => m.declaration? 0 = some ("x", none) ∧ m.isFunction 0 = false ∧
      m.docs? 0 = some { tags := [.type ["Foo"] ""] } ∧
      (NameMap.get? "x"
          ((Scopes.ofModule m).get ((Setting.ofScript .empty m).scopeOf 0)).symbols).any
        (fun c => c.properties.isEmpty && c.values.isEmpty) = true ∧
      ((afterWithin (.ofScript .empty m) 20 []).bind
        ((Query.symbol ((Setting.ofScript .empty m).scopeOf 0) "x").run (.ofScript .empty m)
          (within (.ofScript .empty m) 20 []))).map Prod.fst = some []) (by decide +kernel)
  obtain ⟨c, hc, hplain⟩ := Option.any_eq_true _ _ |>.1 hplain
  simp only [Bool.and_eq_true, List.isEmpty_iff] at hplain
  refine ⟨m, hm, Module.form_of_documented hdeclares hfunction hdocs, ⟨c, hc, hplain⟩,
    by decide +kernel, ?_⟩
  exact answer_eq_of_within 20 hwithin

end Inference

end ScriptTypes
