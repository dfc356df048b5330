import ScriptTypes.Inference.Location
import ScriptTypes.Proofs.Inference.History
import ScriptTypes.Proofs.Inference.Owners
import ScriptTypes.Proofs.Inference.SymbolFree
import ScriptTypes.Proofs.Scope.Located
import ScriptTypes.Proofs.Script.Returns

/-!
# Types of functions

A function has one type, which lists what its own `return` statements return: the types of the
returned expressions, one statement after the other in the order of the text, each type once. An
expression for which nothing is found adds nothing to the list. Only if nothing is found for any of
them does the function return an object.

The list differs from the one in which every such expression stands for an object. Both are the same
if types are found for all returned expressions or for none. Otherwise an object is missing, unless
another expression is one.
-/

namespace ScriptTypes

open Script (Module NodeId)

namespace TypeList

/-- Each name is kept where its canonical form comes first. -/
theorem names_ofList (raws : List String) :
    (ofList raws).names = (raws.filterMap canonicalTypeName?).eraseDups := by
  induction raws using List.reverseRecOn with
  | nil => rfl
  | append_singleton raws raw ih =>
    have hadd : ofList (raws ++ [raw]) = (ofList raws).add raw := by
      simp [ofList, extend]
    rw [hadd, add, List.filterMap_append]
    cases hraw : canonicalTypeName? raw with
    | none => simp [hraw, ih]
    | some n =>
      rw [List.filterMap_cons_some hraw, List.filterMap_nil]
      generalize raws.filterMap canonicalTypeName? = ns at ih
      rw [List.eraseDups_append]
      by_cases hn : n ∈ ns
      · simp [contains, ih, hn, List.removeAll]
      · simp [contains, ih, hn, List.removeAll, List.eraseDups_cons]

theorem mem_names_ofList {raws : List String} {n : TypeName} :
    n ∈ (ofList raws).names ↔ ∃ raw ∈ raws, canonicalTypeName? raw = some n := by
  rw [names_ofList, List.mem_eraseDups, List.mem_filterMap]

/-- Lists of names one after the other: each name is kept where it comes first. -/
theorem names_ofList_flatten (rawss : List (List String)) :
    (ofList rawss.flatten).names
      = (rawss.map fun raws => (ofList raws).names).flatten.eraseDups := by
  rw [names_ofList, List.filterMap_flatten, ← List.flatMap_def, ← List.flatMap_def]
  refine eraseDups_flatMap_congr fun raws _ => ?_
  rw [names_ofList, eraseDups_eq_self (nodup_eraseDups _)]

end TypeList

namespace TypeName

/-- The name of a function's type always has a canonical form. -/
theorem exists_canonical_functionType (ts : List TypeName) :
    ∃ n, canonicalTypeName? (functionType ts) = some n := by
  by_cases hts : ts = []
  · subst hts
    exact ⟨_, canonicalTypeName?_of_encoded Encoded.function⟩
  · -- the name has arguments, whatever they are
    obtain ⟨inner, hcompact⟩ : ∃ inner, compact (functionType ts).toList
        = function ++ '<' :: (inner ++ ['>']) := by
      refine ⟨compact (union (chars ts)), ?_⟩
      have hchars : (chars ts).isEmpty = false := by simpa [chars] using hts
      have hfunction : compact function = function := by decide
      have hbrackets : compact ['<'] = ['<'] ∧ compact ['>'] = ['>'] := by decide
      calc compact (functionType ts).toList
          = compact (function ++ ['<'] ++ union (chars ts) ++ ['>']) := by
            simp [functionType, functionOf, hchars, generic]
        _ = compact function ++ compact ['<'] ++ compact (union (chars ts)) ++ compact ['>'] := by
            simp only [compact, List.filter_append]
        _ = function ++ '<' :: (compact (union (chars ts)) ++ ['>']) := by
            simp [hfunction, hbrackets]
    have hshape : shape (function ++ '<' :: (inner ++ ['>']))
        = compoundShape (function ++ '<' :: (inner ++ ['>'])) function '<' (inner ++ ['>']) :=
      shape_compound (by decide) (by decide) (by simp [List.getLast?_cons])
    rw [canonicalTypeName?, hcompact, canonicalize?_eq, canonicalStep, hshape]
    rcases compoundShape_angle (function ++ '<' :: (inner ++ ['>'])) function (inner ++ ['>']) with
      hkept | ⟨base, arguments, -, hgeneric⟩
    · rw [hkept]
      exact ⟨_, rfl⟩
    · rw [hgeneric]
      dsimp only
      split <;> exact ⟨_, rfl⟩

end TypeName

/-- The scope at the start of a function's body is the one that the function opens. -/
theorem Script.Module.WellFormed.atOffset_body {m : Module} (h : m.WellFormed) (hexact : m.Exact)
    {items : List NodeId} (hroot : m.form m.root = .program items) {f params body : NodeId}
    {name : Option String} {docs : Option Doc.Block}
    (hf : m.form f = .function name docs params body) :
    (Scopes.ofModule m).atOffset (m.range body).start = (Scopes.ofModule m).idOf (some f) := by
  obtain ⟨-, hmem, ⟨block, hblock⟩, -⟩ := h.bodyOf_of_function hf
  have hparameter : m.isParameter body = false := by
    rw [Bool.eq_false_iff, Ne, Module.isParameter_iff]
    rintro ⟨p, params, hp, hparams⟩
    obtain rfl := Module.eq_of_mem_children h.children hmem (Module.mem_children_of_parent? hp)
    cases hf.symm.trans hparams
  rw [h.atOffset_start hroot hexact (h.lt_size_of_mem_children hmem) hparameter (by simp [hblock]),
    h.functionAround?_body hf]

namespace Inference

/-! ### Lists of returned types -/

/-- What a function returns, from the types that are found for each returned expression. -/
def returnedTypes (found : List (List TypeName)) : List TypeName :=
  if found ≠ [] ∧ ∀ ts ∈ found, ts = [] then [TypeName.objectType] else found.flatten.eraseDups

/-- The same if every expression for which nothing is found stands for an object. -/
def returnedOrObject (found : List (List TypeName)) : List TypeName :=
  (found.flatMap fun ts => if ts = [] then [TypeName.objectType] else ts).eraseDups

theorem nodup_returnedTypes (found : List (List TypeName)) : (returnedTypes found).Nodup := by
  unfold returnedTypes
  split
  · exact List.nodup_singleton _
  · exact nodup_eraseDups _

theorem returnedTypes_eq {found : List (List TypeName)}
    (h : (∀ ts ∈ found, ts = []) ∨ ∀ ts ∈ found, ts ≠ []) :
    returnedTypes found = returnedOrObject found := by
  unfold returnedTypes returnedOrObject
  cases found with
  | nil => rfl
  | cons ts found =>
    rcases h with hnone | hall
    · rw [if_pos ⟨List.cons_ne_nil _ _, hnone⟩,
        List.flatMap_congr (g := fun _ => [TypeName.objectType])
          fun ts hts => if_pos (hnone ts hts),
        List.flatMap_cons, List.singleton_append, List.eraseDups_cons,
        List.filter_eq_nil_iff.2 (by simp)]
      rfl
    · rw [if_neg fun hnone => hall ts List.mem_cons_self (hnone.2 ts List.mem_cons_self),
        List.flatMap_congr (f := fun ts => if ts = [] then [TypeName.objectType] else ts) (g := id)
          fun ts hts => if_neg (hall ts hts), List.flatMap_id]

theorem returnedTypes_eq_filter {found : List (List TypeName)}
    (hsome : ∃ ts ∈ found, ts ≠ []) (hobject : TypeName.objectType ∉ found.flatten) :
    returnedTypes found = (returnedOrObject found).filter (· != TypeName.objectType) := by
  obtain ⟨ts, hts, hne⟩ := hsome
  rw [returnedTypes, if_neg fun hnone => hne (hnone.2 ts hts), returnedOrObject, ← filter_eraseDups,
    List.filter_flatMap]
  refine congrArg List.eraseDups ?_
  rw [← List.flatMap_id]
  refine List.flatMap_congr fun ts hts => ?_
  split
  · rename_i hnil
    simp [hnil]
  · have hmem : TypeName.objectType ∉ ts := fun h => hobject (List.mem_flatten_of_mem hts h)
    refine (List.filter_eq_self.2 fun t ht => ?_).symm
    exact bne_iff_ne.2 fun heq => hmem (heq ▸ ht)

/-! ### Running through the returned expressions -/

variable {s : Setting} {entered : List Symbol} {scope : ScopeId} {n : NodeId}

/-- The types of nodes, one after the other. -/
def typesOfEach (s : Setting) (entered : List Symbol) (scope : ScopeId) (nodes : List NodeId) :
    Infer (List (List TypeName)) :=
  nodes.mapM fun v => (Query.node v scope).run s (answer s entered)

theorem mapM_map_result {m : Type → Type} [Monad m] [LawfulMonad m] {α β γ : Type} (g : β → γ)
    (f : α → m β) (xs : List α) : (xs.mapM fun x => g <$> f x) = List.map g <$> xs.mapM f := by
  induction xs with
  | nil => simp
  | cons x xs ih => simp [ih]

theorem mapM_attach {m : Type → Type} [Monad m] [LawfulMonad m] {α β : Type} (f : α → m β)
    (xs : List α) : (xs.attach.mapM fun x => f x.1) = xs.mapM f := by
  conv_rhs => rw [← List.attach_map_subtype_val xs, List.mapM_map]
  rfl

theorem Program.run_pure {a : Call} {m : Type → Type} [Monad m] {α : Type}
    (questions : (q : Question) → m q.Answer) (calls : (b : Call) → b ∈ s.callees a → m b.Answer)
    (x : α) : (pure x : Program s a α).run questions calls = pure x := rfl

theorem length_mapM {α β : Type} (f : α → Infer β) (xs : List α) (r : Registry) :
    (xs.mapM f r).1.length = xs.length := by
  induction xs generalizing r with
  | nil => rfl
  | cons x xs ih =>
    rw [List.mapM_cons, List.length_cons, ← ih (f x r).2]
    rfl

/-- What is gathered are the results one after the other. -/
theorem Program.run_gather_eq_mapM {a : Call} {m : Type → Type} [Monad m] [LawfulMonad m]
    (questions : (q : Question) → m q.Answer) (calls : (b : Call) → b ∈ s.callees a → m b.Answer)
    {α β : Type} (f : α → Program s a (List β)) (xs : List α) :
    (Program.gather xs f).run questions calls
      = List.flatten <$> xs.mapM fun x => (f x).run questions calls := by
  induction xs with
  | nil => simp [Program.gather, Program.run_pure]
  | cons x xs ih => simp [Program.gather, Program.run_bind, Program.run_pure, ih]

/-- The names that are found for a node, as they are found. -/
def foundNames (s : Setting) (entered : List Symbol) (scope : ScopeId) (n : NodeId) :
    Infer (List TypeName) :=
  answer s entered (.node scope n)

theorem typesOfEach_eq (nodes : List NodeId) :
    typesOfEach s entered scope nodes
      = List.map (fun raws => (TypeList.ofList raws).names)
        <$> nodes.mapM (foundNames s entered scope) :=
  mapM_map_result (fun raws => (TypeList.ofList raws).names) (foundNames s entered scope) nodes

theorem run_partTypes_eq {inside : ScopeId} {nodes : List NodeId}
    (hnodes : s.parts scope n = nodes.map fun v => (inside, v)) :
    (partTypes s scope n).run (currently s) (fun b _ => answer s entered b)
      = List.flatten <$> nodes.mapM (foundNames s entered inside) := by
  calc (partTypes s scope n).run (currently s) (fun b _ => answer s entered b)
      = List.flatten <$> (s.parts scope n).attach.mapM fun p => foundNames s entered p.1.1 p.1.2 :=
        Program.run_gather_eq_mapM _ _ _ _
    _ = List.flatten <$> (s.parts scope n).mapM fun p => foundNames s entered p.1 p.2 := by
        rw [← mapM_attach _ (s.parts scope n)]
    _ = List.flatten <$> nodes.mapM (foundNames s entered inside) := by
        rw [hnodes, List.mapM_map]
        rfl

theorem formTypes_function {f params body : NodeId} {name : Option String} {docs : Option Doc.Block}
    (hf : s.module.form f = .function name docs params body) :
    formTypes s scope f = do
      let raws ← partTypes s scope f
      return [TypeName.functionType
        (if !(s.module.returnedNodes f).isEmpty && (TypeList.ofList raws).isEmpty
          then [TypeName.objectType] else (TypeList.ofList raws).names)] := by
  rw [formTypes, hf]

/-- How inference tells that nothing is found for any returned expression. -/
theorem returnedTypes_of_names {nodes : List NodeId} {found : List (List TypeName)}
    (hlength : found.length = nodes.length) {list : TypeList}
    (hnames : list.names = found.flatten.eraseDups) :
    (if !nodes.isEmpty && list.isEmpty then [TypeName.objectType] else list.names)
      = returnedTypes found := by
  have hnodes : nodes = [] ↔ found = [] := by
    rw [← List.length_eq_zero_iff, ← hlength, List.length_eq_zero_iff]
  have hempty : list.names = [] ↔ ∀ ts ∈ found, ts = [] := by
    rw [hnames, ← List.flatten_eq_nil_iff]
    simp only [List.eq_nil_iff_forall_not_mem, List.mem_eraseDups]
  simp [returnedTypes, TypeList.isEmpty, hnodes, hempty, ← hnames]

theorem answer_function {f params body : NodeId} {name : Option String} {docs : Option Doc.Block}
    (hf : s.module.form f = .function name docs params body) (r : Registry) :
    answer s entered (.node scope f) r
      = ([TypeName.functionType (returnedTypes (typesOfEach s entered
            (s.scopes.atOffset (s.module.range body).start) (s.module.returnedNodes f) r).1)],
          (typesOfEach s entered (s.scopes.atOffset (s.module.range body).start)
            (s.module.returnedNodes f) r).2) := by
  have howner : s.owner? scope f = none := by simp [Setting.owner?, hf]
  have hparts : s.parts scope f = (s.module.returnedNodes f).map
      fun v => (s.scopes.atOffset (s.module.range body).start, v) := by
    simp [Setting.parts, hf]
  rw [answer_node howner, formTypes_function hf, Program.run_bind, run_partTypes_eq hparts,
    typesOfEach_eq]
  refine Prod.ext (congrArg (fun rs => [TypeName.functionType rs]) ?_) rfl
  refine returnedTypes_of_names ?_ (TypeList.names_ofList_flatten _)
  exact (List.length_map _).trans (length_mapM _ _ r)

/-- A function has one type. -/
theorem run_function {f params body : NodeId} {name : Option String} {docs : Option Doc.Block}
    (hf : s.module.form f = .function name docs params body) {r : Registry}
    {found : List (List TypeName) × Registry}
    (hfound : typesOfEach s entered (s.scopes.atOffset (s.module.range body).start)
      (s.module.returnedNodes f) r = found) {type : TypeName}
    (htype : canonicalTypeName? (TypeName.functionType (returnedTypes found.1)) = some type) :
    (Query.node f scope).run s (answer s entered) r = ([type], found.2) := by
  show ((TypeList.ofList (answer s entered (.node scope f) r).1).names,
    (answer s entered (.node scope f) r).2) = _
  rw [answer_function hf, hfound, TypeList.names_ofList, List.filterMap_cons_some htype]
  rfl

theorem refines_typesOfEach (depth : Nat) (nodes : List NodeId) :
    Refines (nodes.mapM fun v => (Query.node v scope).run s (within s depth []))
      (typesOfEach s [] scope nodes) := by
  unfold typesOfEach
  induction nodes with
  | nil => exact (respects_refines "").pure []
  | cons v nodes ih =>
    rw [List.mapM_cons, List.mapM_cons]
    refine (respects_refines "").bind ((Query.node v scope).refines depth) fun ts => ?_
    exact (respects_refines "").bind ih fun found => (respects_refines "").pure (ts :: found)

/-- **A function's type lists what its own `return` statements return.** These are the statements
that have the function as the innermost one around them, in the order in which they start; the types
of what they return are found one after the other, with names looked up in the function's own scope.
The function has one type, the canonical name of the list, and nothing else is recorded on the way.
Without a value that is returned it is just a function. The list is that in which every expression
without types stands for an object if all or none of them have types, and lacks the object
otherwise. All this holds in texts of less than 2 ^ 32 bytes. -/
theorem function_type_lists_returns {cs : List Char} {m : Module} (hm : Module.ofText cs = .ok m)
    (hsize : Text.byteSize cs < 2 ^ 32)
    (index : Index) (renames : TypeRenaming) (location : Path) (resolve : String → Option Path)
    {f : NodeId} (hf : m.isFunction f = true) (scope : ScopeId) (entered : List Symbol)
    (r : Registry) :
    let s := Setting.ofModule m index renames location resolve
    ∃ returns : List NodeId,
      (∀ n, n ∈ returns ↔ m.isReturn n = true ∧ m.functionAround? n = some f) ∧
      returns.Pairwise (fun a b => (m.span a).start < (m.span b).start) ∧
      let values := returns.filterMap m.returned?
      let found := typesOfEach s entered (s.scopes.idOf (some f)) values r
      ∃ name, canonicalTypeName? (TypeName.functionType (returnedTypes found.1)) = some name ∧
        (Query.node f scope).run s (answer s entered) r = ([name], found.2) ∧
        ((∀ t ∈ returnedTypes found.1, TypeName.Encoding t) →
          name = TypeName.functionType (returnedTypes found.1)) ∧
        (values = [] → name = "Function" ∧ found.2 = r) ∧
        ((∀ ts ∈ found.1, ts = []) ∨ (∀ ts ∈ found.1, ts ≠ []) →
          returnedTypes found.1 = returnedOrObject found.1) ∧
        ((∃ ts ∈ found.1, ts ≠ []) → TypeName.objectType ∉ found.1.flatten →
          returnedTypes found.1
            = (returnedOrObject found.1).filter (· != TypeName.objectType)) := by
  intro s
  have hwf := Module.wellFormed_of_ofText hm
  obtain ⟨fname, docs, params, body, hform⟩ := Module.isFunction_iff.1 hf
  have hexact := Module.exact_of_ofText hm hsize
  refine ⟨m.returnNodes f, fun n => hwf.mem_returnNodes_iff hf,
    hwf.pairwise_start_returnNodes hexact hf, ?_⟩
  intro values found
  obtain ⟨items, hroot⟩ := Module.form_root_of_ofText hm
  have hscope : s.scopes.atOffset (s.module.range body).start = s.scopes.idOf (some f) :=
    hwf.atOffset_body hexact hroot hform
  obtain ⟨name, hname⟩ := TypeName.exists_canonical_functionType (returnedTypes found.1)
  have hrun : (Query.node f scope).run s (answer s entered) r = ([name], found.2) :=
    run_function hform (by rw [hscope]; rfl) hname
  refine ⟨name, hname, hrun, ?_, ?_, returnedTypes_eq, returnedTypes_eq_filter⟩
  · intro hencoding
    have hfunction := TypeName.Encoding.function (nodup_returnedTypes found.1) hencoding
    exact Option.some.inj
      (hname.symm.trans (TypeName.canonicalTypeName?_of_encoded hfunction.encoded))
  · intro hnil
    have hfound : found = ([], r) := by
      show typesOfEach s entered (s.scopes.idOf (some f)) values r = _
      rw [hnil]
      rfl
    rw [hfound] at hname ⊢
    have hfunction :
        canonicalTypeName? (TypeName.functionType (returnedTypes [])) = some "Function" :=
      TypeName.canonicalTypeName?_of_encoded TypeName.Encoded.function
    exact ⟨Option.some.inj (hname.symm.trans hfunction), rfl⟩

/-- The types of the expressions that a function returns, unless calls are nested too deep. -/
def returnedWithin (m : Module) (f : NodeId) : Option (List (List TypeName)) :=
  let values := ((m.preorder (Scopes.bodyOf m f)).filter fun r =>
    m.isReturn r && m.functionAround? r == some f).filterMap m.returned?
  let inside := (Scopes.ofModule m).atOffset (m.range (Scopes.bodyOf m f)).start
  ((values.mapM fun v => (Query.node v inside).run (.ofScript .empty m)
    (within (.ofScript .empty m) 20 [])) []).map Prod.fst

theorem infer_of_returnedWithin {text : String} {m : Module}
    (hm : Module.ofText text.toList = .ok m) (hsize : Text.byteSize text.toList < 2 ^ 32) {f : NodeId} (hf : m.isFunction f = true)
    {found : List (List TypeName)} (hfound : returnedWithin m f = some found) {type : TypeName}
    (htype : canonicalTypeName? (TypeName.functionType (returnedTypes found)) = some type) :
    (infer (.ofScript .empty m) f 0 []).1 = [type] := by
  obtain ⟨name, docs, params, body, hform⟩ := Module.isFunction_iff.1 hf
  obtain ⟨x, hx, rfl⟩ := Option.map_eq_some_iff.1 hfound
  have hwf := Module.wellFormed_of_ofText hm
  have heach := refines_typesOfEach 20 _ [] x hx
  have hexact := Module.exact_of_ofText hm hsize
  rw [← hwf.returnedNodes_eq_preorder hexact hf, Scopes.bodyOf, hform] at heach
  exact congrArg Prod.fst (run_function hform heach htype)

/-- A function with two `return` statements, one of them in a branch. -/
theorem function_type_lists_number_and_string : ∃ m : Module,
    Module.ofText "(function (a) \x7b if (a) return 1; return \"x\"; \x7d)".toList = .ok m ∧
    m.isFunction 9 = true ∧
    ∃ returns : List NodeId,
      (∀ n, n ∈ returns ↔ m.isReturn n = true ∧ m.functionAround? n = some 9) ∧
      canonicalTypeName? (TypeName.functionType (returnedTypes (typesOfEach (.ofScript .empty m) []
        ((Scopes.ofModule m).idOf (some 9)) (returns.filterMap m.returned?) []).1))
          = some "Function<Number|String>" ∧
      (infer (.ofScript .empty m) 9 0 []).1 = ["Function<Number|String>"] := by
  obtain ⟨m, hm, hf, hfound⟩ := Module.exists_ofText
    "(function (a) \x7b if (a) return 1; return \"x\"; \x7d)"
    (fun m => m.isFunction 9 = true ∧ returnedWithin m 9 = some [["Number"], ["String"]])
    (by decide +kernel)
  have hinfer : (infer (.ofScript .empty m) 9 0 []).1 = ["Function<Number|String>"] :=
    infer_of_returnedWithin hm (by decide +kernel) hf hfound (by decide +kernel)
  obtain ⟨returns, hmem, -, name, hname, hrun, -⟩ :=
    function_type_lists_returns hm (by decide +kernel) .empty .empty "main.js" (fun _ => none) hf 0
      [] []
  have heq : name = "Function<Number|String>" := by
    simpa using (congrArg Prod.fst hrun).symm.trans hinfer
  exact ⟨m, hm, hf, returns, hmem, heq ▸ hname, hinfer⟩

/-- Nothing is found for the second returned expression. It adds no object to the types of the
first one. -/
theorem function_type_misses_unknown : ∃ m : Module,
    Module.ofText "(function (a) \x7b if (a) return 1; return y; \x7d)".toList = .ok m ∧
    m.isFunction 9 = true ∧ returnedWithin m 9 = some [["Number"], []] ∧
    TypeName.functionType (returnedOrObject [["Number"], []]) = "Function<Number|Object>" ∧
    (infer (.ofScript .empty m) 9 0 []).1 = ["Function<Number>"] := by
  obtain ⟨m, hm, hf, hfound⟩ := Module.exists_ofText
    "(function (a) \x7b if (a) return 1; return y; \x7d)"
    (fun m => m.isFunction 9 = true ∧ returnedWithin m 9 = some [["Number"], []])
    (by decide +kernel)
  have hinfer : (infer (.ofScript .empty m) 9 0 []).1 = ["Function<Number>"] :=
    infer_of_returnedWithin hm (by decide +kernel) hf hfound (by decide +kernel)
  exact ⟨m, hm, hf, hfound, by decide +kernel, hinfer⟩

end Inference

end ScriptTypes
