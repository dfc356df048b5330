import ScriptTypes.Inference.Setting
import ScriptTypes.Proofs.Scope.Grounded

/-!
# Scopes are nested like functions

There is a scope for the program and one for each function, and the scope around that of a function
is the scope of the nearest function around it: each step of collecting keeps this, as it opens a
scope inside one that is there.
-/

namespace ScriptTypes

open Script (Form Module NodeId)

theorem Scope.chain_declare (scope : Scope) (name : String) :
    (scope.declare name).chain = scope.chain := rfl

theorem Scope.chain_add (scope : Scope) (name : String) (keys : List String) (value : NodeId) :
    (scope.add name keys value).chain = scope.chain := rfl

namespace Scopes

variable {m : Module} {s : Scopes}

/-! ### The functions of a table -/

/-- The functions that the scopes of a table belong to, in the order of the table. -/
def functions (s : Scopes) : List (Option NodeId) := s.table.toList.map (·.function)

theorem functions_eq (s : Scopes) : s.functions = s.headers.map Prod.fst := by
  simp [functions, headers, Scope.header, Function.comp_def]

theorem functions_hoist (s : Scopes) (e : ScopeEvent) :
    (hoist m s e).functions = s.functions ++ (e.opened?.map some).toList := by
  rw [functions_eq, headers_hoist, functions_eq]
  cases e.opened? <;> simp

theorem functions_assign (s : Scopes) (e : ScopeEvent) :
    (assign m s e).functions = s.functions := by
  rw [functions_eq, headers_assign, functions_eq]

theorem functions_opens (s : Scopes) (enclosing : Option NodeId) (f : NodeId) :
    (hoist m s (.opens enclosing f)).functions = s.functions ++ [some f] :=
  s.functions_hoist _

theorem length_functions (s : Scopes) : s.functions.length = s.table.size := by
  simp [functions]

theorem map_function_ids (s : Scopes) :
    s.ids.map (fun id => (s.get id).function) = s.functions := by
  apply List.ext_getElem
  · simp [ids, functions]
  · intro id hid _
    have hid : id < s.table.size := by simpa [ids] using hid
    simp [ids, functions, get, hid]

theorem function_mem_functions {id : ScopeId} (hid : id < s.table.size) :
    (s.get id).function ∈ s.functions := by
  rw [← s.map_function_ids]
  exact List.mem_map_of_mem (List.mem_range.2 hid)

theorem getElem?_functions {id : ScopeId} (hid : id < s.table.size) :
    s.functions[id]? = some (s.get id).function := by
  simp [← s.map_function_ids, ids, hid]

theorem ofFunction?_eq_findIdx? (s : Scopes) (f : NodeId) :
    s.ofFunction? f = s.functions.findIdx? (· == some f) := by
  rw [ofFunction?, functions, List.findIdx?_map, ← List.findIdx?_toArray]
  rfl

theorem ofFunction?_eq {f : NodeId} (hf : some f ∈ s.functions) :
    s.ofFunction? f = some (s.functions.idxOf (some f)) := by
  rw [ofFunction?_eq_findIdx?, List.findIdx?_eq_some_iff_findIdx_eq]
  exact ⟨List.idxOf_lt_length_iff.2 hf, rfl⟩

/-- Where the scope of a function stands depends on nothing else. -/
theorem idOf_congr {s' : Scopes} (h : s'.functions = s.functions) (g : Option NodeId) :
    s'.idOf g = s.idOf g := by
  cases g with
  | none => rfl
  | some f => rw [idOf, idOf, ofFunction?_eq_findIdx?, ofFunction?_eq_findIdx?, h]

section Known

variable (hhead : s.functions.head? = some none) {g g' : Option NodeId}
include hhead

theorem idOf_eq (hg : g ∈ s.functions) : s.idOf g = s.functions.idxOf g := by
  cases g with
  | none =>
    obtain ⟨rest, hrest⟩ := List.head?_eq_some_iff.1 hhead
    rw [hrest, List.idxOf_cons_self]
    rfl
  | some f =>
    rw [idOf, ofFunction?_eq hg]
    rfl

theorem idOf_lt (hg : g ∈ s.functions) : s.idOf g < s.table.size := by
  rw [idOf_eq hhead hg, ← s.length_functions]
  exact List.idxOf_lt_length_iff.2 hg

theorem function_idOf (hg : g ∈ s.functions) : (s.get (s.idOf g)).function = g := by
  have hget := List.getElem?_idxOf hg
  rw [← idOf_eq hhead hg, getElem?_functions (idOf_lt hhead hg)] at hget
  exact Option.some.inj hget

theorem idOf_inj (hg : g ∈ s.functions) (hg' : g' ∈ s.functions) :
    s.idOf g = s.idOf g' ↔ g = g' := by
  refine ⟨fun hid => ?_, fun heq => heq ▸ rfl⟩
  rw [← function_idOf hhead hg, hid, function_idOf hhead hg']

theorem idOf_function (hnodup : s.functions.Nodup) {id : ScopeId} (hid : id < s.table.size) :
    s.idOf (s.get id).function = id := by
  obtain ⟨hlt, hget⟩ := List.getElem?_eq_some_iff.1 (getElem?_functions hid)
  rw [idOf_eq hhead (function_mem_functions hid), ← hget, hnodup.idxOf_getElem]

theorem head_hoist (e : ScopeEvent) : (hoist m s e).functions.head? = some none := by
  rw [functions_hoist, List.head?_append, hhead]
  rfl

theorem idOf_hoist (hg : g ∈ s.functions) (e : ScopeEvent) : (hoist m s e).idOf g = s.idOf g := by
  have hg' : g ∈ (hoist m s e).functions := by
    rw [functions_hoist]
    exact List.mem_append_left _ hg
  rw [idOf_eq (head_hoist hhead e) hg', functions_hoist, List.idxOf_append_of_mem hg,
    idOf_eq hhead hg]

/-- A scope that is opened stands behind the others. -/
theorem idOf_opens {f : NodeId} (hf : some f ∉ s.functions) (enclosing : Option NodeId) :
    (hoist m s (.opens enclosing f)).idOf (some f) = s.table.size := by
  rw [idOf_eq (head_hoist hhead _) (by simp [functions_opens]), functions_opens,
    List.idxOf_append_of_notMem hf, List.idxOf_cons_self, length_functions, Nat.add_zero]

end Known

/-! ### Scopes around scopes -/

theorem ancestors_modify (s : Scopes) (id : ScopeId) {f : Scope → Scope}
    (hf : ∀ scope, (f scope).chain = scope.chain) : (s.modify id f).ancestors = s.ancestors := by
  funext j
  rw [ancestors, ancestors, get, get, modify, Array.getElem?_modify]
  split
  · cases s.table[j]? with
    | none => rfl
    | some scope => exact hf scope
  · rfl

theorem ancestors_assign (s : Scopes) (e : ScopeEvent) :
    (assign m s e).ancestors = s.ancestors := by
  unfold assign
  split
  · split
    · exact s.ancestors_modify _ fun scope => scope.chain_add _ _ _
    · rfl
  · rfl

theorem ancestors_hoist (s : Scopes) {e : ScopeEvent} (he : e.opened? = none) :
    (hoist m s e).ancestors = s.ancestors := by
  match e with
  | .opens enclosing function => cases he
  | .declares scope name none => exact s.ancestors_modify _ fun scope => scope.chain_declare name
  | .declares scope name (some value) =>
    exact s.ancestors_modify _ fun scope => scope.chain_add name [] value
  | .assigns scope target value => rfl

end Scopes

namespace Script.Module

variable {m : Module}

/-- The functions whose scopes are around one, innermost first, the program last. -/
def enclosing (m : Module) : Option NodeId → List (Option NodeId)
  | none => [none]
  | some f => some f :: (m.functionsAround f).map some ++ [none]

theorem enclosing_some (f : NodeId) :
    m.enclosing (some f) = some f :: m.enclosing (m.functionAround? f) := by
  cases hf : m.functionAround? f with
  | none =>
    rw [functionAround?, List.head?_eq_none_iff] at hf
    simp [enclosing, hf]
  | some g => simp [enclosing, functionsAround_of_functionAround? hf]

theorem self_mem_enclosing (g : Option NodeId) : g ∈ m.enclosing g := by
  cases g <;> simp [enclosing]

theorem none_mem_enclosing (g : Option NodeId) : none ∈ m.enclosing g := by
  cases g <;> simp [enclosing]

theorem some_mem_enclosing_iff (h : m.WellFormed) {f g : NodeId} (hf : m.isFunction f = true) :
    some f ∈ m.enclosing (some g) ↔ m.Under g f := by
  simp [enclosing, h.mem_functionsAround_iff, hf, Under, eq_comm (a := f)]

end Script.Module

namespace Scopes

/-- A table that lists functions behind those around them, and in which the chain of a scope are
the scopes of the functions around it. -/
structure Nests (m : Module) (s : Scopes) : Prop where
  head : s.functions.head? = some none
  nodup : s.functions.Nodup
  closed : ∀ g ∈ s.functions, m.enclosing g ⊆ s.functions
  order : ∀ f, some f ∈ s.functions → s.idOf (m.functionAround? f) < s.idOf (some f)
  chain : ∀ g ∈ s.functions, s.ancestors (s.idOf g) = (m.enclosing g).map s.idOf

namespace Nests

variable {m : Module} {s : Scopes}

theorem ofProgram : Nests m (ofProgram m) where
  head := rfl
  nodup := List.nodup_singleton _
  closed g hg := by
    obtain rfl := List.mem_singleton.1 hg
    exact List.Subset.refl _
  order f hf := by simp [functions, Scopes.ofProgram] at hf
  chain g hg := by
    obtain rfl := List.mem_singleton.1 hg
    rfl

theorem congr (h : Nests m s) {s' : Scopes} (hfunctions : s'.functions = s.functions)
    (hancestors : s'.ancestors = s.ancestors) : Nests m s' := by
  have hid : s'.idOf = s.idOf := funext (idOf_congr hfunctions)
  constructor
  · rw [hfunctions]
    exact h.head
  · rw [hfunctions]
    exact h.nodup
  · rw [hfunctions]
    exact h.closed
  · rw [hfunctions, hid]
    exact h.order
  · rw [hfunctions, hid, hancestors]
    exact h.chain

theorem assign (h : Nests m s) (e : ScopeEvent) : Nests m (assign m s e) :=
  h.congr (s.functions_assign e) (s.ancestors_assign e)

theorem functionAround?_mem (h : Nests m s) {f : NodeId} (hf : some f ∈ s.functions) :
    m.functionAround? f ∈ s.functions := by
  apply h.closed _ hf
  rw [Module.enclosing_some]
  exact List.mem_cons_of_mem _ (Module.self_mem_enclosing _)

theorem parent?_idOf (h : Nests m s) {f : NodeId} (hf : some f ∈ s.functions) :
    (s.get (s.idOf (some f))).parent? = some (s.idOf (m.functionAround? f)) := by
  have hchain := h.chain _ hf
  rw [Module.enclosing_some, ancestors] at hchain
  rw [Scope.parent?, hchain]
  cases m.functionAround? f <;> rfl

theorem parent?_root (h : Nests m s) : (s.get root).parent? = none := by
  have hchain := h.chain none (List.mem_of_mem_head? h.head)
  rw [Scope.parent?]
  exact (congrArg (·[1]?) hchain).trans rfl

/-- A function's scope is put right inside that of the function around it. -/
theorem opens (h : Nests m s) {f : NodeId} (hscope : m.functionAround? f ∈ s.functions)
    (hf : some f ∉ s.functions) : Nests m (hoist m s (.opens (m.functionAround? f) f)) := by
  set e := ScopeEvent.opens (m.functionAround? f) f
  have hfunctions : (hoist m s e).functions = s.functions ++ [some f] := s.functions_opens _ f
  have hold {g : Option NodeId} (hg : g ∈ s.functions) : (hoist m s e).idOf g = s.idOf g :=
    idOf_hoist h.head hg e
  have hnew : (hoist m s e).idOf (some f) = s.table.size := idOf_opens h.head hf _
  have hmap {g : Option NodeId} (hg : g ∈ s.functions) :
      (m.enclosing g).map (hoist m s e).idOf = (m.enclosing g).map s.idOf :=
    List.map_congr_left fun a ha => hold (h.closed g hg ha)
  have hchain {g : Option NodeId} (hg : g ∈ s.functions) :
      (hoist m s e).ancestors (s.idOf g) = (m.enclosing g).map (hoist m s e).idOf := by
    rw [hmap hg, ← h.chain g hg, ancestors, ancestors, get, get, hoist,
      Array.getElem?_push_lt (idOf_lt h.head hg), Array.getElem?_eq_getElem (idOf_lt h.head hg)]
  constructor
  · exact head_hoist h.head e
  · rw [hfunctions]
    exact List.nodup_append_comm.1 (List.nodup_cons.2 ⟨hf, h.nodup⟩)
  · rw [hfunctions]
    intro g hg a ha
    obtain hg | hg := List.mem_append.1 hg
    · exact List.mem_append_left _ (h.closed g hg ha)
    · obtain rfl := List.mem_singleton.1 hg
      rw [Module.enclosing_some] at ha
      obtain rfl | ha := List.mem_cons.1 ha
      · exact List.mem_append_right _ hg
      · exact List.mem_append_left _ (h.closed _ hscope ha)
  · rw [hfunctions]
    intro g hg
    obtain hg | hg := List.mem_append.1 hg
    · rw [hold hg, hold (h.functionAround?_mem hg)]
      exact h.order g hg
    · obtain rfl : g = f := by simpa using hg
      rw [hnew, hold hscope]
      exact idOf_lt h.head hscope
  · rw [hfunctions]
    intro g hg
    obtain hg | hg := List.mem_append.1 hg
    · rw [hold hg, hchain hg]
    · obtain rfl := List.mem_singleton.1 hg
      rw [hnew, Module.enclosing_some, List.map_cons, hnew, hmap hscope, ← h.chain _ hscope]
      simp [ancestors, get, hoist, e]

theorem hoist (h : Nests m s) {e : ScopeEvent} (hscope : e.scope ∈ s.functions)
    (hfresh : ∀ f ∈ e.opened?, some f ∉ s.functions)
    (hplace : ∀ f ∈ e.opened?, e.scope = m.functionAround? f) : Nests m (hoist m s e) := by
  cases hopened : e.opened? with
  | none =>
    refine h.congr ?_ (s.ancestors_hoist hopened)
    rw [functions_hoist, hopened]
    exact List.append_nil _
  | some f =>
    have hf := hplace f hopened
    rw [hf] at hscope
    have hopens := h.opens hscope (hfresh f hopened)
    match e with
    | .opens enclosing function =>
      obtain rfl : enclosing = m.functionAround? f := hf
      obtain rfl : function = f := Option.some.inj hopened
      exact hopens

theorem foldl_hoist (h : Nests m s) {events : List ScopeEvent} (hg : Grounded s.functions events)
    (hplace : ∀ e ∈ events, ∀ f ∈ e.opened?, e.scope = m.functionAround? f) :
    Nests m (events.foldl (Scopes.hoist m) s) := by
  induction events generalizing s with
  | nil => exact h
  | cons e events ih =>
    obtain ⟨hscope, hfresh, hg⟩ := hg
    obtain ⟨he, hplace⟩ := List.forall_mem_cons.1 hplace
    rw [← functions_hoist (m := m)] at hg
    exact ih (h.hoist hscope hfresh he) hg hplace

theorem foldl_assign (h : Nests m s) (events : List ScopeEvent) :
    Nests m (events.foldl (Scopes.assign m) s) := by
  induction events generalizing s with
  | nil => exact h
  | cons e events ih => exact ih (h.assign e)

end Nests

end Scopes

namespace Script.Module

variable {m : Module}

theorem scope_of_mem_eventsAt {n : NodeId} {e : ScopeEvent} (he : e ∈ m.eventsAt n) :
    e.scope = m.functionAround? n ∧ ∀ f ∈ e.opened?, f = n := by
  simp only [eventsAt, List.mem_append, Option.mem_toList, Option.map_eq_some_iff] at he
  obtain (⟨d, -, rfl⟩ | he) | ⟨a, -, rfl⟩ := he
  · exact ⟨rfl, by simp [ScopeEvent.opened?]⟩
  · split at he
    · rw [List.mem_singleton.1 he]
      exact ⟨rfl, by simp [ScopeEvent.opened?]⟩
    · cases he
  · exact ⟨rfl, by simp [ScopeEvent.opened?]⟩

namespace WellFormed

variable (h : m.WellFormed)
include h

theorem lt_size_of_isFunction {f : Nat} (hf : m.isFunction f = true) : f < m.size := by
  obtain ⟨name, docs, params, body, hform⟩ := isFunction_iff.1 hf
  obtain ⟨-, hbody, -⟩ := h.bodyOf_of_function hform
  exact Module.lt_size_of_mem_children hbody

theorem bodyOf_mem_children {f : Nat} (hf : m.isFunction f = true) :
    Scopes.bodyOf m f ∈ m.children f := by
  obtain ⟨name, docs, params, body, hform⟩ := isFunction_iff.1 hf
  obtain ⟨hbody, hmem, -⟩ := h.bodyOf_of_function hform
  rwa [hbody]

/-- A function inside another one stands in its body. -/
theorem under_bodyOf {f g : NodeId} (hf : m.isFunction f = true) (hg : m.isFunction g = true)
    (hbelow : m.Below g f) : m.Under g (Scopes.bodyOf m f) := by
  obtain ⟨name, docs, params, body, hform⟩ := isFunction_iff.1 hf
  obtain ⟨name', docs', params', body', hform'⟩ := isFunction_iff.1 hg
  obtain ⟨hchildren, items, hparams, hitems⟩ := h.children_of_function hform
  rw [(h.bodyOf_of_function hform).1]
  obtain hunder | rfl | hparent := h.under_body_of_below hform hbelow
  · exact hunder
  · cases hform'.symm.trans hparams
  · have hmem := mem_children_of_parent? hparent
    rw [Module.children, hparams] at hmem
    obtain ⟨word, hword⟩ := hitems g hmem
    cases hform'.symm.trans hword

variable {items : List NodeId} (hroot : m.form m.root = .program items)
include hroot

theorem nests_scopes : Scopes.Nests m (Scopes.ofModule m) := by
  refine .foldl_assign (.foldl_hoist .ofProgram (h.grounded_scopeEvents hroot) ?_) _
  rw [h.scopeEvents_root hroot]
  intro e he f hf
  obtain ⟨n, -, he⟩ := List.mem_flatMap.1 he
  obtain ⟨hscope, hopened⟩ := scope_of_mem_eventsAt he
  rw [hopened f hf, hscope]

theorem functions_scopes : (Scopes.ofModule m).functions
    = none :: ((m.preorder m.root).filter m.isFunction).map some := by
  rw [Scopes.functions_eq, Scopes.headers_ofModule, opened, h.scopeEvents_root hroot,
    opened_flatMap]
  simp [Function.comp_def]

theorem some_mem_functions {f : NodeId} :
    some f ∈ (Scopes.ofModule m).functions ↔ m.isFunction f = true := by
  simp only [h.functions_scopes hroot, List.mem_cons, reduceCtorEq, false_or, List.mem_map,
    Option.some.injEq, exists_eq_right, List.mem_filter, mem_preorder_iff, and_iff_right_iff_imp]
  exact fun hf => h.under_root (h.lt_size_of_isFunction hf)

end WellFormed

end Script.Module

end ScriptTypes
