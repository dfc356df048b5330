import ScriptTypes.Proofs.Scope.Nested
import ScriptTypes.Proofs.Scope.Posted

/-!
# What the scopes of a module collect

A scope holds what its function declares, and each assignment belongs to the nearest scope around it
that declares the name, else to the program's. Assignments are collected one after the other, and
each looks for its scope in tables that earlier ones have changed; but an assignment enters a new
name only in the program's scope, where all chains of scopes end, so the scope it finds is the one
that the declarations give.

Main statement: `symbols_are_declared_or_leaked`.
-/

namespace ScriptTypes

open Script (Form IsName Module NodeId)

namespace Scope

theorem header_post (scope : Scope) (p : Posting) : (scope.post p).header = scope.header := by
  cases p <;> rfl

/-- The names of a scope are those of its postings. -/
theorem contains_of_valuesAt? {scope : Scope} {ps : List Posting} {name : String}
    (h : scope.valuesAt? name [] = Posting.collected ps name []) :
    NameMap.contains name scope.symbols = ps.any (·.name == name) := by
  have hsome := congrArg Option.isSome h
  rw [valuesAt?, Posting.collected] at hsome
  rw [NameMap.contains]
  cases hget : NameMap.get? name scope.symbols <;> simp_all [Collection.valuesAt?_nil]

end Scope

/-! ### Declarations and assignments -/

namespace Script.Module

variable {m : Module}

/-- The names that a function's scope declares, with their values, in the order of the text. -/
def declarations (m : Module) (g : Option NodeId) : List (String × Option NodeId) :=
  (m.preorder m.root).filterMap fun n => if m.functionAround? n = g then m.declaration? n else none

def declares (m : Module) (g : Option NodeId) (name : String) : Bool :=
  (m.declarations g).any (·.1 == name)

/-- The scope that assignments to a name belong to: the nearest one that declares the name, else
that of the program. -/
def holder (m : Module) (scope : Option NodeId) (name : String) : Option NodeId :=
  ((m.enclosing scope).find? (m.declares · name)).getD none

/-- The name and keys that a plain assignment leads to, with its right side. -/
def assignment? (m : Module) (n : NodeId) : Option (String × KeyedValue) :=
  (m.assigned? n).bind fun a => match m.targetPath? a.1 with
    | some (name :: keys) => some (name, ⟨keys, a.2⟩)
    | _ => none

/-- The assignments that belong to a function's scope, in the order of the text. -/
def assignments (m : Module) (g : Option NodeId) : List (String × KeyedValue) :=
  (m.preorder m.root).filterMap fun n =>
    (m.assignment? n).filter fun a => m.holder (m.functionAround? n) a.1 = g

/-- All that is posted to a function's scope. -/
def postings (m : Module) (g : Option NodeId) : List Posting :=
  (m.declarations g).map (fun d => .ofDeclaration d.1 d.2)
    ++ (m.assignments g).map fun a => .given a.1 a.2.keys a.2.value

/-- Whether the program's scope is said to declare the name makes no difference to the holder. -/
theorem holder_eq {scope : Option NodeId} {name : String} (known : Option NodeId → Bool)
    (h : ∀ f, some f ∈ m.enclosing scope → known (some f) = m.declares (some f) name) :
    ((m.enclosing scope).find? known).getD none = m.holder scope name := by
  have hlist (functions : List NodeId)
      (h : ∀ f ∈ functions, known (some f) = m.declares (some f) name) :
      ((functions.map some ++ [none]).find? known).getD none
        = ((functions.map some ++ [none]).find? (m.declares · name)).getD none := by
    induction functions with
    | nil =>
      simp only [List.map_nil, List.nil_append, List.find?_singleton]
      cases known none <;> cases m.declares none name <;> rfl
    | cons f functions ih =>
      obtain ⟨hf, h⟩ := List.forall_mem_cons.1 h
      rw [List.map_cons, List.cons_append, List.find?_cons, List.find?_cons, hf]
      split
      · rfl
      · exact ih h
  rw [holder]
  cases scope with
  | none => exact hlist [] (List.forall_mem_nil _)
  | some f =>
    exact hlist (f :: m.functionsAround f) fun f' hf' => h f' (by simpa [enclosing] using hf')

theorem holder_mem_enclosing (scope : Option NodeId) (name : String) :
    m.holder scope name ∈ m.enclosing scope := by
  rw [holder]
  cases hfind : (m.enclosing scope).find? (m.declares · name) with
  | none => exact none_mem_enclosing scope
  | some g => exact List.mem_of_find?_eq_some hfind

theorem declares_of_holder {scope : Option NodeId} {name : String} {f : NodeId}
    (h : m.holder scope name = some f) : m.declares (some f) name = true := by
  rw [holder] at h
  cases hfind : (m.enclosing scope).find? (m.declares · name) with
  | none =>
    rw [hfind] at h
    cases h
  | some g =>
    rw [hfind] at h
    obtain rfl : g = some f := h
    exact List.find?_some (p := (m.declares · name)) hfind

end Script.Module

/-! ### Postings to the scopes of a table -/

namespace ScopeEvent

/-- What an event declares in a scope. -/
def declared? (g : Option NodeId) : ScopeEvent → Option Posting
  | declares scope name value => if scope = g then some (.ofDeclaration name value) else none
  | _ => none

/-- What an event assigns in a scope. -/
def assigned? (m : Module) (g : Option NodeId) : ScopeEvent → Option Posting
  | assigns scope target value => match m.targetPath? target with
    | some (name :: keys) => if m.holder scope name = g then some (.given name keys value) else none
    | _ => none
  | _ => none

theorem declares_of_assigned? {m : Module} {f : NodeId} {p : Posting} (e : ScopeEvent)
    (h : e.assigned? m (some f) = some p) : m.declares (some f) p.name = true := by
  match e with
  | .opens enclosing function => cases h
  | .declares scope name value => cases h
  | .assigns scope target value =>
    rw [assigned?] at h
    split at h
    · obtain ⟨hholder, ⟨⟩⟩ := Option.ite_none_right_eq_some.1 h
      exact Module.declares_of_holder hholder
    · cases h

end ScopeEvent

namespace Scopes

variable {m : Module} {s : Scopes} {posted : Option NodeId → List Posting}
  {Name : String → Prop} {Value : NodeId → Prop}

/-- The scopes of a table hold what was posted to them. -/
structure Holds (s : Scopes) (posted : Option NodeId → List Posting) : Prop where
  known : ∀ g ∈ s.functions, ∀ name keys,
    (s.get (s.idOf g)).valuesAt? name keys = Posting.collected (posted g) name keys
  fresh : ∀ g, g ∉ s.functions → posted g = []

theorem Holds.congr (h : s.Holds posted) {posted' : Option NodeId → List Posting}
    (heq : ∀ g, posted' g = posted g) : s.Holds posted' := by
  rw [funext heq]
  exact h

theorem get_modify {id j : ScopeId} (f : Scope → Scope) (hj : j < s.table.size) :
    (s.modify id f).get j = if id = j then f (s.get j) else s.get j := by
  rw [get, get, modify, Array.getElem?_modify, Array.getElem?_eq_getElem hj]
  split <;> rfl

theorem functions_post (s : Scopes) (id : ScopeId) (p : Posting) :
    (s.modify id (·.post p)).functions = s.functions := by
  rw [functions_eq, s.headers_modify _ fun scope => scope.header_post p, ← functions_eq]

/-- A posting to one scope. -/
theorem Holds.post (h : s.Holds posted) (hs : Nests m s) (hr : s.Recorded Name Value)
    {scope : Option NodeId} (hscope : scope ∈ s.functions) (p : Posting) :
    (s.modify (s.idOf scope) (·.post p)).Holds
      fun g => posted g ++ if scope = g then [p] else [] := by
  have hfunctions := s.functions_post (s.idOf scope) p
  constructor
  · rw [hfunctions]
    intro g hg name keys
    rw [idOf_congr hfunctions, get_modify _ (idOf_lt hs.head hg)]
    by_cases hscope_eq : scope = g
    · subst hscope_eq
      rw [if_pos rfl, if_pos rfl, Scope.valuesAt?_post (hr.get _), Posting.collected_concat,
        h.known scope hg]
    · rw [if_neg (mt (idOf_inj hs.head hscope hg).1 hscope_eq), if_neg hscope_eq, List.append_nil]
      exact h.known g hg name keys
  · rw [hfunctions]
    intro g hg
    have hne : scope ≠ g := fun heq => hg (heq ▸ hscope)
    rw [h.fresh g hg, if_neg hne, List.append_nil]

/-- A scope that is opened holds nothing. -/
theorem Holds.opens (h : s.Holds posted) (hs : Nests m s) {f : NodeId}
    (hf : some f ∉ s.functions) (enclosing : Option NodeId) :
    (hoist m s (.opens enclosing f)).Holds posted := by
  constructor
  · rw [functions_opens]
    intro g hg name keys
    obtain hg | hg := List.mem_append.1 hg
    · have hlt := idOf_lt hs.head hg
      rw [idOf_hoist hs.head hg, ← h.known g hg, get, get, hoist, Array.getElem?_push_lt hlt,
        Array.getElem?_eq_getElem hlt]
    · obtain rfl := List.mem_singleton.1 hg
      rw [idOf_opens hs.head hf, h.fresh _ hf, get, hoist, Array.getElem?_push_size]
      rfl
  · rw [functions_opens]
    exact fun g hg => h.fresh g fun hmem => hg (List.mem_append_left _ hmem)

/-- Collecting a declaration. -/
theorem Holds.hoist (h : s.Holds posted) (hs : Nests m s) (hr : s.Recorded Name Value)
    {e : ScopeEvent} (hscope : e.scope ∈ s.functions)
    (hfresh : ∀ f ∈ e.opened?, some f ∉ s.functions) :
    (hoist m s e).Holds fun g => posted g ++ (e.declared? g).toList := by
  match e with
  | .opens enclosing function =>
    exact (h.opens hs (hfresh function rfl) enclosing).congr fun g => List.append_nil _
  | .declares scope name none =>
    refine (h.post hs hr hscope (.declared name)).congr fun g => congrArg _ ?_
    by_cases hg : scope = g <;>
      simp [ScopeEvent.declared?, ScopeEvent.scope, hg, Posting.ofDeclaration]
  | .declares scope name (some value) =>
    refine (h.post hs hr hscope (.given name [] value)).congr fun g => congrArg _ ?_
    by_cases hg : scope = g <;>
      simp [ScopeEvent.declared?, ScopeEvent.scope, hg, Posting.ofDeclaration]
  | .assigns scope target value => exact h.congr fun g => List.append_nil _

theorem Holds.foldl_hoist (h : s.Holds posted) (hs : Nests m s) (hr : s.Recorded Name Value)
    {events : List ScopeEvent} (hg : Grounded s.functions events)
    (hplace : ∀ e ∈ events, ∀ f ∈ e.opened?, e.scope = m.functionAround? f)
    (hbrings : ∀ e ∈ events, e.Brings m Name Value) :
    (events.foldl (Scopes.hoist m) s).Holds
      fun g => posted g ++ events.filterMap (ScopeEvent.declared? g) := by
  induction events generalizing s posted with
  | nil => simpa using h
  | cons e events ih =>
    obtain ⟨hscope, hfresh, hg⟩ := hg
    obtain ⟨he, hplace⟩ := List.forall_mem_cons.1 hplace
    obtain ⟨hb, hbrings⟩ := List.forall_mem_cons.1 hbrings
    rw [← functions_hoist (m := m)] at hg
    refine (ih (h.hoist hs hr hscope hfresh) (hs.hoist hscope hfresh he) (hr.hoist hb) hg hplace
      hbrings).congr fun g => ?_
    rw [List.append_assoc, List.filterMap_cons]
    cases e.declared? g <;> rfl

/-- An assignment finds its holder if the scopes of functions have no names but those declared. -/
theorem Holds.owner_eq (h : s.Holds posted) (hs : Nests m s) {scope : Option NodeId}
    (hscope : scope ∈ s.functions) {name : String}
    (hknows : ∀ f, (posted (some f)).any (·.name == name) = m.declares (some f) name) :
    ((s.ancestors (s.idOf scope)).find? fun a => NameMap.contains name (s.get a).symbols).getD root
      = s.idOf (m.holder scope name) := by
  have hknown (f : NodeId) (hf : some f ∈ m.enclosing scope) :
      NameMap.contains name (s.get (s.idOf (some f))).symbols = m.declares (some f) name := by
    rw [← hknows f]
    exact Scope.contains_of_valuesAt? (h.known _ (hs.closed scope hscope hf) name [])
  rw [hs.chain scope hscope, List.find?_map,
    ← Module.holder_eq (fun g => NameMap.contains name (s.get (s.idOf g)).symbols) hknown]
  exact Option.getD_map s.idOf none _

/-- Collecting an assignment. -/
theorem Holds.assign (h : s.Holds posted) (hs : Nests m s) (hr : s.Recorded Name Value)
    {e : ScopeEvent} (hscope : e.scope ∈ s.functions)
    (hknows : ∀ f name, (posted (some f)).any (·.name == name) = m.declares (some f) name) :
    (assign m s e).Holds fun g => posted g ++ (e.assigned? m g).toList := by
  match e with
  | .opens enclosing function => exact h.congr fun g => List.append_nil _
  | .declares scope name value => exact h.congr fun g => List.append_nil _
  | .assigns scope target value =>
    rw [Scopes.assign]
    split
    · rename_i name keys hpath
      have hscope : scope ∈ s.functions := hscope
      have hholder := hs.closed scope hscope (Module.holder_mem_enclosing scope name)
      rw [h.owner_eq hs hscope fun f => hknows f name]
      refine (h.post hs hr hholder (.given name keys value)).congr fun g => congrArg _ ?_
      by_cases hg : m.holder scope name = g <;> simp [ScopeEvent.assigned?, hpath, hg]
    · rename_i hnot
      refine h.congr fun g => ?_
      rw [ScopeEvent.assigned?]
      split
      · rename_i hpath
        exact absurd hpath (hnot _ _)
      · exact List.append_nil _

theorem Holds.foldl_assign (h : s.Holds posted) (hs : Nests m s) (hr : s.Recorded Name Value)
    {events : List ScopeEvent} (hscope : ∀ e ∈ events, e.scope ∈ s.functions)
    (hbrings : ∀ e ∈ events, e.Brings m Name Value)
    (hknows : ∀ f name, (posted (some f)).any (·.name == name) = m.declares (some f) name) :
    (events.foldl (Scopes.assign m) s).Holds
      fun g => posted g ++ events.filterMap (ScopeEvent.assigned? m g) := by
  induction events generalizing s posted with
  | nil => simpa using h
  | cons e events ih =>
    obtain ⟨he, hscope⟩ := List.forall_mem_cons.1 hscope
    obtain ⟨hb, hbrings⟩ := List.forall_mem_cons.1 hbrings
    rw [← s.functions_assign (m := m) e] at hscope
    refine (ih (h.assign hs hr he hknows) (hs.assign e) (hr.assign hb) hscope hbrings
      fun f name => ?_).congr fun g => ?_
    · -- what an assignment brings to a function's scope is a name declared there
      rw [List.any_append, hknows]
      cases hposting : e.assigned? m (some f) with
      | none => exact Bool.or_false _
      | some p =>
        have hdeclares : m.declares (some f) p.name = true := e.declares_of_assigned? hposting
        by_cases hname : p.name = name
        · simp [← hname, hdeclares]
        · simp [hname]
    · rw [List.append_assoc, List.filterMap_cons]
      cases e.assigned? m g <;> rfl

theorem functions_foldl_assign (s : Scopes) (events : List ScopeEvent) :
    (events.foldl (Scopes.assign m) s).functions = s.functions := by
  induction events generalizing s with
  | nil => rfl
  | cons e events ih => exact (ih _).trans (s.functions_assign e)

end Scopes

/-! ### The postings of a module -/

namespace Script.Module

variable {m : Module}

/-- What comes of the declaration and of the assignment at a node. -/
theorem filterMap_eventsAt {α : Type} (k : ScopeEvent → Option α)
    (hopens : ∀ enclosing f, k (.opens enclosing f) = none) (n : NodeId) :
    (m.eventsAt n).filterMap k
      = ((m.declaration? n).bind fun d => k (.declares (m.functionAround? n) d.1 d.2)).toList
        ++ ((m.assigned? n).bind fun a => k (.assigns (m.functionAround? n) a.1 a.2)).toList := by
  have htoList {β : Type} (o : Option β) (e : β → ScopeEvent) :
      (o.map e).toList.filterMap k = (o.bind fun b => k (e b)).toList := by
    cases o with
    | none => rfl
    | some b => cases hk : k (e b) <;> simp [hk]
  have hfunction : (if m.isFunction n then [ScopeEvent.opens (m.functionAround? n) n]
      else []).filterMap k = [] := by
    split <;> simp [hopens]
  rw [eventsAt, List.filterMap_append, List.filterMap_append, htoList, htoList, hfunction,
    List.append_nil]

/-- The declarations of a scope, out of the events of nodes. -/
theorem filterMap_declared? (g : Option NodeId) (nodes : List NodeId) :
    (nodes.flatMap m.eventsAt).filterMap (ScopeEvent.declared? g)
      = (nodes.filterMap fun n => if m.functionAround? n = g then m.declaration? n else none).map
          fun d => .ofDeclaration d.1 d.2 := by
  rw [List.filterMap_flatMap, List.map_filterMap, List.filterMap_eq_flatMap_toList]
  refine List.flatMap_congr fun n _ => ?_
  rw [filterMap_eventsAt _ fun _ _ => rfl]
  have hnone : ((m.assigned? n).bind fun a => ScopeEvent.declared? g
      (.assigns (m.functionAround? n) a.1 a.2)) = none := by
    cases m.assigned? n <;> rfl
  rw [hnone]
  by_cases hscope : m.functionAround? n = g <;> cases m.declaration? n <;>
    simp [ScopeEvent.declared?, hscope]

/-- The assignments that belong to a scope, out of the events of nodes. -/
theorem filterMap_assigned? (g : Option NodeId) (nodes : List NodeId) :
    (nodes.flatMap m.eventsAt).filterMap (ScopeEvent.assigned? m g)
      = (nodes.filterMap fun n =>
          (m.assignment? n).filter fun a => m.holder (m.functionAround? n) a.1 = g).map
          fun a => .given a.1 a.2.keys a.2.value := by
  rw [List.filterMap_flatMap, List.map_filterMap, List.filterMap_eq_flatMap_toList]
  refine List.flatMap_congr fun n _ => ?_
  rw [filterMap_eventsAt _ fun _ _ => rfl, assignment?]
  have hnone : ((m.declaration? n).bind fun d => ScopeEvent.assigned? m g
      (.declares (m.functionAround? n) d.1 d.2)) = none := by
    cases m.declaration? n <;> rfl
  rw [hnone]
  cases m.assigned? n with
  | none => rfl
  | some a =>
    rw [Option.bind_some, Option.bind_some, ScopeEvent.assigned?]
    cases m.targetPath? a.1 with
    | none => rfl
    | some path =>
      cases path with
      | nil => rfl
      | cons name keys =>
        by_cases hholder : m.holder (m.functionAround? n) name = g <;>
          simp [Option.filter_some, hholder]

namespace WellFormed

variable (h : m.WellFormed) {items : List NodeId} (hroot : m.form m.root = .program items)
include h hroot

theorem functionAround?_mem_functions (n : NodeId) :
    m.functionAround? n ∈ (Scopes.ofModule m).functions := by
  cases hf : m.functionAround? n with
  | none => exact List.mem_of_mem_head? (h.nests_scopes hroot).head
  | some f => exact (h.some_mem_functions hroot).2 (h.of_functionAround? hf).1

theorem holds_scopes : (Scopes.ofModule m).Holds m.postings := by
  have hplace : ∀ e ∈ m.scopeEvents none m.root,
      (∃ n, e.scope = m.functionAround? n) ∧ ∀ f ∈ e.opened?, e.scope = m.functionAround? f := by
    rw [h.scopeEvents_root hroot]
    intro e he
    obtain ⟨n, -, he⟩ := List.mem_flatMap.1 he
    obtain ⟨hscope, hopened⟩ := scope_of_mem_eventsAt he
    exact ⟨⟨n, hscope⟩, fun f hf => by rw [hopened f hf, hscope]⟩
  have hbrings := h.brings_scopeEvents none (n := m.root)
  have hgrounded := h.grounded_scopeEvents hroot
  have hprogram : (Scopes.ofProgram m).Holds fun _ => [] := by
    refine ⟨fun g hg name keys => ?_, fun g hg => rfl⟩
    obtain rfl := List.mem_singleton.1 hg
    rfl
  have hrecorded : (Scopes.ofProgram m).Recorded IsName m.IsValue := Scopes.recorded_ofProgram m
  have hnests := Scopes.Nests.foldl_hoist .ofProgram hgrounded fun e he => (hplace e he).2
  have hdeclared : ((m.scopeEvents none m.root).foldl (Scopes.hoist m) (Scopes.ofProgram m)).Holds
      fun g => (m.declarations g).map fun d => .ofDeclaration d.1 d.2 := by
    refine (hprogram.foldl_hoist .ofProgram hrecorded hgrounded (fun e he => (hplace e he).2)
      hbrings).congr fun g => ?_
    rw [h.scopeEvents_root hroot, filterMap_declared?]
    rfl
  refine (hdeclared.foldl_assign hnests (hrecorded.foldl_hoist hbrings) (fun e he => ?_) hbrings
    fun f name => ?_).congr fun g => ?_
  · obtain ⟨⟨n, hscope⟩, -⟩ := hplace e he
    rw [hscope, ← Scopes.functions_foldl_assign]
    exact h.functionAround?_mem_functions hroot n
  · simp [declares, Function.comp_def]
  · rw [h.scopeEvents_root hroot, filterMap_assigned?]
    rfl

end WellFormed

/-! ### The symbols of a scope -/

/-- The values of the declarations of a name, in the order of the text. -/
def declaredValues (m : Module) (g : Option NodeId) (name : String) : List NodeId :=
  (m.declarations g).filterMap fun d => if d.1 = name then d.2 else none

/-- The right sides of the assignments that lead to a property, in the order of the text. -/
def assignedValues (m : Module) (g : Option NodeId) (name : String) (keys : List String) :
    List NodeId :=
  (m.assignments g).filterMap fun a =>
    if a.1 = name ∧ a.2.keys = keys then some a.2.value else none

theorem filterMap_valueAt?_postings (g : Option NodeId) (name : String) (keys : List String) :
    (m.postings g).filterMap (Posting.valueAt? name keys)
      = (if keys = [] then m.declaredValues g name else []) ++ m.assignedValues g name keys := by
  rw [postings, List.filterMap_append, List.filterMap_map, List.filterMap_map]
  congr 1
  split
  · rename_i hkeys
    refine List.filterMap_congr fun d _ => ?_
    obtain ⟨name', value⟩ := d
    cases value <;> simp [Posting.ofDeclaration, Posting.valueAt?, hkeys]
  · rename_i hkeys
    refine List.filterMap_eq_nil_iff.2 fun d _ => ?_
    obtain ⟨name', value⟩ := d
    cases value <;> simp [Posting.ofDeclaration, Posting.valueAt?, Ne.symm hkeys]

theorem any_reaches_postings (g : Option NodeId) (name : String) (keys : List String) :
    (m.postings g).any (Posting.reaches name keys) = true ↔
      keys = [] ∧ m.declares g name = true ∨
        ∃ a ∈ m.assignments g, a.1 = name ∧ keys <+: a.2.keys := by
  simp only [postings, List.any_append, Bool.or_eq_true, List.any_map, List.any_eq_true,
    Function.comp_apply, Posting.reaches, Posting.name_ofDeclaration, Posting.keys_ofDeclaration,
    Bool.and_eq_true, beq_iff_eq, List.isPrefixOf_iff_prefix, List.prefix_nil, Posting.name_given,
    Posting.keys_given, declares]
  refine or_congr_left ?_
  constructor
  · rintro ⟨d, hd, hname, hnil⟩
    exact ⟨hnil, d, hd, hname⟩
  · rintro ⟨hnil, d, hd, hname⟩
    exact ⟨d, hd, hname, hnil⟩

/-- An assignment to the program's scope is one that no scope around it declares, unless the program
does. -/
theorem declares_none_or_of_holder {scope : Option NodeId} {name : String}
    (h : m.holder scope name = none) :
    m.declares none name = true ∨ ∀ g ∈ m.enclosing scope, m.declares g name = false := by
  rw [holder] at h
  cases hfind : (m.enclosing scope).find? (m.declares · name) with
  | none =>
    refine .inr fun g hg => ?_
    rw [Bool.eq_false_iff]
    exact List.find?_eq_none.1 hfind g hg
  | some g =>
    rw [hfind] at h
    obtain rfl : g = none := h
    exact .inl (List.find?_some (p := (m.declares · name)) hfind)

theorem holder_eq_none {scope : Option NodeId} {name : String}
    (h : ∀ g ∈ m.enclosing scope, m.declares g name = false) : m.holder scope name = none := by
  have hnone : (m.enclosing scope).find? (m.declares · name) = none :=
    List.find?_eq_none.2 fun g hg => by simp [h g hg]
  rw [holder, hnone]
  rfl

theorem mem_assignments_iff (h : m.WellFormed) {g : Option NodeId} {a : String × KeyedValue} :
    a ∈ m.assignments g ↔
      ∃ n, m.assignment? n = some a ∧ m.holder (m.functionAround? n) a.1 = g := by
  simp only [assignments, List.mem_filterMap, Option.filter_eq_some_iff, decide_eq_true_eq]
  refine exists_congr fun n => and_iff_right_of_imp fun ⟨ha, _⟩ => ?_
  obtain ⟨⟨lhs, rhs⟩, hassigned, -⟩ := Option.bind_eq_some_iff.1 ha
  refine mem_preorder_iff.2 (h.under_root ?_)
  rw [assigned?] at hassigned
  split at hassigned
  · rename_i lhs rhs hform
    exact lt_size_of_mem_children (c := lhs) (by rw [children, hform]; simp [Form.children])
  · cases hassigned

namespace WellFormed

variable (h : m.WellFormed) {items : List NodeId} (hroot : m.form m.root = .program items)
  {g : Option NodeId} (hg : g ∈ (Scopes.ofModule m).functions) (name : String)
include h hroot hg

theorem map_values_at? (keys : List String) :
    (((Scopes.ofModule m).get ((Scopes.ofModule m).idOf g)).at? name keys).map Collection.values
      = Posting.collected (m.postings g) name keys := by
  rw [← Scope.valuesAt?_eq]
  exact (h.holds_scopes hroot).known g hg name keys

theorem isSome_at?_iff (keys : List String) :
    (((Scopes.ofModule m).get ((Scopes.ofModule m).idOf g)).at? name keys).isSome = true ↔
      keys = [] ∧ m.declares g name = true ∨
        ∃ a ∈ m.assignments g, a.1 = name ∧ keys <+: a.2.keys := by
  rw [← any_reaches_postings, ← Option.isSome_map, h.map_values_at? hroot hg, Posting.collected]
  split <;> simp_all

theorem contains_symbols_iff :
    NameMap.contains name ((Scopes.ofModule m).get ((Scopes.ofModule m).idOf g)).symbols = true ↔
      m.declares g name = true ∨ ∃ a ∈ m.assignments g, a.1 = name := by
  have hiff := h.isSome_at?_iff hroot hg name []
  simpa [Scope.at?, Collection.at?, NameMap.contains] using hiff

variable {name}

theorem values_of_at? {keys : List String} {c : Collection}
    (hc : ((Scopes.ofModule m).get ((Scopes.ofModule m).idOf g)).at? name keys = some c) :
    c.values = ((if keys = [] then m.declaredValues g name else [])
      ++ m.assignedValues g name keys).eraseDups := by
  rw [← filterMap_valueAt?_postings, ← Posting.getD_collected, ← h.map_values_at? hroot hg, hc]
  rfl

omit hroot hg in
theorem path_of_at? {id : ScopeId} {keys : List String} {c : Collection}
    (hc : ((Scopes.ofModule m).get id).at? name keys = some c) :
    c.path = ".".intercalate (name :: keys) := by
  obtain ⟨c', hget, hc⟩ := Option.bind_eq_some_iff.1 hc
  obtain ⟨hname, hrecorded⟩ :=
    (h.recorded_scopes.get _).symbols _ (NameMap.mem_of_get?_eq_some hget)
  refine hrecorded.path_at? (fun hempty => hname.ne_nil ?_) hc
  rw [hempty]
  rfl

end WellFormed

end Script.Module

namespace Scopes

/-- The scope of a function has the names that its parameters and the nodes right inside it declare,
and the program's scope also the names of assignments that no scope around them declares. The right
side of an assignment is with its name and keys in the nearest scope that declares the name, else in
the program's. A collection holds the values of its declarations and then the right sides of its
assignments, both in the order of the text and without repetition, and its path are the names that
lead to it. -/
theorem symbols_are_declared_or_leaked {cs : List Char} {m : Module}
    (h : Module.ofText cs = .ok m) :
    (∀ f, m.isFunction f = true → ∀ name,
      NameMap.contains name ((ofModule m).get ((ofModule m).idOf (some f))).symbols = true ↔
        m.declares (some f) name = true) ∧
    (∀ name, NameMap.contains name ((ofModule m).get root).symbols = true ↔
      m.declares none name = true ∨ ∃ n a, m.assignment? n = some a ∧ a.1 = name ∧
        ∀ g ∈ m.enclosing (m.functionAround? n), m.declares g name = false) ∧
    (∀ n a, m.assignment? n = some a → ∃ c,
      ((ofModule m).get ((ofModule m).idOf (m.holder (m.functionAround? n) a.1))).at? a.1 a.2.keys
        = some c ∧ a.2.value ∈ c.values) ∧
    ∀ g, (∀ f, g = some f → m.isFunction f = true) → ∀ name keys,
      ((((ofModule m).get ((ofModule m).idOf g)).at? name keys).isSome = true ↔
        keys = [] ∧ m.declares g name = true ∨
          ∃ a ∈ m.assignments g, a.1 = name ∧ keys <+: a.2.keys) ∧
      ∀ c, ((ofModule m).get ((ofModule m).idOf g)).at? name keys = some c →
        c.path = ".".intercalate (name :: keys) ∧
        c.values = ((if keys = [] then m.declaredValues g name else [])
          ++ m.assignedValues g name keys).eraseDups := by
  have hformed := Module.wellFormed_of_ofText h
  obtain ⟨items, hroot⟩ := Module.form_root_of_ofText h
  have hs := hformed.nests_scopes hroot
  have hnone : none ∈ (ofModule m).functions := List.mem_of_mem_head? hs.head
  refine ⟨fun f hf name => ?_, fun name => ?_, fun n a ha => ?_, fun g hg name keys => ?_⟩
  · rw [hformed.contains_symbols_iff hroot ((hformed.some_mem_functions hroot).2 hf)]
    refine or_iff_left_of_imp ?_
    rintro ⟨a, ha, rfl⟩
    obtain ⟨n, -, hholder⟩ := (Module.mem_assignments_iff hformed).1 ha
    exact Module.declares_of_holder hholder
  · refine (hformed.contains_symbols_iff hroot hnone name).trans ⟨?_, ?_⟩
    · rintro (hdeclares | ⟨a, ha, rfl⟩)
      · exact .inl hdeclares
      · obtain ⟨n, ha, hholder⟩ := (Module.mem_assignments_iff hformed).1 ha
        exact (Module.declares_none_or_of_holder hholder).imp_right
          fun hall => ⟨n, a, ha, rfl, hall⟩
    · rintro (hdeclares | ⟨n, a, ha, rfl, hall⟩)
      · exact .inl hdeclares
      · exact .inr
          ⟨a, (Module.mem_assignments_iff hformed).2 ⟨n, ha, Module.holder_eq_none hall⟩, rfl⟩
  · have hscope := hformed.functionAround?_mem_functions hroot n
    have hholder := hs.closed _ hscope (Module.holder_mem_enclosing _ a.1)
    have hmem := (Module.mem_assignments_iff hformed).2 ⟨n, ha, rfl⟩
    obtain ⟨c, hc⟩ := Option.isSome_iff_exists.1
      ((hformed.isSome_at?_iff hroot hholder a.1 a.2.keys).2
        (.inr ⟨a, hmem, rfl, List.prefix_rfl⟩))
    refine ⟨c, hc, ?_⟩
    rw [hformed.values_of_at? hroot hholder hc, List.mem_eraseDups]
    exact List.mem_append_right _ (List.mem_filterMap.2 ⟨a, hmem, by simp⟩)
  · have hknown : g ∈ (ofModule m).functions := by
      cases g with
      | none => exact hnone
      | some f => exact (hformed.some_mem_functions hroot).2 (hg f rfl)
    exact ⟨hformed.isSome_at?_iff hroot hknown name keys, fun c hc =>
      ⟨hformed.path_of_at? hc, hformed.values_of_at? hroot hknown hc⟩⟩

/-- A property of a name that no scope declares is collected in the program's scope, also if the
assignment stands in a function. -/
theorem property_of_undeclared_name_leaks : ∃ m : Module,
    Module.ofText "function f() \x7b x.y = 1; var a; a.b = 2; \x7d a = 3;".toList = .ok m ∧
      ¬NameMap.contains "x" ((ofModule m).get ((ofModule m).idOf (some 14))).symbols = true ∧
      ∃ c, ((ofModule m).get root).at? "x" ["y"] = some c ∧ 3 ∈ c.values ∧ c.path = "x.y" := by
  obtain ⟨m, hm, hfunction, hassignment, hdeclares, hholder⟩ := Module.exists_ofText
    "function f() \x7b x.y = 1; var a; a.b = 2; \x7d a = 3;"
    (fun m => m.isFunction 14 = true ∧ m.assignment? 4 = some ("x", ⟨["y"], 3⟩) ∧
      m.declares (some 14) "x" = false ∧ m.holder (m.functionAround? 4) "x" = none)
    (by decide +kernel)
  obtain ⟨hnames, -, hassigned, hcollections⟩ := symbols_are_declared_or_leaked hm
  obtain ⟨c, hc, hvalue⟩ := hassigned 4 _ hassignment
  rw [hholder] at hc
  refine ⟨m, hm, ?_, c, hc, hvalue, ((hcollections none (fun _ hf => nomatch hf) _ _).2 c hc).1⟩
  rw [hnames 14 hfunction, hdeclares]
  exact Bool.false_ne_true

end Scopes

end ScriptTypes
