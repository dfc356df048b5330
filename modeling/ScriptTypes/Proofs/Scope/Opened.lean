import ScriptTypes.Proofs.Scope.Events

/-!
# One scope for each function

Every function opens its scope once, and the text of the scope is its body, so the texts of the
scopes of a module start at different offsets.
-/

namespace ScriptTypes

open Script (Form Module NodeId)

/-- The function whose scope an event opens. -/
def ScopeEvent.opened? : ScopeEvent → Option NodeId
  | opens _ function => some function
  | _ => none

namespace Script.Module

variable {m : Module}

/-- The functions whose scopes are opened at and below a node. -/
def opened (m : Module) (scope : Option NodeId) (n : NodeId) : List NodeId :=
  (m.scopeEvents scope n).filterMap ScopeEvent.opened?

theorem filterMap_parameterEvents (function params : NodeId) :
    (m.parameterEvents function params).filterMap ScopeEvent.opened? = [] := by
  refine List.filterMap_eq_nil_iff.2 fun e he => ?_
  unfold parameterEvents at he
  split at he
  · obtain ⟨p, -, hp⟩ := List.mem_filterMap.1 he
    obtain ⟨name, -, rfl⟩ := Option.map_eq_some_iff.1 hp
    rfl
  · cases he

theorem filterMap_ownEvents (scope : Option NodeId) (n : NodeId) :
    (m.ownEvents scope n).filterMap ScopeEvent.opened? = [] := by
  unfold ownEvents
  split <;> rfl

theorem opened_of_function {n params body : NodeId} {name : Option String}
    {docs : Option Doc.Block} (h : m.form n = .function name docs params body)
    (scope : Option NodeId) : m.opened scope n = n :: m.opened (some n) body := by
  have hname : (name.toList.map fun name => ScopeEvent.declares scope name (some n)).filterMap
      ScopeEvent.opened? = [] := by
    cases name <;> rfl
  rw [opened, scopeEvents]
  split
  · rename_i heq
    cases h.symm.trans heq
    rw [List.filterMap_append, List.filterMap_append, hname, List.nil_append, List.filterMap_cons,
      filterMap_parameterEvents]
    rfl
  · rename_i hnot
    exact absurd h (hnot _ _ _ _)

theorem opened_of_not_function {n : NodeId}
    (h : ∀ name docs params body, m.form n ≠ .function name docs params body)
    (scope : Option NodeId) : m.opened scope n = (m.children n).flatMap (m.opened scope) := by
  rw [opened, scopeEvents]
  split
  · rename_i heq
    exact absurd heq (h _ _ _ _)
  · rw [List.filterMap_append, filterMap_ownEvents, List.nil_append, List.filterMap_flatMap]
    rw [List.flatMap_subtype (g := m.opened scope) fun c hc => rfl, List.unattach_attach]
    rfl

/-- Scopes are opened by functions at and below a node. -/
theorem of_mem_opened {scope : Option NodeId} {f n : NodeId} (h : f ∈ m.opened scope n) :
    m.Under f n ∧ ∃ name docs params body, m.form f = .function name docs params body := by
  induction n using Nat.strongRecOn generalizing scope with
  | ind n ih =>
    by_cases hform : ∃ name docs params body, m.form n = .function name docs params body
    · obtain ⟨name, docs, params, body, hform⟩ := hform
      have hbody : body ∈ m.children n := by rw [children, hform]; simp [Form.children]
      rw [opened_of_function hform] at h
      rcases List.mem_cons.1 h with rfl | h
      · exact ⟨.inl rfl, _, _, _, _, hform⟩
      · obtain ⟨hunder, hfunction⟩ := ih body (m.lt_of_mem_children hbody) h
        exact ⟨under_iff.2 (.inr ⟨body, hbody, hunder⟩), hfunction⟩
    · rw [opened_of_not_function (by simpa using hform)] at h
      obtain ⟨c, hc, h⟩ := List.mem_flatMap.1 h
      obtain ⟨hunder, hfunction⟩ := ih c (m.lt_of_mem_children hc) h
      exact ⟨under_iff.2 (.inr ⟨c, hc, hunder⟩), hfunction⟩

namespace WellFormed

variable (h : m.WellFormed)
include h

/-- A function opens its scope once. -/
theorem nodup_opened (scope : Option NodeId) (n : NodeId) : (m.opened scope n).Nodup := by
  induction n using Nat.strongRecOn generalizing scope with
  | ind n ih =>
    by_cases hform : ∃ name docs params body, m.form n = .function name docs params body
    · obtain ⟨name, docs, params, body, hform⟩ := hform
      have hbody : body ∈ m.children n := by rw [Module.children, hform]; simp [Form.children]
      have hlt : body < n := m.lt_of_mem_children hbody
      rw [opened_of_function hform, List.nodup_cons]
      refine ⟨fun hmem => ?_, ih body hlt _⟩
      rcases (of_mem_opened hmem).1 with rfl | hbelow
      · exact Nat.lt_irrefl _ hlt
      · exact Nat.lt_asymm hlt hbelow.lt
    · rw [opened_of_not_function (by simpa using hform), List.nodup_flatMap]
      refine ⟨fun c hc => ih c (m.lt_of_mem_children hc) _, ?_⟩
      refine (h.nodup_children n).imp_of_mem fun hc hc' hne f hf hf' => hne ?_
      exact h.eq_of_under hc hc' (of_mem_opened hf).1 (of_mem_opened hf').1 rfl

/-- The body of a function is a block behind the beginning of the text. -/
theorem bodyOf_of_function {f : Nat} {name : Option String} {docs : Option Doc.Block}
    {params body : NodeId} (hform : m.form f = .function name docs params body) :
    Scopes.bodyOf m f = body ∧ body ∈ m.children f ∧ (∃ items, m.form body = .block items) ∧
      0 < (m.span body).start := by
  have hbody : body ∈ m.children f := by rw [Module.children, hform]; simp [Form.children]
  have hblock := h.admits (Module.lt_size_of_mem_children hbody) (.block, body)
    (by rw [hform]; simp [Form.parts])
  have hlead : (m.form f).lead = 1 := by rw [hform]; rfl
  have hspan := h.span_of_below (.child hbody)
  refine ⟨by rw [Scopes.bodyOf, hform], hbody, ?_, by omega⟩
  cases hitems : m.form body with
  | block items => exact ⟨items, rfl⟩
  | _ => rw [hitems] at hblock; cases hblock

end WellFormed

end Script.Module

/-! ### The table -/

/-- What a scope keeps when names and values are added to it. -/
def Scope.header (scope : Scope) : Option NodeId × Span := (scope.function, scope.range)

theorem Scope.header_declare (scope : Scope) (name : String) :
    (scope.declare name).header = scope.header := rfl

theorem Scope.header_add (scope : Scope) (name : String) (keys : List String) (value : NodeId) :
    (scope.add name keys value).header = scope.header := rfl

namespace Scopes

variable {m : Module}

def headers (s : Scopes) : List (Option NodeId × Span) := s.table.toList.map Scope.header

theorem headers_modify (s : Scopes) (id : ScopeId) {f : Scope → Scope}
    (hf : ∀ scope, (f scope).header = scope.header) : (s.modify id f).headers = s.headers := by
  refine List.ext_getElem? fun i => ?_
  simp only [headers, modify, List.getElem?_map, Array.getElem?_toList, Array.getElem?_modify]
  split
  · cases s.table[i]? with
    | none => rfl
    | some scope => exact congrArg some (hf scope)
  · rfl

theorem headers_hoist (s : Scopes) (e : ScopeEvent) :
    (hoist m s e).headers
      = s.headers ++ e.opened?.toList.map fun f => (some f, m.range (bodyOf m f)) := by
  match e with
  | .opens enclosing function => simp [hoist, headers, ScopeEvent.opened?, Scope.header]
  | .declares scope name none =>
    rw [hoist, s.headers_modify _ fun scope => scope.header_declare name]
    simp [ScopeEvent.opened?]
  | .declares scope name (some value) =>
    rw [hoist, s.headers_modify _ fun scope => scope.header_add name [] value]
    simp [ScopeEvent.opened?]
  | .assigns scope target value => simp [hoist, ScopeEvent.opened?]

theorem headers_assign (s : Scopes) (e : ScopeEvent) : (assign m s e).headers = s.headers := by
  unfold assign
  split
  · split
    · exact s.headers_modify _ fun scope => scope.header_add _ _ _
    · rfl
  · rfl

/-- The table has a scope for the program and one for each function that opens one. -/
theorem headers_ofModule (m : Module) :
    (ofModule m).headers = (none, m.range m.root)
      :: (m.opened none m.root).map fun f => (some f, m.range (bodyOf m f)) := by
  have hassign (events : List ScopeEvent) (s : Scopes) :
      (events.foldl (assign m) s).headers = s.headers := by
    induction events generalizing s with
    | nil => rfl
    | cons e events ih => exact (ih _).trans (s.headers_assign e)
  have hhoist (events : List ScopeEvent) (s : Scopes) :
      (events.foldl (hoist m) s).headers = s.headers
        ++ (events.filterMap ScopeEvent.opened?).map fun f => (some f, m.range (bodyOf m f)) := by
    induction events generalizing s with
    | nil => simp
    | cons e events ih =>
      rw [List.foldl_cons, ih, headers_hoist, List.filterMap_cons, List.append_assoc]
      cases e.opened? <;> rfl
  rw [ofModule, hassign, hhoist]
  rfl

theorem header_mem_headers {s : Scopes} {id : ScopeId} (h : id < s.table.size) :
    (s.get id).header ∈ s.headers := by
  rw [get, Array.getElem?_eq_getElem h, Option.getD_some]
  exact List.mem_map_of_mem (Array.mem_toList_iff.2 (Array.getElem_mem h))

/-- The text of a scope is that of the program, or the body of a function. -/
theorem start_get (h : m.WellFormed) (hexact : m.Exact) (id : ScopeId) :
    ((ofModule m).get id).range.start = 0 ∨ ∃ body : Nat, ∃ items, body < m.size ∧
      m.form body = .block items ∧ ((ofModule m).get id).range.start = (m.span body).start := by
  by_cases hid : id < (ofModule m).table.size
  · have hheader := header_mem_headers hid
    rw [headers_ofModule] at hheader
    rcases List.mem_cons.1 hheader with heq | hheader
    · refine .inl ((congrArg (·.2.start) heq).trans ?_)
      rw [hexact, h.start]
    · obtain ⟨f, hf, heq⟩ := List.mem_map.1 hheader
      obtain ⟨-, name, docs, params, body, hform⟩ := Module.of_mem_opened hf
      obtain ⟨hbody, hchild, ⟨items, hblock⟩, -⟩ := h.bodyOf_of_function hform
      refine .inr ⟨body, items, h.lt_size_of_mem_children hchild, hblock, ?_⟩
      rw [← hbody, ← hexact]
      exact (congrArg (·.2.start) heq).symm
  · rw [get, Array.getElem?_eq_none (Nat.le_of_not_lt hid)]
    exact .inl rfl

theorem nodup_starts (h : m.WellFormed) (hexact : m.Exact) :
    ((ofModule m).headers.map fun e => e.2.start).Nodup := by
  rw [headers_ofModule, List.map_cons, List.map_map, List.nodup_cons]
  refine ⟨fun hmem => ?_, (h.nodup_opened none m.root).map_on fun f hf f' hf' hstart => ?_⟩
  · obtain ⟨f, hf, hstart⟩ := List.mem_map.1 hmem
    obtain ⟨-, name, docs, params, body, hform⟩ := Module.of_mem_opened hf
    obtain ⟨hbody, -, -, hpos⟩ := h.bodyOf_of_function hform
    simp only [Function.comp_apply, hbody, hexact _, h.start] at hstart
    omega
  · obtain ⟨-, name, docs, params, body, hform⟩ := Module.of_mem_opened hf
    obtain ⟨-, name', docs', params', body', hform'⟩ := Module.of_mem_opened hf'
    obtain ⟨hbody, hchild, ⟨items, hblock⟩, -⟩ := h.bodyOf_of_function hform
    obtain ⟨hbody', hchild', ⟨items', hblock'⟩, -⟩ := h.bodyOf_of_function hform'
    rw [Function.comp_apply, Function.comp_apply, hbody, hbody', hexact, hexact] at hstart
    obtain rfl : body = body' := h.eq_of_start_eq (h.lt_size_of_mem_children hchild)
      (h.lt_size_of_mem_children hchild') (by rw [hblock]; rfl) (by rw [hblock']; rfl) hstart
    exact Module.eq_of_mem_children h.children hchild hchild'

/-- The texts of scopes start at different offsets. -/
theorem eq_of_start_eq (h : m.WellFormed) (hexact : m.Exact) {i j : ScopeId}
    (hi : i < (ofModule m).table.size) (hj : j < (ofModule m).table.size)
    (hstart : ((ofModule m).get i).range.start = ((ofModule m).get j).range.start) : i = j := by
  have hget {id : ScopeId} (hid : id < (ofModule m).table.size) :
      ((ofModule m).headers.map fun e => e.2.start)[id]?
        = some ((ofModule m).get id).range.start := by
    rw [get, Array.getElem?_eq_getElem hid]
    simp [headers, Array.getElem?_eq_getElem hid, Scope.header]
  refine (List.getElem?_inj (by simpa [headers] using hi) (nodup_starts h hexact)).1 ?_
  rw [hget hi, hget hj, hstart]

end Scopes

end ScriptTypes
