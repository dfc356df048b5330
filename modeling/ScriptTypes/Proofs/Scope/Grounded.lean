import ScriptTypes.Proofs.Scope.Opened
import ScriptTypes.Proofs.Script.Around

/-!
# Scope events node by node

The events of a module are those of its nodes in the order of the text, each in the scope of the
nearest function around its node. A function stands before what is below it, so when something
happens in a scope, the scope has been opened, and no scope is opened twice.
-/

namespace ScriptTypes

open Script (Form Module NodeId Place)

namespace Script.Module

variable {m : Module}

/-- Is a node one of the parameters of a function? -/
def isParameter (m : Module) (n : NodeId) : Bool :=
  (m.parent? n).any fun p => match m.form p with
    | .parameters _ => true
    | _ => false

theorem isParameter_iff {n : NodeId} :
    m.isParameter n = true ↔ ∃ p items, m.parent? n = some p ∧ m.form p = .parameters items := by
  simp only [isParameter, Option.any_eq_true]
  constructor
  · rintro ⟨p, hp, hparameters⟩
    cases hform : m.form p with
    | parameters items => exact ⟨p, items, hp, hform⟩
    | _ => rw [hform] at hparameters; cases hparameters
  · rintro ⟨p, items, hp, hform⟩
    exact ⟨p, hp, by rw [hform]⟩

/-- The name that a node declares in the scope around it, with its value: declarations, the
parameters of handlers and of functions, and functions with a name. -/
def declaration? (m : Module) (n : NodeId) : Option (String × Option NodeId) :=
  match m.form n with
  | .declaration name _ value => some (name, value)
  | .handler param _ => some (param, none)
  | .function (some name) _ _ _ => some (name, some n)
  | .identifier name => if m.isParameter n then some (name, some n) else none
  | _ => none

/-- The two sides of a plain assignment. -/
def assigned? (m : Module) (n : NodeId) : Option (NodeId × NodeId) :=
  match m.form n with
  | .assign .plain lhs rhs => some (lhs, rhs)
  | _ => none

/-- What a node does to the scopes. -/
def eventsAt (m : Module) (n : NodeId) : List ScopeEvent :=
  ((m.declaration? n).map fun d => .declares (m.functionAround? n) d.1 d.2).toList
    ++ (if m.isFunction n then [.opens (m.functionAround? n) n] else [])
    ++ ((m.assigned? n).map fun a => .assigns (m.functionAround? n) a.1 a.2).toList

/-! ### The events of a module -/

theorem eventsAt_of_function {n params body : NodeId} {name : Option String}
    {docs : Option Doc.Block} (hn : m.form n = .function name docs params body) :
    m.eventsAt n = (name.toList.map fun name => .declares (m.functionAround? n) name (some n))
      ++ [.opens (m.functionAround? n) n] := by
  cases name <;> simp [eventsAt, declaration?, assigned?, isFunction, hn]

theorem eventsAt_of_parameters {n : NodeId} {items : List NodeId}
    (hn : m.form n = .parameters items) : m.eventsAt n = [] := by
  simp [eventsAt, declaration?, assigned?, isFunction, hn]

/-- Except for functions and parameters, a node's events are those that it has in its scope. -/
theorem eventsAt_eq_ownEvents {n : NodeId}
    (hn : ∀ name docs params body, m.form n ≠ .function name docs params body)
    (hparameter : m.isParameter n = false) :
    m.eventsAt n = m.ownEvents (m.functionAround? n) n := by
  rw [eventsAt, declaration?, assigned?, isFunction, ownEvents]
  cases hform : m.form n with
  | function name docs params body => exact absurd hform (hn name docs params body)
  | assign op lhs rhs => cases op <;> rfl
  | identifier name => simp [hparameter]
  | _ => rfl

namespace WellFormed

variable (h : m.WellFormed)
include h

/-- Parameters are the child of a function. -/
theorem eq_function_of_parameters {c n : NodeId} {items : List NodeId} (hc : c ∈ m.children n)
    (hparams : m.form c = .parameters items) :
    ∃ name docs body, m.form n = .function name docs c body := by
  have hplaced := h.admits (Module.lt_size_of_mem_children hc)
  rw [Module.children, ← Form.map_snd_parts] at hc
  obtain ⟨⟨place, c⟩, hpart, rfl⟩ := List.mem_map.1 hc
  have hplace := hplaced _ hpart
  rw [hparams] at hplace
  obtain rfl : place = .parameters := by cases place <;> first | rfl | cases hplace
  cases hform : m.form n with
  | function name docs params body =>
    rw [hform] at hpart
    obtain rfl : c = params := by simpa [Form.parts] using hpart
    exact ⟨name, docs, body, rfl⟩
  | _ => rw [hform] at hpart; simp [Form.parts] at hpart

theorem flatMap_eventsAt_parameters {n params body : NodeId} {name : Option String}
    {docs : Option Doc.Block} (hn : m.form n = .function name docs params body) :
    (m.preorder params).flatMap m.eventsAt = m.parameterEvents n params := by
  obtain ⟨hchildren, items, hparams, hitems⟩ := h.children_of_function hn
  have hparam : params ∈ m.children n := by simp [hchildren]
  have haround : m.functionAround? params = some n := by
    rw [h.functionAround?_of_mem_children hparam, if_pos (isFunction_iff.2 ⟨_, _, _, _, hn⟩)]
  rw [Module.preorder_parameters hparams hitems, List.flatMap_cons, eventsAt_of_parameters hparams,
    List.nil_append, parameterEvents, hparams]
  refine Eq.trans ?_ (List.filterMap_eq_flatMap_toList _ _).symm
  refine List.flatMap_congr fun p hp => ?_
  obtain ⟨word, hword⟩ := hitems p hp
  have hp : p ∈ m.children params := by rwa [Module.children, hparams]
  have hparameter : m.isParameter p = true :=
    isParameter_iff.2 ⟨params, items, (parent?_eq_some_iff h.children).2 hp, hparams⟩
  have haround : m.functionAround? p = some n := by
    rw [h.functionAround?_of_mem_children hp, haround]
    simp [isFunction, hparams]
  simp [eventsAt, declaration?, assigned?, isFunction, identifier?, hword, hparameter, haround]

/-- The events at and below a node, node by node in the order of the text. -/
theorem scopeEvents_eq {n : NodeId} (hparameter : m.isParameter n = false)
    (hn : ∀ items, m.form n ≠ .parameters items) :
    m.scopeEvents (m.functionAround? n) n = (m.preorder n).flatMap m.eventsAt := by
  induction n using Nat.strongRecOn with
  | ind n ih =>
    -- a child of anything but parameters is no parameter
    have hchild {c : Nat} (hc : c ∈ m.children n) : m.isParameter c = false := by
      rw [Bool.eq_false_iff, Ne, isParameter_iff]
      rintro ⟨p, items, hp, hform⟩
      obtain rfl := eq_of_mem_children h.children hc (mem_children_of_parent? hp)
      exact hn items hform
    rw [scopeEvents]
    split
    · rename_i name docs params body hform
      obtain ⟨hchildren, -⟩ := h.children_of_function hform
      have hbody : body ∈ m.children n := by simp [hchildren]
      have haround : m.functionAround? body = some n := by
        rw [h.functionAround?_of_mem_children hbody, if_pos (isFunction_iff.2 ⟨_, _, _, _, hform⟩)]
      obtain ⟨-, -, ⟨items, hblock⟩, -⟩ := h.bodyOf_of_function hform
      have hevents := ih body (m.lt_of_mem_children hbody) (hchild hbody) (by simp [hblock])
      rw [haround] at hevents
      rw [preorder_eq, hchildren, List.flatMap_cons, eventsAt_of_function hform, hevents,
        ← h.flatMap_eventsAt_parameters hform]
      simp
    · rename_i hfunction
      have haround {c : NodeId} (hc : c ∈ m.children n) :
          m.functionAround? n = m.functionAround? c := by
        rw [h.functionAround?_of_mem_children hc, if_neg]
        rw [isFunction_iff]
        exact fun ⟨name, docs, params, body, hform⟩ => hfunction name docs params body hform
      rw [preorder_eq, List.flatMap_cons, List.flatMap_assoc, eventsAt_eq_ownEvents hfunction hparameter]
      congr 1
      rw [List.flatMap_subtype (g := m.scopeEvents (m.functionAround? n)) fun c hc => rfl,
        List.unattach_attach]
      refine List.flatMap_congr fun c hc => ?_
      rw [haround hc]
      refine ih c (m.lt_of_mem_children hc) (hchild hc) fun items hparams => ?_
      obtain ⟨name, docs, body, hform⟩ := h.eq_function_of_parameters hc hparams
      exact hfunction _ _ _ _ hform

end WellFormed

end Script.Module

/-! ### Scopes are opened before they are used -/

/-- The scope in which an event happens. -/
def ScopeEvent.scope : ScopeEvent → Option NodeId
  | opens enclosing _ => enclosing
  | declares scope _ _ | assigns scope _ _ => scope

/-- Each event happens in a scope that is known by then, and opens one that is not. -/
def Grounded : (known : List (Option NodeId)) → List ScopeEvent → Prop
  | _, [] => True
  | known, e :: events =>
    e.scope ∈ known ∧ (∀ f ∈ e.opened?, some f ∉ known) ∧
      Grounded (known ++ (e.opened?.map some).toList) events

theorem grounded_append {known : List (Option NodeId)} {events events' : List ScopeEvent} :
    Grounded known (events ++ events') ↔ Grounded known events ∧
      Grounded (known ++ (events.filterMap ScopeEvent.opened?).map some) events' := by
  induction events generalizing known with
  | nil => simp [Grounded]
  | cons e events ih =>
    rw [List.cons_append, Grounded, ih, Grounded, List.filterMap_cons]
    cases e.opened? <;> simp [and_assoc]

namespace Script.Module

variable {m : Module}

theorem grounded_eventsAt {known : List (Option NodeId)} {n : NodeId}
    (hscope : m.functionAround? n ∈ known) (hn : m.isFunction n = true → some n ∉ known) :
    Grounded known (m.eventsAt n) := by
  rw [eventsAt]
  generalize m.functionAround? n = scope at hscope
  cases m.declaration? n <;> cases m.assigned? n <;> by_cases hfunction : m.isFunction n = true <;>
    simp_all [Grounded, ScopeEvent.scope, ScopeEvent.opened?]

theorem opened_eventsAt (n : NodeId) :
    (m.eventsAt n).filterMap ScopeEvent.opened? = if m.isFunction n then [n] else [] := by
  rw [eventsAt]
  cases m.declaration? n <;> cases m.assigned? n <;> by_cases hfunction : m.isFunction n = true <;>
    simp [hfunction, ScopeEvent.opened?, List.filterMap_cons]

theorem opened_flatMap (nodes : List NodeId) :
    (nodes.flatMap m.eventsAt).filterMap ScopeEvent.opened? = nodes.filter m.isFunction := by
  induction nodes with
  | nil => rfl
  | cons v nodes ih =>
    rw [List.flatMap_cons, List.filterMap_append, ih, opened_eventsAt, List.filter_cons]
    split <;> rfl

namespace WellFormed

variable (h : m.WellFormed)
include h

/-- What comes later in the order of the text is below a node or stands behind its text. -/
theorem pairwise_preorder (n : NodeId) :
    (m.preorder n).Pairwise fun u v => m.Below v u ∨ (m.span u).stop ≤ (m.span v).start := by
  induction n using Nat.strongRecOn with
  | ind n ih =>
    rw [preorder_eq, List.pairwise_cons]
    constructor
    · intro v hv
      obtain ⟨c, hc, hv⟩ := List.mem_flatMap.1 hv
      obtain rfl | hv := mem_preorder_iff.1 hv
      · exact .inl (.child hc)
      · exact .inl (.deeper hv hc)
    · rw [List.pairwise_flatMap]
      refine ⟨fun c hc => ih c (m.lt_of_mem_children hc), ?_⟩
      refine (h.pairwise_children n).imp fun {a b} hab u hu v hv => .inr ?_
      have hu := h.span_of_under (mem_preorder_iff.1 hu)
      have hv := h.span_of_under (mem_preorder_iff.1 hv)
      omega

theorem nodup_preorder (n : NodeId) : (m.preorder n).Nodup := by
  induction n using Nat.strongRecOn with
  | ind n ih =>
    rw [preorder_eq, List.nodup_cons, List.nodup_flatMap]
    refine ⟨fun hn => ?_, fun c hc => ih c (m.lt_of_mem_children hc), ?_⟩
    · obtain ⟨c, hc, hn⟩ := List.mem_flatMap.1 hn
      have hlt := m.lt_of_mem_children hc
      obtain rfl | hn := mem_preorder_iff.1 hn
      · exact Nat.lt_irrefl _ hlt
      · exact Nat.lt_asymm hlt hn.lt
    · refine (h.nodup_children n).imp_of_mem fun hc hc' hne v hv hv' => hne ?_
      exact h.eq_of_under hc hc' (mem_preorder_iff.1 hv) (mem_preorder_iff.1 hv') rfl

/-- In the order of the text, the function around a node comes before the node. -/
theorem mem_of_functionAround? {n f : NodeId} (hf : m.functionAround? n = some f)
    {before after : List NodeId} (hsplit : m.preorder m.root = before ++ n :: after) :
    f ∈ before := by
  obtain ⟨-, hbelow⟩ := h.of_functionAround? hf
  have hspan := h.span_of_below hbelow
  have hlt := hbelow.lt
  have hmem : f ∈ m.preorder m.root := mem_preorder_iff.2 (h.under_root hbelow.lt_size)
  have hpairwise := h.pairwise_preorder m.root
  rw [hsplit] at hmem hpairwise
  obtain hmem | hmem := List.mem_append.1 hmem
  · exact hmem
  · obtain rfl | hmem := List.mem_cons.1 hmem
    · exact absurd hlt (Nat.lt_irrefl _)
    · obtain hafter | hafter :=
        (List.pairwise_cons.1 (List.pairwise_append.1 hpairwise).2.1).1 f hmem
      · exact absurd hafter.lt (Nat.lt_asymm hlt)
      · omega

/-- The events of nodes are grounded if each node stands behind the function around it. -/
theorem grounded_flatMap {known : List (Option NodeId)} {nodes : List NodeId}
    (hnodup : nodes.Nodup) (hfresh : ∀ n ∈ nodes, some n ∉ known)
    (horder : ∀ before n after, nodes = before ++ n :: after →
      m.functionAround? n ∈ known ∨ ∃ f ∈ before, m.functionAround? n = some f) :
    Grounded known (nodes.flatMap m.eventsAt) := by
  induction nodes generalizing known with
  | nil => trivial
  | cons n nodes ih =>
    obtain ⟨hn, hnodup⟩ := List.nodup_cons.1 hnodup
    obtain ⟨hfirst, hfresh⟩ := List.forall_mem_cons.1 hfresh
    have hscope : m.functionAround? n ∈ known := by
      obtain hknown | ⟨f, hf, -⟩ := horder [] n nodes rfl
      · exact hknown
      · cases hf
    rw [List.flatMap_cons, grounded_append, opened_eventsAt]
    refine ⟨grounded_eventsAt hscope fun _ => hfirst, ih hnodup ?_ ?_⟩
    · intro v hv hmem
      obtain hmem | hmem := List.mem_append.1 hmem
      · exact hfresh v hv hmem
      · have heq : v = n := by
          split at hmem
          · simpa using hmem
          · cases hmem
        exact hn (heq ▸ hv)
    · intro before v after hsplit
      obtain hknown | ⟨f, hf, haround⟩ := horder (n :: before) v after (by rw [hsplit]; rfl)
      · exact .inl (List.mem_append_left _ hknown)
      · obtain rfl | hf := List.mem_cons.1 hf
        · refine .inl (List.mem_append_right _ ?_)
          rw [if_pos (h.of_functionAround? haround).1, haround]
          exact List.mem_singleton_self _
        · exact .inr ⟨f, hf, haround⟩

/-- The events of a module, node by node. -/
theorem scopeEvents_root {items : List NodeId} (hroot : m.form m.root = .program items) :
    m.scopeEvents none m.root = (m.preorder m.root).flatMap m.eventsAt := by
  have haround : m.functionAround? m.root = none := by
    rw [functionAround?, functionsAround_root]
    rfl
  have hparent : m.parent? m.root = none := by
    by_contra hsome
    obtain ⟨p, hp⟩ := Option.ne_none_iff_exists'.1 hsome
    have hlt := (exists_mem_children_iff h.children).1 ⟨p, mem_children_of_parent? hp⟩
    exact Nat.lt_irrefl _ hlt
  rw [← h.scopeEvents_eq (n := m.root), haround]
  · rw [isParameter, hparent]
    rfl
  · intro items hform
    cases hroot.symm.trans hform

theorem grounded_scopeEvents {items : List NodeId} (hroot : m.form m.root = .program items) :
    Grounded [none] (m.scopeEvents none m.root) := by
  rw [h.scopeEvents_root hroot]
  refine h.grounded_flatMap (h.nodup_preorder m.root) (by simp) fun before n after hsplit => ?_
  cases hf : m.functionAround? n with
  | none => exact .inl (List.mem_singleton_self _)
  | some f => exact .inr ⟨f, h.mem_of_functionAround? hf hsplit, rfl⟩

end WellFormed

end Script.Module

end ScriptTypes
