import ScriptTypes.Proofs.Scope.Grounded
import ScriptTypes.Script.Values

/-!
# The `return` statements of a function

A `return` statement belongs to the innermost function around it. The search for the statements of a
function goes down from its body and stops at every `return` and at every other function. It misses
nothing by that: what a `return` statement returns is an expression, and an expression has no
statements but those in the bodies of functions that stand in it, which belong to these functions.

The search takes nodes off a stack on which the last child of a node is on top, so it meets the
statements from the last to the first. Sorting them by their stored offsets repairs that: statements
that follow one another in a script start one after the other, and so do a `return` statement and
what it holds.

Main statement: `returns_belong_to_one_function`.
-/

namespace ScriptTypes.Script

namespace Form

variable {α β : Type}

/-- Is the construct an expression or a pair of an object literal? -/
def isValue : Form α → Bool
  | pair .. => true
  | f => f.isExpression

/-- The places of a construct that computes a value, functions apart, are for such constructs. -/
theorem place_of_isValue {f : Form α} (hf : f.isValue = true)
    (hfunction : ∀ name docs params body, f ≠ .function name docs params body) {p : Place × α}
    (hp : p ∈ f.parts) : p.1 = .operand ∨ p.1 = .expression ∨ p.1 = .pair := by
  cases f
  case function name docs params body => exact absurd rfl (hfunction name docs params body)
  case comma items | array items | object items =>
    obtain ⟨t, -, rfl⟩ := List.mem_map.1 hp
    simp
  case construct callee args | invoke callee args =>
    rcases List.mem_cons.1 hp with rfl | hp
    · simp
    · obtain ⟨t, -, rfl⟩ := List.mem_map.1 hp
      simp
  all_goals first
    | exact absurd hf Bool.false_ne_true
    | simp only [parts, List.mem_cons, List.not_mem_nil, or_false] at hp <;> grind

theorem isValue_of_admits {place : Place}
    (hplace : place = .operand ∨ place = .expression ∨ place = .pair) {f : Form α}
    (hadmits : place.admits f = true) : f.isValue = true := by
  rcases hplace with rfl | rfl | rfl <;> cases f <;> first | rfl | cases hadmits

end Form

namespace Module

variable {m : Module}

def isReturn (m : Module) (n : NodeId) : Bool :=
  match m.form n with
  | .returns _ => true
  | _ => false

theorem isReturn_iff {n : NodeId} : m.isReturn n = true ↔ ∃ value, m.form n = .returns value := by
  unfold isReturn
  split <;> simp_all

theorem lead_of_isReturn {n : NodeId} (hn : m.isReturn n = true) : (m.form n).lead = 1 := by
  obtain ⟨value, hform⟩ := isReturn_iff.1 hn
  rw [hform]
  rfl

theorem lt_size_of_isReturn {n : Nat} (hn : m.isReturn n = true) : n < m.size := by
  by_contra hsize
  have hnone : m.entries[n]? = none := Array.getElem?_eq_none (Nat.le_of_not_lt hsize)
  simp [isReturn, form, hnone] at hn

/-- The expression that a `return` statement returns, if it has one. -/
def returned? (m : Module) (n : NodeId) : Option NodeId :=
  match m.form n with
  | .returns value => value
  | _ => none

theorem returnedNodes_eq (f : NodeId) :
    m.returnedNodes f = (m.returnNodes f).filterMap m.returned? := rfl

/-- The `return` statements at or below a node that belong to no function below it, in the order of
the text. -/
def returnsBelow (m : Module) (n : NodeId) : List NodeId :=
  match _h : m.form n with
  | .returns _ => [n]
  | .function .. => []
  | f => f.children.attach.flatMap fun c => returnsBelow m c.1
termination_by n
decreasing_by exact m.lt_of_form_eq _h c.2

theorem returnsBelow_of_returns {n : NodeId} {value : Option NodeId}
    (hn : m.form n = .returns value) : m.returnsBelow n = [n] := by
  rw [returnsBelow]
  split <;> simp_all

theorem returnsBelow_of_function {n : NodeId} (hn : m.isFunction n = true) :
    m.returnsBelow n = [] := by
  rw [returnsBelow]
  split
  · simp_all [isFunction]
  · rfl
  · simp_all [isFunction]

theorem returnsBelow_of_other {n : NodeId} (hn : m.isReturn n = false)
    (hfunction : m.isFunction n = false) :
    m.returnsBelow n = (m.children n).flatMap m.returnsBelow := by
  rw [returnsBelow]
  split
  · simp_all [isReturn]
  · simp_all [isFunction]
  · rw [List.flatMap_subtype (g := m.returnsBelow) fun c hc => rfl, List.unattach_attach, children]

/-- The search with a stack meets what is below the nodes on the stack, in another order. -/
theorem popReturns_perm (stack : List NodeId) :
    (m.popReturns stack).Perm (stack.flatMap m.returnsBelow) := by
  fun_induction popReturns m stack with
  | case1 => exact .refl _
  | case2 n stack value hform ih =>
    rw [List.flatMap_cons, returnsBelow_of_returns hform, List.singleton_append]
    exact ih.cons n
  | case3 n stack name docs params body hform ih =>
    have hfunction : m.isFunction n = true := isFunction_iff.2 ⟨_, _, _, _, hform⟩
    rwa [List.flatMap_cons, returnsBelow_of_function hfunction, List.nil_append]
  | case4 n stack hreturns hfunction ih =>
    have hreturn : m.isReturn n = false := by
      rw [Bool.eq_false_iff, Ne, isReturn_iff]
      rintro ⟨value, hform⟩
      exact hreturns value hform
    have hnot : m.isFunction n = false := by
      rw [Bool.eq_false_iff, Ne, isFunction_iff]
      rintro ⟨name, docs, params, body, hform⟩
      exact hfunction name docs params body hform
    rw [List.flatMap_cons, returnsBelow_of_other hreturn hnot]
    rw [List.flatMap_append] at ih
    exact ih.trans (((List.reverse_perm _).flatMap_right _).append_right _)

theorem Under.below {v c n : NodeId} (hv : m.Under v c) (hc : c ∈ m.children n) : m.Below v n := by
  rcases hv with rfl | hv
  · exact .child hc
  · exact .deeper hv hc

theorem pairwise_returnNodes (m : Module) (f : NodeId) :
    (m.returnNodes f).Pairwise fun a b => (m.range a).start ≤ (m.range b).start := by
  unfold returnNodes
  split
  · refine (List.pairwise_mergeSort ?_ ?_ _).imp of_decide_eq_true
    · intro a b c hab hbc
      exact decide_eq_true ((of_decide_eq_true hab).trans (of_decide_eq_true hbc))
    · intro a b
      simpa using Nat.le_total (m.range a).start (m.range b).start
  · exact .nil

namespace WellFormed

variable (h : m.WellFormed)
include h

theorem exists_functionAround? {f n : NodeId} (hf : m.isFunction f = true) (hn : m.Below n f) :
    ∃ g, m.functionAround? n = some g := by
  have hmem : f ∈ m.functionsAround n := h.mem_functionsAround_iff.2 ⟨hf, hn⟩
  exact Option.isSome_iff_exists.1 (List.isSome_head?.2 (List.ne_nil_of_mem hmem))

/-- What is below a function has another innermost function around it than the function has. -/
theorem functionAround?_ne_of_below {f n : NodeId} (hf : m.isFunction f = true)
    (hn : m.Below n f) : m.functionAround? n ≠ m.functionAround? f := by
  intro heq
  obtain ⟨g, hg⟩ := h.exists_functionAround? hf hn
  have hfg : m.Below f g := (h.of_functionAround? (heq ▸ hg)).2
  rcases h.under_of_functionAround? hg hf hn with rfl | hgf
  · exact Nat.lt_irrefl _ hfg.lt
  · exact Nat.lt_asymm hfg.lt hgf.lt

theorem isValue_of_mem_children {c n : NodeId}
    (hplaces : ∀ p ∈ (m.form n).parts, p.1 = .operand ∨ p.1 = .expression ∨ p.1 = .pair)
    (hc : c ∈ m.children n) : (m.form c).isValue = true := by
  have hsize : n < m.size := Module.lt_size_of_mem_children hc
  rw [Module.children, ← Form.map_snd_parts] at hc
  obtain ⟨p, hp, rfl⟩ := List.mem_map.1 hc
  exact Form.isValue_of_admits (hplaces p hp) (h.admits hsize p hp)

/-- A `return` statement below an expression belongs to a function in the expression. -/
theorem functionAround?_ne_of_isValue {e r : Nat} (he : (m.form e).isValue = true)
    (hr : m.Under r e) (hreturn : m.isReturn r = true) :
    m.functionAround? r ≠ m.functionAround? e := by
  induction e using Nat.strongRecOn with
  | ind e ih =>
    rcases under_iff.1 hr with rfl | ⟨c, hc, hrc⟩
    · obtain ⟨value, hvalue⟩ := isReturn_iff.1 hreturn
      rw [hvalue] at he
      cases he
    · by_cases hfunction : m.isFunction e = true
      · exact h.functionAround?_ne_of_below hfunction (hrc.below hc)
      · have hvalue : (m.form c).isValue = true := by
          refine h.isValue_of_mem_children (fun p hp => Form.place_of_isValue he ?_ hp) hc
          intro name docs params body hform
          exact hfunction (isFunction_iff.2 ⟨name, docs, params, body, hform⟩)
        have haround := h.functionAround?_of_mem_children hc
        rw [if_neg hfunction] at haround
        rw [← haround]
        exact ih c (m.lt_of_mem_children hc) hvalue hrc

/-- The search finds the `return` statements that have the same function around them as the node it
starts at. -/
theorem returnsBelow_eq (n : NodeId) :
    m.returnsBelow n
      = (m.preorder n).filter fun r =>
          m.isReturn r && m.functionAround? r == m.functionAround? n := by
  induction n using Nat.strongRecOn with
  | ind n ih =>
    rw [preorder_eq]
    by_cases hreturn : m.isReturn n = true
    · obtain ⟨value, hform⟩ := isReturn_iff.1 hreturn
      have hfunction : m.isFunction n = false := by simp [isFunction, hform]
      have hnone : ∀ r ∈ (m.children n).flatMap m.preorder,
          ¬(m.isReturn r && m.functionAround? r == m.functionAround? n) = true := by
        intro r hr hand
        obtain ⟨c, hc, hrc⟩ := List.mem_flatMap.1 hr
        obtain ⟨hreturn, heq⟩ := Bool.and_eq_true_iff.1 hand
        have haround := h.functionAround?_of_mem_children hc
        rw [hfunction] at haround
        refine h.functionAround?_ne_of_isValue (h.isValue_of_mem_children ?_ hc)
          (mem_preorder_iff.1 hrc) hreturn ((beq_iff_eq.1 heq).trans haround.symm)
        rw [hform]
        intro p hp
        obtain ⟨v, -, rfl⟩ := List.mem_map.1 hp
        exact .inr (.inl rfl)
      rw [returnsBelow_of_returns hform, List.filter_cons_of_pos (by simp [hreturn]),
        List.filter_eq_nil_iff.2 hnone]
    · rw [List.filter_cons_of_neg (by simp [hreturn])]
      by_cases hfunction : m.isFunction n = true
      · rw [returnsBelow_of_function hfunction, eq_comm, List.filter_eq_nil_iff]
        intro r hr hand
        obtain ⟨c, hc, hrc⟩ := List.mem_flatMap.1 hr
        obtain ⟨-, heq⟩ := Bool.and_eq_true_iff.1 hand
        exact h.functionAround?_ne_of_below hfunction ((mem_preorder_iff.1 hrc).below hc)
          (beq_iff_eq.1 heq)
      · rw [returnsBelow_of_other (by simpa using hreturn) (by simpa using hfunction),
          List.filter_flatMap]
        refine List.flatMap_congr fun c hc => ?_
        have haround := h.functionAround?_of_mem_children hc
        rw [if_neg hfunction] at haround
        rw [ih c (m.lt_of_mem_children hc), haround]

theorem functionAround?_body {f params body : NodeId} {name : Option String}
    {docs : Option Doc.Block} (hf : m.form f = .function name docs params body) :
    m.functionAround? body = some f := by
  have hbody : body ∈ m.children f := by simp [(h.children_of_function hf).1]
  rw [h.functionAround?_of_mem_children hbody,
    if_pos (isFunction_iff.2 ⟨name, docs, params, body, hf⟩)]

/-- `return` statements that follow one another in the text start one after the other. -/
theorem pairwise_start {n f : NodeId} (hn : m.Below n f) {p : NodeId → Bool}
    (hp : ∀ r, p r = true → m.isReturn r = true) :
    ((m.preorder n).filter p).Pairwise fun a b => (m.span a).start < (m.span b).start := by
  refine ((h.pairwise_preorder n).filter p).imp_of_mem fun {a b} ha _ hab => ?_
  obtain ⟨ha, hpa⟩ := List.mem_filter.1 ha
  obtain ⟨value, hform⟩ := isReturn_iff.1 (hp a hpa)
  rcases hab with hab | hab
  · have hspan := h.span_of_below hab
    have hlead : (m.form a).lead = 1 := by rw [hform]; rfl
    omega
  · have hspan : (m.span a).start < (m.span a).stop := by
      rcases mem_preorder_iff.1 ha with rfl | ha
      · exact (h.span_of_below hn).2.1
      · exact (h.span_of_below ha).2.1
    omega

/-- The search finds what the nodes of the body list, in another order. -/
theorem returnNodes_perm {f params body : NodeId} {name : Option String} {docs : Option Doc.Block}
    (hf : m.form f = .function name docs params body) :
    (m.returnNodes f).Perm ((m.preorder body).filter fun r =>
      m.isReturn r && m.functionAround? r == some f) := by
  have hsearch := h.returnsBelow_eq body
  rw [h.functionAround?_body hf] at hsearch
  have hpop := m.popReturns_perm [body]
  rw [List.flatMap_singleton, hsearch] at hpop
  simp only [returnNodes, hf]
  exact (List.mergeSort_perm _ _).trans hpop

/-- Sorting brings the `return` statements into the order of the text. -/
theorem returnNodes_eq (hexact : m.Exact) {f params body : NodeId} {name : Option String}
    {docs : Option Doc.Block} (hf : m.form f = .function name docs params body) :
    m.returnNodes f = (m.preorder body).filter fun r =>
      m.isReturn r && m.functionAround? r == some f := by
  have hbody : m.Below body f := .child (by simp [(h.children_of_function hf).1])
  have hreturn (r : NodeId) (hr : (m.isReturn r && m.functionAround? r == some f) = true) :
      m.isReturn r = true := (Bool.and_eq_true_iff.1 hr).1
  have hperm := h.returnNodes_perm hf
  refine hperm.eq_of_pairwise (fun a b ha hb hab hba => ?_) (m.pairwise_returnNodes f)
    ((h.pairwise_start hbody hreturn).imp fun {a b} hlt => ?_)
  · rw [hexact, hexact] at hab hba
    have hreturn₁ := hreturn a (List.mem_filter.1 (hperm.mem_iff.1 ha)).2
    have hreturn₂ := hreturn b (List.mem_filter.1 hb).2
    exact h.eq_of_start_eq (lt_size_of_isReturn hreturn₁) (lt_size_of_isReturn hreturn₂)
      (lead_of_isReturn hreturn₁) (lead_of_isReturn hreturn₂) (Nat.le_antisymm hab hba)
  · rw [hexact, hexact]
    exact Nat.le_of_lt hlt

theorem returnedNodes_eq_preorder (hexact : m.Exact) {f : NodeId} (hf : m.isFunction f = true) :
    m.returnedNodes f = ((m.preorder (Scopes.bodyOf m f)).filter fun r =>
      m.isReturn r && m.functionAround? r == some f).filterMap m.returned? := by
  obtain ⟨name, docs, params, body, hform⟩ := isFunction_iff.1 hf
  rw [returnedNodes_eq, h.returnNodes_eq hexact hform, Scopes.bodyOf, hform]

/-- A function's `return` statements are those that have it as the innermost function around them. -/
theorem mem_returnNodes_iff {f r : NodeId} (hf : m.isFunction f = true) :
    r ∈ m.returnNodes f ↔ m.isReturn r = true ∧ m.functionAround? r = some f := by
  obtain ⟨name, docs, params, body, hform⟩ := isFunction_iff.1 hf
  obtain ⟨hchildren, items, hparams, hitems⟩ := h.children_of_function hform
  rw [(h.returnNodes_perm hform).mem_iff, List.mem_filter, mem_preorder_iff, Bool.and_eq_true_iff,
    beq_iff_eq, and_iff_right_iff_imp]
  rintro ⟨hreturn, haround⟩
  rcases h.under_body_of_below hform (h.of_functionAround? haround).2 with hr | rfl | hr
  · exact hr
  · simp [isReturn, hparams] at hreturn
  · have hmem : r ∈ items := by
      have hr := mem_children_of_parent? hr
      rwa [Module.children, hparams] at hr
    obtain ⟨name, hname⟩ := hitems r hmem
    simp [isReturn, hname] at hreturn

/-- They are in the order in which they start. -/
theorem pairwise_start_returnNodes (hexact : m.Exact) {f : NodeId} (hf : m.isFunction f = true) :
    (m.returnNodes f).Pairwise fun a b => (m.span a).start < (m.span b).start := by
  obtain ⟨name, docs, params, body, hform⟩ := isFunction_iff.1 hf
  rw [h.returnNodes_eq hexact hform]
  have hbody : m.Below body f := .child (by simp [(h.children_of_function hform).1])
  exact h.pairwise_start hbody fun r hr => (Bool.and_eq_true_iff.1 hr).1

end WellFormed

end Module

end ScriptTypes.Script
