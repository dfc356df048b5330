import ScriptTypes.Script.Module

/-!
# Values below a node

What a function returns and what an addition adds are nodes below it. The lemmas say so, which lets
other recursions descend to these nodes. The modules that a script requires are named by strings
below calls.
-/

namespace ScriptTypes.Script.Module

variable (m : Module)

theorem below_of_mem_popReturns {r : NodeId} {stack : List NodeId} (h : r ∈ m.popReturns stack) :
    ∃ n ∈ stack, r = n ∨ m.Below r n := by
  fun_induction popReturns m stack with
  | case1 => cases h
  | case2 n stack _ _ ih =>
    rcases List.mem_cons.1 h with rfl | h
    · exact ⟨r, List.mem_cons_self, .inl rfl⟩
    · obtain ⟨n', hn', hr⟩ := ih h
      exact ⟨n', List.mem_cons_of_mem _ hn', hr⟩
  | case3 n stack _ _ _ _ _ ih =>
    obtain ⟨n', hn', hr⟩ := ih h
    exact ⟨n', List.mem_cons_of_mem _ hn', hr⟩
  | case4 n stack _ _ ih =>
    obtain ⟨n', hn', hr⟩ := ih h
    rcases List.mem_append.1 hn' with hn' | hn'
    · have hbelow : m.Below n' n := .child (List.mem_reverse.1 hn')
      exact ⟨n, List.mem_cons_self, .inr (hr.elim (· ▸ hbelow) (·.trans hbelow))⟩
    · exact ⟨n', List.mem_cons_of_mem _ hn', hr⟩

/-- The expressions that a function returns, in the order of the text. -/
def returnedNodes (function : NodeId) : List NodeId :=
  (m.returnNodes function).filterMap fun r =>
    match m.form r with
    | .returns value => value
    | _ => none

theorem below_of_mem_returnedNodes {v n : NodeId} (h : v ∈ m.returnedNodes n) : m.Below v n := by
  obtain ⟨r, hr, hv⟩ := List.mem_filterMap.1 h
  have hvr : m.Below v r := by
    split at hv
    · rename_i value hform
      exact m.below_of_form_eq hform (by simp [Form.children, hv])
    · cases hv
  unfold returnNodes at hr
  split at hr
  · rename_i body hform
    have hbody : m.Below body n := m.below_of_form_eq hform (by simp [Form.children])
    obtain ⟨top, htop, hunder⟩ := m.below_of_mem_popReturns (List.mem_mergeSort.1 hr)
    obtain rfl := List.mem_singleton.1 htop
    rcases hunder with rfl | hbelow
    · exact hvr.trans hbody
    · exact hvr.trans (hbelow.trans hbody)
  · cases hr

def isStringLiteral (n : NodeId) : Bool :=
  match m.form n with
  | .literal (.string _) => true
  | _ => false

/-- The operands of a chain of additions that starts at a node, last one first. A string literal
ends the chain, since it decides what the addition is. -/
def addedNodes (n : NodeId) : List NodeId :=
  match _h : m.form n with
  | .binary (.arithmetic .add) lhs rhs =>
    if m.isStringLiteral rhs then [rhs, lhs] else rhs :: addedNodes lhs
  | _ => [n]
termination_by n
decreasing_by exact m.lt_of_form_eq _h (by simp [Form.children])

theorem below_of_mem_addedNodes {v n : NodeId} (h : v ∈ m.addedNodes n) : v = n ∨ m.Below v n := by
  induction n using Nat.strongRecOn with
  | ind n ih =>
    unfold addedNodes at h
    split at h
    · rename_i lhs rhs hform
      have hl : m.Below lhs n := m.below_of_form_eq hform (by simp [Form.children])
      have hr : m.Below rhs n := m.below_of_form_eq hform (by simp [Form.children])
      split at h
      · rcases List.mem_cons.1 h with rfl | h
        · exact .inr hr
        · rw [List.mem_singleton.1 h]
          exact .inr hl
      · rcases List.mem_cons.1 h with rfl | h
        · exact .inr hr
        · rcases ih lhs hl.lt h with rfl | hv
          · exact .inr hl
          · exact .inr (hv.trans hl)
    · exact .inl (List.mem_singleton.1 h)

/-- The operands of an addition are below it. -/
theorem below_of_mem_operands {v n : NodeId} {lhs rhs : NodeId}
    (hform : m.form n = .binary (.arithmetic .add) lhs rhs) (h : v ∈ m.addedNodes n) :
    m.Below v n := by
  have hl : m.Below lhs n := m.below_of_form_eq hform (by simp [Form.children])
  have hr : m.Below rhs n := m.below_of_form_eq hform (by simp [Form.children])
  rw [addedNodes.eq_1 m n] at h
  split at h
  · rename_i lhs' rhs' hform'
    obtain ⟨rfl, rfl⟩ : lhs = lhs' ∧ rhs = rhs' := by simpa using hform.symm.trans hform'
    split at h
    · rcases List.mem_cons.1 h with rfl | h
      · exact hr
      · rw [List.mem_singleton.1 h]
        exact hl
    · rcases List.mem_cons.1 h with rfl | h
      · exact hr
      · rcases m.below_of_mem_addedNodes h with rfl | hv
        · exact hl
        · exact hv.trans hl
  · rename_i hnot
    exact absurd hform (hnot lhs rhs)

/-- The expression of the last expression statement that stands directly in the program. -/
def lastExpression? : Option NodeId :=
  let expressions := (m.children m.root).filterMap fun n =>
    match m.form n with
    | .statement e => some e
    | _ => none
  expressions.getLast?

/-! ### Required modules -/

/-- The text of a string literal. -/
def stringLiteral? (n : NodeId) : Option String :=
  match m.form n with
  | .literal (.string text) => some text
  | _ => none

/-- The module ids that a call requires. -/
def idsRequiredBy (callee : NodeId) (args : List NodeId) : List String :=
  match m.form callee with
  | .identifier "require" => args.filterMap m.stringLiteral?
  | _ => []

/-- The module ids that a script requires. -/
def requiredIds : List String :=
  m.nodes.flatMap fun n =>
    match m.form n with
    | .invoke callee args => m.idsRequiredBy callee args
    | _ => []

end ScriptTypes.Script.Module
