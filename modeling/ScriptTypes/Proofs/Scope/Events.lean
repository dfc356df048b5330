import ScriptTypes.Proofs.Scope.Recorded

/-!
# What scope events bring in

The names in the events of a module are names, and its values stand behind the beginning of the
text, except for functions. So the symbols of a module hold such names and values.
-/

namespace ScriptTypes

open Script (Form IsName Lined Module NodeId)

namespace Script.Module

variable {m : Module}

/-- What a symbol can have as a value stands behind the beginning of the text or is a function. -/
def IsValue (m : Module) (v : NodeId) : Prop :=
  0 < (m.span v).start ∨ ∃ name docs params body, m.form v = .function name docs params body

namespace WellFormed

variable (h : m.WellFormed)
include h

/-- What is below a value stands behind the beginning of the text. -/
theorem start_pos_of_below {v n : NodeId} (hn : m.IsValue n) (hv : m.Below v n) :
    0 < (m.span v).start := by
  have hspan := h.span_of_below hv
  rcases hn with hn | ⟨name, docs, params, body, hform⟩
  · omega
  · have hlead : (m.form n).lead = 1 := by rw [hform]; rfl
    omega

theorem isName_of_targetPath? {n : NodeId} : ∀ k ∈ (m.targetPath? n).getD [], IsName k := by
  induction n using Nat.strongRecOn with
  | ind n ih =>
    have hnamed := h.named n
    rw [targetPath?]
    split
    · rename_i name hform
      rw [hform] at hnamed
      exact List.forall_mem_singleton.2 hnamed
    · rename_i object property hform
      rw [hform] at hnamed
      have hobject := ih object (m.lt_of_form_eq hform (by simp [Form.children]))
      cases hpath : m.targetPath? object with
      | none => simp
      | some path =>
        rw [hpath] at hobject
        exact List.forall_mem_append.2 ⟨hobject, List.forall_mem_singleton.2 hnamed⟩
    · rename_i inner hform
      exact ih inner (m.lt_of_form_eq hform (by simp [Form.children]))
    · simp

theorem brings_ownEvents (scope : Option NodeId) {n : NodeId} :
    ∀ e ∈ m.ownEvents scope n, e.Brings m IsName m.IsValue := by
  have hnamed := h.named n
  unfold ownEvents
  split
  · rename_i name docs value hform
    rw [hform] at hnamed
    refine List.forall_mem_singleton.2 ⟨hnamed, fun v hv => .inl ?_⟩
    have hbelow : m.Below v n := m.below_of_form_eq hform (by simpa [Form.children] using hv)
    have hspan := h.span_of_below hbelow
    have hlead : (m.form n).lead = 1 := by rw [hform]; rfl
    omega
  · rename_i param body hform
    rw [hform] at hnamed
    exact List.forall_mem_singleton.2 ⟨hnamed, fun v hv => absurd hv (Option.not_mem_none v)⟩
  · rename_i lhs rhs hform
    refine List.forall_mem_singleton.2 ⟨h.isName_of_targetPath?, .inl ?_⟩
    have hchildren : m.children n = [lhs, rhs] := by rw [Module.children, hform, Form.children]
    have hlined := h.lined (Module.lt_size_of_mem_children (m := m) (p := n) (c := lhs)
      (by simp [hchildren]))
    rw [hchildren] at hlined
    obtain ⟨-, hlhs, hrhs, -⟩ := hlined
    omega
  · exact List.forall_mem_nil _

theorem brings_parameterEvents {n params : NodeId} (hparams : params ∈ m.children n)
    (hlead : (m.form n).lead = 1) :
    ∀ e ∈ m.parameterEvents n params, e.Brings m IsName m.IsValue := by
  unfold parameterEvents
  split
  · rename_i items hform
    intro e he
    obtain ⟨p, hp, hevent⟩ := List.mem_filterMap.1 he
    obtain ⟨name, hname, rfl⟩ := Option.map_eq_some_iff.1 hevent
    have hnamed := h.named p
    unfold identifier? at hname
    split at hname
    · rename_i hp_form
      cases hname
      rw [hp_form] at hnamed
      refine ⟨hnamed, fun v hv => .inl ?_⟩
      cases hv
      have hbelow : m.Below p params := m.below_of_form_eq hform (by simpa [Form.children] using hp)
      have hspan := h.span_of_below (hbelow.trans (.child hparams))
      omega
    · cases hname
  · exact fun e he => nomatch he

/-- The events of a module bring in names and values. -/
theorem brings_scopeEvents (scope : Option NodeId) {n : NodeId} :
    ∀ e ∈ m.scopeEvents scope n, e.Brings m IsName m.IsValue := by
  induction n using Nat.strongRecOn generalizing scope with
  | ind n ih =>
    rw [scopeEvents]
    split
    · rename_i name docs params body hform
      have hnamed := h.named n
      rw [hform] at hnamed
      have hchildren : m.children n = [params, body] := by
        rw [Module.children, hform, Form.children]
      refine List.forall_mem_append.2 ⟨List.forall_mem_append.2 ⟨?_, ?_⟩, ?_⟩
      · intro e he
        obtain ⟨word, hword, rfl⟩ := List.mem_map.1 he
        obtain rfl := Option.mem_toList.1 hword
        refine ⟨hnamed, fun v hv => ?_⟩
        cases hv
        exact .inr ⟨_, _, _, _, hform⟩
      · refine List.forall_mem_cons.2 ⟨trivial, ?_⟩
        exact h.brings_parameterEvents (by simp [hchildren]) (by rw [hform]; rfl)
      · exact ih body (m.lt_of_mem_children (by simp [hchildren])) _
    · refine List.forall_mem_append.2 ⟨h.brings_ownEvents scope, fun e he => ?_⟩
      obtain ⟨c, -, he⟩ := List.mem_flatMap.1 he
      exact ih c.1 (m.lt_of_form_eq rfl c.2) _ e he

theorem recorded_scopes : (Scopes.ofModule m).Recorded IsName m.IsValue :=
  Scopes.recorded_ofModule (h.brings_scopeEvents none)

end WellFormed

end Script.Module

end ScriptTypes
