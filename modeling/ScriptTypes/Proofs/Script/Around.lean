import ScriptTypes.Proofs.Script.Innermost

/-!
# The functions around a node

The functions around a node are found by going from parent to parent. They are the functions that
the node is below, the nearest one first. All that is below the parameters of a function are names,
so what is below a function and is no parameter is in its body.
-/

namespace ScriptTypes.Script.Module

variable {m : Module}

def isFunction (m : Module) (n : NodeId) : Bool :=
  match m.form n with
  | .function .. => true
  | _ => false

theorem isFunction_iff {n : NodeId} :
    m.isFunction n = true ↔ ∃ name docs params body, m.form n = .function name docs params body := by
  rw [isFunction]
  cases m.form n <;> simp

theorem lt_of_parent? {n p : Nat} (h : m.parent? n = some p) : n < p ∧ p < m.size := by
  have hmem := mem_children_of_parent? h
  exact ⟨m.lt_of_mem_children hmem, lt_size_of_mem_children hmem⟩

/-- The functions around a node, the nearest one first. -/
def functionsAround (m : Module) (n : NodeId) : List NodeId :=
  match _h : m.parent? n with
  | none => []
  | some p => if m.isFunction p then p :: functionsAround m p else functionsAround m p
termination_by m.size - n
decreasing_by
  all_goals
    obtain ⟨hlt, hsize⟩ := lt_of_parent? _h
    exact Nat.sub_lt_sub_left (Nat.lt_trans hlt hsize) hlt

/-- The nearest function around a node. -/
def functionAround? (m : Module) (n : NodeId) : Option NodeId := (m.functionsAround n).head?

theorem functionsAround_of_parent?_eq_none {n : NodeId} (h : m.parent? n = none) :
    m.functionsAround n = [] := by
  rw [functionsAround]
  split
  · rfl
  · rename_i hp
    cases h.symm.trans hp

theorem functionsAround_of_parent? {n p : NodeId} (h : m.parent? n = some p) :
    m.functionsAround n
      = if m.isFunction p then p :: m.functionsAround p else m.functionsAround p := by
  rw [functionsAround.eq_def m n]
  split
  · rename_i hnone
    cases h.symm.trans hnone
  · rename_i hp
    cases h.symm.trans hp
    rfl

theorem functionsAround_root : m.functionsAround m.root = [] := by
  apply functionsAround_of_parent?_eq_none
  cases hp : m.parent? m.root with
  | none => rfl
  | some p =>
    obtain ⟨hlt, hsize⟩ := lt_of_parent? hp
    rw [root] at hlt
    omega

/-- Behind the nearest function stand the functions around it. -/
theorem functionsAround_of_functionAround? {n f : NodeId} (h : m.functionAround? n = some f) :
    m.functionsAround n = f :: m.functionsAround f := by
  induction n using functionsAround.induct m with
  | case1 n hp =>
    rw [functionAround?, functionsAround_of_parent?_eq_none hp] at h
    cases h
  | case2 n p hp hfunction ih =>
    rw [functionAround?, functionsAround_of_parent? hp, if_pos hfunction] at h
    obtain rfl : p = f := Option.some.inj h
    rw [functionsAround_of_parent? hp, if_pos hfunction]
  | case3 n p hp hfunction ih =>
    rw [functionAround?, functionsAround_of_parent? hp, if_neg hfunction] at h
    rw [functionsAround_of_parent? hp, if_neg hfunction]
    exact ih h

theorem mem_preorder_iff {v n : NodeId} : v ∈ m.preorder n ↔ m.Under v n := by
  induction n using Nat.strongRecOn with
  | ind n ih =>
    rw [preorder_eq, List.mem_cons, List.mem_flatMap, under_iff]
    refine or_congr_right (exists_congr fun c => and_congr_right fun hc => ?_)
    exact ih c (m.lt_of_mem_children hc)

theorem preorder_of_children_eq_nil {n : NodeId} (h : m.children n = []) : m.preorder n = [n] := by
  rw [preorder_eq, h]
  rfl

theorem Below.lt_size {v n : Nat} (h : m.Below v n) : n < m.size := by
  cases h with
  | child hc => exact lt_size_of_mem_children hc
  | deeper _ hc => exact lt_size_of_mem_children hc

theorem Below.exists_parent {v n : NodeId} (h : m.Below v n) : ∃ p, v ∈ m.children p := by
  induction h with
  | child hc => exact ⟨_, hc⟩
  | deeper _ _ ih => exact ih

/-- Names are all that is under a list of parameters. -/
theorem preorder_parameters {params : NodeId} {items : List NodeId}
    (hparams : m.form params = .parameters items)
    (hitems : ∀ p ∈ items, ∃ name, m.form p = .identifier name) :
    m.preorder params = params :: items := by
  have hleaf : ∀ p ∈ items, m.preorder p = [p] := by
    intro p hp
    obtain ⟨name, hname⟩ := hitems p hp
    exact preorder_of_children_eq_nil (by rw [Module.children, hname, Form.children])
  have hchildren : m.children params = items := by rw [Module.children, hparams, Form.children]
  rw [preorder_eq, hchildren, List.flatMap_congr hleaf, List.flatMap_singleton']

namespace WellFormed

variable (h : m.WellFormed)
include h

theorem functionsAround_of_mem_children {c n : NodeId} (hc : c ∈ m.children n) :
    m.functionsAround c
      = if m.isFunction n then n :: m.functionsAround n else m.functionsAround n :=
  functionsAround_of_parent? ((parent?_eq_some_iff h.children).2 hc)

theorem functionAround?_of_mem_children {c n : NodeId} (hc : c ∈ m.children n) :
    m.functionAround? c = if m.isFunction n then some n else m.functionAround? n := by
  rw [functionAround?, h.functionsAround_of_mem_children hc]
  split <;> rfl

theorem below_iff_of_mem_children {c n v : NodeId} (hc : c ∈ m.children n) :
    m.Below c v ↔ m.Under n v := by
  constructor
  · intro hv
    induction hv with
    | child hc' => exact .inl (eq_of_mem_children h.children hc hc')
    | deeper _ hd ih => exact under_iff.2 (.inr ⟨_, hd, ih⟩)
  · rintro (rfl | hv)
    · exact .child hc
    · exact (Below.child hc).trans hv

/-- The functions around a node are those that it is below. -/
theorem mem_functionsAround_iff {f n : NodeId} :
    f ∈ m.functionsAround n ↔ m.isFunction f = true ∧ m.Below n f := by
  induction n using functionsAround.induct m with
  | case1 n hp =>
    rw [functionsAround_of_parent?_eq_none hp]
    constructor
    · intro hf
      cases hf
    · rintro ⟨-, hbelow⟩
      obtain ⟨p, hmem⟩ := hbelow.exists_parent
      cases hp.symm.trans ((parent?_eq_some_iff h.children).2 hmem)
  | case2 n p hp hfunction ih =>
    rw [functionsAround_of_parent? hp, if_pos hfunction, List.mem_cons, ih,
      h.below_iff_of_mem_children (mem_children_of_parent? hp), Under]
    constructor
    · rintro (rfl | ⟨hf, hbelow⟩)
      · exact ⟨hfunction, .inl rfl⟩
      · exact ⟨hf, .inr hbelow⟩
    · rintro ⟨hf, rfl | hbelow⟩
      · exact .inl rfl
      · exact .inr ⟨hf, hbelow⟩
  | case3 n p hp hfunction ih =>
    rw [functionsAround_of_parent? hp, if_neg hfunction, ih,
      h.below_iff_of_mem_children (mem_children_of_parent? hp), Under]
    refine and_congr_right fun hf => ⟨.inr, ?_⟩
    rintro (rfl | hbelow)
    · exact absurd hf hfunction
    · exact hbelow

/-- The nearest function around a node is below all others around it. -/
theorem under_of_functionAround? {n f g : NodeId} (hf : m.functionAround? n = some f)
    (hg : m.isFunction g = true) (hbelow : m.Below n g) : m.Under f g := by
  have hmem := h.mem_functionsAround_iff.2 ⟨hg, hbelow⟩
  rw [functionsAround_of_functionAround? hf] at hmem
  obtain rfl | hmem := List.mem_cons.1 hmem
  · exact .inl rfl
  · exact .inr (h.mem_functionsAround_iff.1 hmem).2

theorem of_functionAround? {n f : NodeId} (hf : m.functionAround? n = some f) :
    m.isFunction f = true ∧ m.Below n f := by
  refine h.mem_functionsAround_iff.1 ?_
  rw [functionsAround_of_functionAround? hf]
  exact List.mem_cons_self

/-! ### Parameters and bodies -/

theorem exists_parameters {f params : NodeId} (hf : (.parameters, params) ∈ (m.form f).parts) :
    ∃ items, m.form params = .parameters items ∧
      ∀ p ∈ items, ∃ name, m.form p = .identifier name := by
  have hparams : params ∈ m.children f := by
    rw [Module.children, ← Form.map_snd_parts]
    exact List.mem_map_of_mem hf
  have hplace := h.admits (Module.lt_size_of_mem_children hparams) _ hf
  cases hform : m.form params with
  | parameters items =>
    refine ⟨items, rfl, fun p hp => ?_⟩
    have hname := h.admits (h.lt_size_of_mem_children hparams) (.name, p)
      (by rw [hform]; simpa [Form.parts] using hp)
    cases hp_form : m.form p with
    | identifier name => exact ⟨name, rfl⟩
    | _ => rw [hp_form] at hname; cases hname
  | _ => rw [hform] at hplace; cases hplace

/-- The children of a function are its parameters, which are names, and its body. -/
theorem children_of_function {f params body : NodeId} {name : Option String}
    {docs : Option Doc.Block} (hf : m.form f = .function name docs params body) :
    m.children f = [params, body] ∧ ∃ items, m.form params = .parameters items ∧
      ∀ p ∈ items, ∃ name, m.form p = .identifier name := by
  refine ⟨by rw [Module.children, hf, Form.children], h.exists_parameters (f := f) ?_⟩
  rw [hf]
  simp [Form.parts]

/-- What is below a function and is no function's parameters or parameter is in the body. -/
theorem under_body_of_below {f params body v : NodeId} {name : Option String}
    {docs : Option Doc.Block} (hf : m.form f = .function name docs params body)
    (hv : m.Below v f) : m.Under v body ∨ v = params ∨ m.parent? v = some params := by
  obtain ⟨hchildren, items, hparams, hitems⟩ := h.children_of_function hf
  obtain rfl | ⟨c, hc, hvc⟩ := under_iff.1 (.inr hv : m.Under v f)
  · exact absurd hv.lt (Nat.lt_irrefl _)
  · rw [hchildren] at hc
    obtain rfl | hc := List.mem_cons.1 hc
    · rw [← mem_preorder_iff, preorder_parameters hparams hitems] at hvc
      refine .inr ((List.mem_cons.1 hvc).imp_right fun hmem => ?_)
      rw [parent?_eq_some_iff h.children, Module.children, hparams]
      exact hmem
    · rw [List.mem_singleton.1 hc] at hvc
      exact .inl hvc

end WellFormed

end ScriptTypes.Script.Module
