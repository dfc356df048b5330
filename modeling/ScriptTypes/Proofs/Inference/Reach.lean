import ScriptTypes.Proofs.Inference.Within

/-!
# What a call can reach

A call reaches what it calls, directly or through others. The symbols that are being inferred
matter to it as far as it reaches them. Owners with properties are those that a type can be
generated for; `Setting.owners` lists them, and every such owner that inference calls is listed.
-/

namespace ScriptTypes

open Script (NodeId)

namespace Owner

/-- The symbol that an owner belongs to. -/
def home : Owner → Option Symbol
  | literal _ => none
  | symbol key => some key
  | property o _ => o.home

/-- The symbols that are being inferred whenever an owner is called. -/
def around : Owner → List Symbol
  | property o _ => o.home.toList
  | _ => []

/-- Can a type be generated for an owner? -/
def hasProperties (s : Setting) (o : Owner) : Bool := (o.collection s).hasProperties

theorem properties_eq_nil {s : Setting} {o : Owner} (h : ¬ o.hasProperties s = true) :
    (o.collection s).properties = [] := by
  simpa [hasProperties, Collection.hasProperties] using h

/-- An owner with its properties and theirs. -/
def withProperties (s : Setting) (o : Owner) : List Owner :=
  o :: (o.collection s).properties.attach.flatMap fun p => withProperties s (.property o p.1.1)
termination_by sizeOf (o.collection s)
decreasing_by exact Collection.sizeOf_lt_of_mem_properties (Inference.mem_properties p.2)

theorem mem_withProperties_self (s : Setting) (o : Owner) : o ∈ o.withProperties s := by
  rw [withProperties]
  exact List.mem_cons_self

/-- The list holds the properties of its owners. -/
theorem property_mem_withProperties {s : Setting} {o o' : Owner} {p : String × Collection}
    (ho' : o' ∈ o.withProperties s) (hp : p ∈ (o'.collection s).properties) :
    .property o' p.1 ∈ o.withProperties s := by
  induction o using withProperties.induct s with
  | case1 o ih =>
    rw [withProperties] at ho' ⊢
    refine List.mem_cons_of_mem _ (List.mem_flatMap.2 ?_)
    rcases List.mem_cons.1 ho' with rfl | ho'
    · exact ⟨⟨p, hp⟩, List.mem_attach _ _, mem_withProperties_self s _⟩
    · obtain ⟨q, hq, ho'⟩ := List.mem_flatMap.1 ho'
      exact ⟨q, hq, ih q ho'⟩

end Owner

namespace Setting

variable (s : Setting)

/-- The object literals that are not empty. -/
def literals : List Owner :=
  s.module.nodes.filterMap fun n =>
    match s.module.form n with
    | .object (_ :: _) => some (.literal n)
    | _ => none

/-- All literals and symbols, with their properties. -/
def allOwners : List Owner :=
  (s.literals ++ s.symbols.map Owner.symbol).flatMap (Owner.withProperties s)

/-- The owners that a type can be generated for. -/
def owners : List Owner := s.allOwners.filter (Owner.hasProperties s)

/-- Is a name that of a type which can be generated? -/
def isGenerated (t : TypeName) : Bool := s.owners.any fun o => o.type s == t

theorem isGenerated_iff {t : TypeName} :
    s.isGenerated t = true ↔ ∃ o ∈ s.owners, o.type s = t := by
  simp [isGenerated]

theorem mem_owners {o : Owner} : o ∈ s.owners ↔ o ∈ s.allOwners ∧ o.hasProperties s = true := by
  simp [owners]

theorem literal_mem_literals {n pair : NodeId} {pairs : List NodeId}
    (h : s.module.form n = .object (pair :: pairs)) : .literal n ∈ s.literals := by
  have hlt : n < s.module.size := by
    by_contra hle
    have hnone : s.module.entries[n]? = none := by simpa [Script.Module.size] using hle
    simp [Script.Module.form, hnone] at h
  refine List.mem_filterMap.2 ⟨n, List.mem_range.2 hlt, ?_⟩
  rw [h]

/-- Is a call of a node, or of an owner in the module? -/
def InModule : Call → Prop
  | .node _ _ => True
  | .owner o => o ∈ s.allOwners

theorem inModule_symbol {key : Symbol} (h : key ∈ s.symbols) :
    s.InModule (.owner (.symbol key)) := by
  refine List.mem_flatMap.2 ⟨.symbol key, ?_, Owner.mem_withProperties_self s _⟩
  exact List.mem_append_right _ (List.mem_map_of_mem h)

/-- Calls of owners stay in the module. -/
theorem inModule_of_mem_callees {a b : Call} (ha : s.InModule a) (hb : b ∈ s.callees a) :
    s.InModule b := by
  match a with
  | .node scope n =>
    rcases List.mem_append.1 hb with hb | hb
    · obtain ⟨p, -, rfl⟩ := List.mem_map.1 hb
      trivial
    · obtain ⟨o, ho, rfl⟩ := List.mem_map.1 hb
      rcases s.owner?_cases (Option.mem_toList.1 ho) with ⟨pair, pairs, hform, rfl⟩ | ⟨key, hkey, rfl⟩
      · refine List.mem_flatMap.2 ⟨.literal n, ?_, Owner.mem_withProperties_self s _⟩
        exact List.mem_append_left _ (s.literal_mem_literals hform)
      · exact s.inModule_symbol hkey
  | .owner o =>
    rcases List.mem_append.1 hb with hb | hb
    · obtain ⟨v, -, rfl⟩ := List.mem_map.1 hb
      trivial
    · obtain ⟨p, hp, rfl⟩ := List.mem_map.1 hb
      obtain ⟨root, hroot, ho⟩ := List.mem_flatMap.1 ha
      exact List.mem_flatMap.2 ⟨root, hroot, Owner.property_mem_withProperties ho hp⟩

end Setting

namespace Inference

variable {s : Setting}

/-- A call makes another one, directly or through others. -/
abbrev Reaches (s : Setting) : Call → Call → Prop :=
  Relation.ReflTransGen fun a b => b ∈ s.callees a

/-- Two lists hold the same symbols among those that a call reaches. -/
def SameFor (s : Setting) (a : Call) (entered entered' : List Symbol) : Prop :=
  ∀ key, Reaches s a (.owner (.symbol key)) → (key ∈ entered ↔ key ∈ entered')

/-- Calls that are the same to a caller begin alike, and stay the same to its callees. -/
theorem SameFor.enter {a : Call} {entered entered' : List Symbol}
    (h : SameFor s a entered entered') :
    enter entered a = none ∧ enter entered' a = none ∨
      ∃ next next', enter entered a = some next ∧ enter entered' a = some next' ∧
        ∀ b ∈ s.callees a, SameFor s b next next' := by
  match a with
  | .node _ _ | .owner (.literal _) | .owner (.property _ _) =>
    refine .inr ⟨entered, entered', rfl, rfl, fun b hb key hkey => ?_⟩
    exact h key (.head hb hkey)
  | .owner (.symbol k) =>
    have hk := h k .refl
    by_cases hmem : k ∈ entered
    · exact .inl ⟨by simp [Inference.enter, hmem], by simp [Inference.enter, hk.1 hmem]⟩
    · refine .inr ⟨k :: entered, k :: entered', by simp [Inference.enter, hmem],
        by simp [Inference.enter, mt hk.2 hmem], fun b hb key hkey => ?_⟩
      simp only [List.mem_cons, h key (.head hb hkey)]

/-- The answer to a call depends on the symbols that it reaches. -/
theorem within_congr (depth : Nat) {a : Call} {entered entered' : List Symbol}
    (h : SameFor s a entered entered') : within s depth entered a = within s depth entered' a := by
  induction depth generalizing a entered entered' with
  | zero => rfl
  | succ depth ih =>
    rcases h.enter with ⟨hnone, hnone'⟩ | ⟨next, next', hsome, hsome', hnext⟩
    · rw [within_of_enter_eq_none hnone, within_of_enter_eq_none hnone']
    · rw [within_of_enter_eq_some hsome, within_of_enter_eq_some hsome']
      congr 1
      funext b hb
      exact ih (hnext b hb)

end Inference

end ScriptTypes
