import ScriptTypes.Inference.Call

/-!
# Nested calls end

Inference runs a call while some symbols are being inferred. Entering a symbol leaves fewer symbols
that can be entered. All other calls descend: from a node to a node below it, from an object
literal to its properties, and from a collection to a value or to a property of it, where the
values of an object literal's properties are below the literal.

Main statement: `descends`. It is what the recursion of inference rests on.
-/

namespace ScriptTypes.Inference

open Script (NodeId)

/-- The symbols that are being inferred once a call has begun. A symbol that is being inferred
already does not begin again. -/
def enter (entered : List Symbol) : Call → Option (List Symbol)
  | .owner (.symbol key) => if key ∈ entered then none else some (key :: entered)
  | _ => some entered

/-- The number of symbols that can still be entered. -/
def free (s : Setting) (entered : List Symbol) : Nat :=
  (s.symbols.filter fun k => !entered.contains k).length

/-- Entering a symbol leaves fewer that can be entered. -/
theorem free_cons_lt {s : Setting} {entered : List Symbol} {k : Symbol} (hk : k ∈ s.symbols)
    (h : k ∉ entered) : free s (k :: entered) < free s entered := by
  have hsplit : (s.symbols.filter fun j => !(k :: entered).contains j)
      = (s.symbols.filter fun j => !entered.contains j).filter (fun j => j ≠ k) := by
    rw [List.filter_filter]
    exact List.filter_congr fun j _ => by simp [Bool.not_or]
  have hmem : k ∈ s.symbols.filter fun j => !entered.contains j := by simp [hk, h]
  rw [free, hsplit]
  exact List.length_filter_lt_length_iff_exists.2 ⟨k, hmem, by simp⟩

/-- The least number above all nodes of a list. -/
def top (nodes : List NodeId) : Nat := nodes.foldr (fun v t => max (v + 1) t) 0

theorem top_le_iff {nodes : List NodeId} {b : Nat} : top nodes ≤ b ↔ ∀ v ∈ nodes, v < b := by
  induction nodes with
  | nil => simp [top]
  | cons v nodes ih =>
    rw [top, List.foldr_cons, Nat.max_le, List.forall_mem_cons]
    exact and_congr Iff.rfl ih

theorem lt_top {nodes : List NodeId} {v : NodeId} (h : v ∈ nodes) : v < top nodes :=
  top_le_iff.1 (Nat.le_refl _) v h

/-- What calls descend on while no symbol is entered. -/
noncomputable def descent (s : Setting) : Call → Nat × Nat × Nat
  | .node _ n => (n + 1, 1, 0)
  | .owner (.literal n) => (n + 1, 0, 0)
  | .owner (.symbol _) => (0, 0, 0)
  | .owner (.property o name) =>
    let c := (Owner.property o name).collection s
    (top c.all, 2, sizeOf c)

/-- The lexicographic order on `descent`. -/
abbrev Lower : Nat × Nat × Nat → Nat × Nat × Nat → Prop :=
  Prod.Lex (· < ·) (Prod.Lex (· < ·) (· < ·))

theorem lower_of_le {a b : Nat} {p q : Nat × Nat} (h : a ≤ b)
    (hpq : Prod.Lex (· < ·) (· < ·) p q) : Lower (a, p) (b, q) := by
  rcases Nat.lt_or_eq_of_le h with h | rfl
  · exact Prod.Lex.left _ _ h
  · exact Prod.Lex.right _ hpq

variable {s : Setting}

/-- A property of an owner is an entry of the owner's collection. -/
theorem mem_properties {o : Owner} {p : String × Collection}
    (hp : p ∈ (o.collection s).properties) :
    (p.1, (Owner.property o p.1).collection s) ∈ (o.collection s).properties := by
  obtain ⟨c, hc⟩ := NameMap.exists_get?_of_mem hp
  rw [Owner.collection, hc]
  exact NameMap.mem_of_get?_eq_some hc

theorem lower_of_mem_callees_node {scope : ScopeId} {n : NodeId} {b : Call}
    (hb : b ∈ s.callees (.node scope n)) : Lower (descent s b) (descent s (.node scope n)) := by
  rcases List.mem_append.1 hb with hb | hb
  · obtain ⟨p, hp, rfl⟩ := List.mem_map.1 hb
    exact .left _ _ (Nat.succ_lt_succ (s.below_of_mem_parts hp).lt)
  · obtain ⟨o, ho, rfl⟩ := List.mem_map.1 hb
    rcases s.owner?_cases (Option.mem_toList.1 ho) with ⟨-, -, -, rfl⟩ | ⟨key, -, rfl⟩
    · exact .right _ (.left _ _ Nat.one_pos)
    · exact .left _ _ (Nat.succ_pos _)

theorem lower_of_mem_callees_property {o : Owner} {name : String} {b : Call}
    (hb : b ∈ s.callees (.owner (.property o name))) :
    Lower (descent s b) (descent s (.owner (.property o name))) := by
  rcases List.mem_append.1 hb with hb | hb
  · obtain ⟨v, hv, rfl⟩ := List.mem_map.1 hb
    have hall := Collection.mem_all.2 (.inl (List.mem_filter.1 hv).1)
    exact lower_of_le (lt_top hall) (.left _ _ (by decide))
  · obtain ⟨p, hp, rfl⟩ := List.mem_map.1 hb
    have hsub := mem_properties hp
    have htop : top ((Owner.property (.property o name) p.1).collection s).all
        ≤ top ((Owner.property o name).collection s).all :=
      top_le_iff.2 fun v hv => lt_top (Collection.mem_all.2 (.inr ⟨_, hsub, hv⟩))
    exact lower_of_le htop (.right _ (Collection.sizeOf_lt_of_mem_properties hsub))

/-- A call is lower than its caller, unless this is a symbol. -/
theorem lower_of_mem_callees {a b : Call} (hb : b ∈ s.callees a)
    (ha : ∀ key, a ≠ .owner (.symbol key)) : Lower (descent s b) (descent s a) := by
  match a with
  | .node scope n => exact lower_of_mem_callees_node hb
  | .owner (.symbol key) => exact absurd rfl (ha key)
  | .owner (.property o name) => exact lower_of_mem_callees_property hb
  | .owner (.literal n) =>
    rcases List.mem_append.1 hb with hb | hb
    · obtain ⟨v, hv, rfl⟩ := List.mem_map.1 hb
      cases (List.mem_filter.1 hv).1
    · obtain ⟨p, hp, rfl⟩ := List.mem_map.1 hb
      refine .left _ _ (Nat.lt_succ_of_le (top_le_iff.2 fun v hv => ?_))
      exact (s.module.below_of_mem_literalCollection (mem_properties hp) hv).lt

/-- Nested calls have fewer symbols to enter, or they are lower. -/
theorem descends {entered entered' : List Symbol} {a b : Call} (ha : enter entered a = some entered')
    (hb : b ∈ s.callees a) :
    Prod.Lex (· < ·) Lower (free s entered', descent s b) (free s entered, descent s a) := by
  match a with
  | .owner (.symbol key) =>
    obtain ⟨hkey, rfl⟩ : key ∉ entered ∧ key :: entered = entered' := by simpa [enter] using ha
    exact .left _ _ (free_cons_lt (s.mem_symbols_of_callee hb) hkey)
  | .node _ _ | .owner (.literal _) | .owner (.property _ _) =>
    obtain rfl : entered = entered' := by simpa [enter] using ha
    exact .right _ (lower_of_mem_callees hb (by simp))

end ScriptTypes.Inference
