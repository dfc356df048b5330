import ScriptTypes.Proofs.Duplicates
import ScriptTypes.Proofs.Scope.Posted

/-!
# What the keys of object literals lead to

An object literal is collected pair by pair, and literals inside it with it. Pairs with the same key
share one collection, whatever their values are, so a list of keys leads through several literals at
once. `Module.reached` follows the keys through the module, one key at a time and all literals side
by side; the collection is filled one literal after the other, each with all that is inside it. Both
find the same values in the same order.

Main statement: `literals_are_collected_along_keys`.
-/

namespace ScriptTypes

open Script (Form Module NodeId)

/-! ### Collections of keyed values -/

namespace KeyedValue

/-- The value with its keys, as what is posted to the one owner of a collection. -/
def posting (kv : KeyedValue) : Posting := .given "" kv.keys kv.value

/-- The value, if the keys lead to it. -/
def valueAt? (keys : List String) (kv : KeyedValue) : Option NodeId :=
  if kv.keys = keys then some kv.value else none

theorem valueAt?_posting (keys : List String) (kv : KeyedValue) :
    kv.posting.valueAt? "" keys = kv.valueAt? keys := by
  simp [posting, valueAt?, Posting.valueAt?]

theorem recorded_collect (path : String) (kvs : List KeyedValue) :
    (collect path kvs).Recorded (fun _ => True) (fun _ => True) path :=
  Collection.recorded_collect fun _ _ => ⟨fun _ _ => trivial, trivial⟩

/-- A collection holds what was posted to it. It exists before the first value. -/
theorem valuesAt?_collect (path : String) (kvs : List KeyedValue) (keys : List String) :
    (collect path kvs).valuesAt? keys
      = Posting.collected (.declared "" :: kvs.map posting) "" keys := by
  induction kvs using List.reverseRecOn with
  | nil => cases keys <;> rfl
  | append_singleton kvs kv ih =>
    have hcollect : collect path (kvs ++ [kv]) = (collect path kvs).add kv.value kv.keys := by
      rw [collect, List.foldl_append]
      rfl
    rw [hcollect, Collection.valuesAt?_add (recorded_collect path kvs), List.map_append,
      ← List.cons_append, List.map_singleton, Posting.collected_concat, ih, valueAt?_posting]
    simp [Posting.reaches, posting, valueAt?]

/-- Keys lead to a collection if they begin the keys of a value. -/
theorem isSome_valuesAt?_collect (path : String) (kvs : List KeyedValue) (keys : List String) :
    ((collect path kvs).valuesAt? keys).isSome = true ↔
      keys = [] ∨ ∃ kv ∈ kvs, keys <+: kv.keys := by
  rw [valuesAt?_collect, Posting.collected]
  split
  · rename_i hreaches
    simpa [Posting.reaches, posting] using hreaches
  · rename_i hreaches
    simpa [Posting.reaches, posting] using hreaches

/-- The values that keys lead to are those that were added with these keys. -/
theorem values_of_at?_collect {path : String} {kvs : List KeyedValue} {keys : List String}
    {c : Collection} (hc : (collect path kvs).at? keys = some c) :
    c.values = (kvs.filterMap (valueAt? keys)).eraseDups := by
  have hvalues : (collect path kvs).valuesAt? keys = some c.values := by
    rw [Collection.valuesAt?, hc]
    rfl
  have hpostings : (Posting.declared "" :: kvs.map posting).filterMap (Posting.valueAt? "" keys)
      = kvs.filterMap (valueAt? keys) := by
    rw [List.filterMap_cons_none rfl, List.filterMap_map]
    exact List.filterMap_congr fun kv _ => valueAt?_posting keys kv
  rw [← hpostings, ← Posting.getD_collected, ← valuesAt?_collect path, hvalues]
  rfl

end KeyedValue

namespace Script.Module

variable {m : Module}

/-! ### Following keys -/

/-- The values of the pairs of an object literal with a key, in the order of the text. Other nodes
have none. -/
def valuesOf (m : Module) (key : String) (n : NodeId) : List NodeId :=
  (m.pairs n).filterMap fun p =>
    (m.pair? p).bind fun pair => if pair.1 = key then some pair.2 else none

/-- The nodes that a list of keys leads to: from each object literal reached so far to the values of
its pairs with the next key. -/
def reached (m : Module) (nodes : List NodeId) (keys : List String) : List NodeId :=
  keys.foldl (fun nodes key => nodes.flatMap (m.valuesOf key)) nodes

@[simp] theorem reached_nil (nodes : List NodeId) : m.reached nodes [] = nodes := rfl

@[simp] theorem reached_cons (nodes : List NodeId) (key : String) (keys : List String) :
    m.reached nodes (key :: keys) = m.reached (nodes.flatMap (m.valuesOf key)) keys := rfl

theorem reached_append (nodes : List NodeId) (keys keys' : List String) :
    m.reached nodes (keys ++ keys') = m.reached (m.reached nodes keys) keys' :=
  List.foldl_append

/-- Nodes are followed one after the other. -/
theorem reached_eq_flatMap (nodes : List NodeId) (keys : List String) :
    m.reached nodes keys = nodes.flatMap fun n => m.reached [n] keys := by
  induction keys generalizing nodes with
  | nil => simp
  | cons key keys ih =>
    rw [reached_cons, ih, List.flatMap_assoc]
    refine List.flatMap_congr fun n _ => ?_
    rw [reached_cons, List.flatMap_singleton, ← ih]

@[simp] theorem reached_of_nil (keys : List String) : m.reached [] keys = [] := by
  rw [reached_eq_flatMap, List.flatMap_nil]

/-! ### The values of a literal by their keys -/

theorem literalValues_eq (keys : List String) (n : NodeId) :
    m.literalValues keys n = ⟨keys, n⟩ :: (m.pairs n).flatMap fun p =>
      (m.pair? p).elim [] fun pair => m.literalValues (keys ++ [pair.1]) pair.2 := by
  rw [literalValues]
  congr 1
  conv_rhs => rw [← List.attach_map_subtype_val (m.pairs n), List.flatMap_map]
  refine List.flatMap_congr fun p _ => ?_
  split
  · rename_i hpair
    rw [hpair]
    rfl
  · rename_i hpair
    rw [hpair]
    rfl

theorem lt_of_pair? {n p v : NodeId} {key : String} (hp : p ∈ m.pairs n)
    (hpair : m.pair? p = some (key, v)) : v < n :=
  ((m.below_of_pair? hpair).trans (m.below_of_mem_pairs hp)).lt

/-- The keys of a literal come first in those of the values inside it. -/
theorem prefix_of_mem_literalValues {keys : List String} {n : NodeId} {kv : KeyedValue}
    (h : kv ∈ m.literalValues keys n) : keys <+: kv.keys := by
  induction n using Nat.strong_induction_on generalizing keys with
  | _ n ih =>
    rw [literalValues_eq] at h
    rcases List.mem_cons.1 h with rfl | h
    · exact List.prefix_rfl
    · obtain ⟨p, hp, h⟩ := List.mem_flatMap.1 h
      cases hpair : m.pair? p with
      | none =>
        rw [hpair] at h
        cases h
      | some pair =>
        rw [hpair] at h
        exact (List.prefix_append keys [pair.1]).trans (ih pair.2 (lt_of_pair? hp hpair) h)

/-- No value has these keys if the keys of the literal part from them. -/
theorem filterMap_valueAt?_eq_nil {keys keys' : List String} (h : ¬keys <+: keys') (n : NodeId) :
    (m.literalValues keys n).filterMap (KeyedValue.valueAt? keys') = [] := by
  refine List.filterMap_eq_nil_iff.2 fun kv hkv => if_neg ?_
  rintro rfl
  exact h (prefix_of_mem_literalValues hkv)

/-- The values of a literal with given keys are those that the keys lead to. -/
theorem filterMap_valueAt?_literalValues (keys keys' : List String) (n : NodeId) :
    (m.literalValues keys n).filterMap (KeyedValue.valueAt? (keys ++ keys'))
      = m.reached [n] keys' := by
  induction n using Nat.strong_induction_on generalizing keys keys' with
  | _ n ih =>
    rw [literalValues_eq]
    cases keys' with
    | nil =>
      -- the literal itself; all other values have more keys
      have hinside : ((m.pairs n).flatMap fun p => (m.pair? p).elim [] fun pair =>
          m.literalValues (keys ++ [pair.1]) pair.2).filterMap (KeyedValue.valueAt? keys) = [] := by
        rw [List.filterMap_flatMap, List.flatMap_eq_nil_iff]
        intro p _
        cases m.pair? p with
        | none => rfl
        | some pair =>
          refine filterMap_valueAt?_eq_nil (fun hprefix => ?_) pair.2
          simpa using hprefix.length_le
      have hself : KeyedValue.valueAt? keys ⟨keys, n⟩ = some n := if_pos rfl
      rw [List.append_nil, List.filterMap_cons_some hself, hinside, reached_nil]
    | cons key keys' =>
      have hself : KeyedValue.valueAt? (keys ++ key :: keys') ⟨keys, n⟩ = none :=
        if_neg (by simp)
      rw [List.filterMap_cons_none hself, List.filterMap_flatMap, reached_cons,
        List.flatMap_singleton, reached_eq_flatMap, valuesOf, List.filterMap_eq_flatMap_toList,
        List.flatMap_assoc]
      refine List.flatMap_congr fun p hp => ?_
      cases hpair : m.pair? p with
      | none => rfl
      | some pair =>
        by_cases hkey : pair.1 = key
        · subst hkey
          have hvalue := ih pair.2 (lt_of_pair? hp hpair) (keys ++ [pair.1]) keys'
          rw [List.append_assoc, List.singleton_append] at hvalue
          simpa using hvalue
        · have hparts : ¬keys ++ [pair.1] <+: keys ++ key :: keys' := by
            simpa using fun heq => hkey heq
          simpa [hkey] using filterMap_valueAt?_eq_nil hparts pair.2

/-! ### Each value once -/

theorem pairs_sublist (n : NodeId) : (m.pairs n).Sublist (m.children n) := by
  unfold pairs children
  split
  · rename_i hform
    rw [hform]
    exact .refl _
  · exact List.nil_sublist _

theorem mem_children_of_pair? {p v : NodeId} {key : String} (h : m.pair? p = some (key, v)) :
    v ∈ m.children p := by
  unfold pair? at h
  split at h
  · rename_i hform
    cases h
    rw [children, hform]
    exact List.mem_singleton_self v
  · cases h

theorem mem_children_of_keyed {key : String} {p v : NodeId}
    (h : ((m.pair? p).bind fun pair => if pair.1 = key then some pair.2 else none) = some v) :
    v ∈ m.children p := by
  obtain ⟨⟨key', v'⟩, hpair, hv⟩ := Option.bind_eq_some_iff.1 h
  obtain ⟨-, ⟨⟩⟩ := Option.ite_none_right_eq_some.1 hv
  exact mem_children_of_pair? hpair

namespace WellFormed

variable (h : m.WellFormed)
include h

theorem nodup_valuesOf (key : String) (n : NodeId) : (m.valuesOf key n).Nodup := by
  refine List.Nodup.filterMap (fun p p' v hv hv' => ?_)
    ((h.nodup_children n).sublist (pairs_sublist n))
  exact eq_of_mem_children h.children (mem_children_of_keyed hv) (mem_children_of_keyed hv')

/-- Different literals share no values. -/
theorem disjoint_valuesOf (key : String) {n n' : NodeId} (hne : n ≠ n') :
    (m.valuesOf key n).Disjoint (m.valuesOf key n') := by
  intro v hv hv'
  obtain ⟨p, hp, hv⟩ := List.mem_filterMap.1 hv
  obtain ⟨p', hp', hv'⟩ := List.mem_filterMap.1 hv'
  obtain rfl := eq_of_mem_children h.children (mem_children_of_keyed hv) (mem_children_of_keyed hv')
  exact hne (eq_of_mem_children h.children ((pairs_sublist n).subset hp)
    ((pairs_sublist n').subset hp'))

/-- Keys lead to each node once. -/
theorem nodup_reached {nodes : List NodeId} (hnodes : nodes.Nodup) (keys : List String) :
    (m.reached nodes keys).Nodup := by
  induction keys generalizing nodes with
  | nil => exact hnodes
  | cons key keys ih =>
    refine ih (List.nodup_flatMap.2 ⟨fun n _ => h.nodup_valuesOf key n, ?_⟩)
    exact hnodes.imp fun hne => h.disjoint_valuesOf key hne

end WellFormed

/-- Keys lead to a collection exactly if they lead to a value. -/
theorem isSome_at?_literalCollection (o : NodeId) (keys : List String) :
    ((m.literalCollection o).at? keys).isSome = true ↔ m.reached [o] keys ≠ [] := by
  have hvalues := filterMap_valueAt?_literalValues (m := m) [] (n := o)
  have hsome := KeyedValue.isSome_valuesAt?_collect "" (m.literalValues [] o) keys
  rw [Collection.valuesAt?, Option.isSome_map] at hsome
  refine hsome.trans ⟨?_, fun hne => ?_⟩
  · rintro (rfl | ⟨kv, hkv, more, hmore⟩)
    · simp
    · intro hnil
      have hmem : kv.value ∈ m.reached [o] kv.keys := by
        rw [← hvalues]
        exact List.mem_filterMap.2 ⟨kv, hkv, if_pos rfl⟩
      rw [← hmore, reached_append, hnil, reached_of_nil] at hmem
      cases hmem
  · obtain ⟨v, hv⟩ := List.exists_mem_of_ne_nil _ hne
    rw [← hvalues] at hv
    obtain ⟨kv, hkv, hkeys⟩ := List.mem_filterMap.1 hv
    obtain ⟨rfl, -⟩ := Option.ite_none_right_eq_some.1 hkeys
    exact .inr ⟨kv, hkv, List.prefix_rfl⟩

/-- The collection of an object literal follows the keys of its pairs. It has a collection under a
list of keys exactly if the keys lead to a value, and the values in it are those that the keys lead
to, each once: from the literal itself, over the object literals reached so far, to the values of
their pairs with the next key, in the order of the text. -/
theorem literals_are_collected_along_keys {cs : List Char} {m : Module} (hm : ofText cs = .ok m)
    (o : NodeId) (keys : List String) :
    (((m.literalCollection o).at? keys).isSome = true ↔ m.reached [o] keys ≠ []) ∧
      (∀ c, (m.literalCollection o).at? keys = some c → c.values = m.reached [o] keys) ∧
      (m.reached [o] keys).Nodup := by
  have hnodup := (wellFormed_of_ofText hm).nodup_reached (List.nodup_singleton o) keys
  refine ⟨isSome_at?_literalCollection o keys, fun c hc => ?_, hnodup⟩
  have hvalues := filterMap_valueAt?_literalValues (m := m) [] keys o
  rw [List.nil_append] at hvalues
  rw [KeyedValue.values_of_at?_collect hc, hvalues, eraseDups_eq_self hnodup]

/-- Three pairs share a key. One holds a number, and the literals in the other two share the key of
their pairs. -/
theorem values_of_repeated_keys_are_merged : ∃ m : Module,
    ofText "x = \x7ba: \x7bb: 1\x7d, a: 2, a: \x7bb: \x7bc: 3\x7d, b: 4\x7d\x7d;".toList = .ok m ∧
      (m.literalCollection 15).at? ["b"] = none ∧
      ∃ c, (m.literalCollection 15).at? ["a", "b"] = some c ∧ c.values = [1, 9, 11] := by
  obtain ⟨m, hm, hlead, habsent⟩ := exists_ofText
    "x = \x7ba: \x7bb: 1\x7d, a: 2, a: \x7bb: \x7bc: 3\x7d, b: 4\x7d\x7d;"
    (fun m => m.reached [15] ["a", "b"] = [1, 9, 11] ∧ m.reached [15] ["b"] = [])
    (by decide +kernel)
  obtain ⟨hsome, hvalues, -⟩ := literals_are_collected_along_keys hm 15 ["a", "b"]
  obtain ⟨hsome', -, -⟩ := literals_are_collected_along_keys hm 15 ["b"]
  obtain ⟨c, hc⟩ := Option.isSome_iff_exists.1 (hsome.2 (by simp [hlead]))
  refine ⟨m, hm, ?_, c, hc, (hvalues c hc).trans hlead⟩
  rw [← Option.not_isSome_iff_eq_none, hsome']
  exact fun hne => hne habsent

end Script.Module

end ScriptTypes
