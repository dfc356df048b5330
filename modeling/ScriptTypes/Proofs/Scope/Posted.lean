import ScriptTypes.Proofs.Scope.Recorded

/-!
# What is posted to a scope

A scope is filled one posting after the other: a name that is declared, or a value that is given to
a name or to a property reached from it. What stands under a list of keys afterwards depends on the
postings alone: there is a collection if a posting went there or passed through, and its values are
those that were given there, in their order and without repetition.
-/

namespace ScriptTypes

open Script (NodeId)

/-- What is put into a scope at a time. -/
inductive Posting where
  | declared (name : String)
  | given (name : String) (keys : List String) (value : NodeId)

namespace Posting

/-- A declaration, perhaps with a value. -/
def ofDeclaration (name : String) : Option NodeId → Posting
  | none => declared name
  | some value => given name [] value

def name : Posting → String
  | declared name | given name _ _ => name

def keys : Posting → List String
  | declared _ => []
  | given _ keys _ => keys

/-- Is there a collection under a name and keys because of the posting? -/
def reaches (name : String) (keys : List String) (p : Posting) : Bool :=
  p.name == name && keys.isPrefixOf p.keys

/-- The value that a posting gives to what a name and keys lead to. -/
def valueAt? (name : String) (keys : List String) : Posting → Option NodeId
  | declared _ => none
  | given name' keys' value => if name' = name ∧ keys' = keys then some value else none

/-- The values under a name and keys after some postings, if there is a collection. -/
def collected (ps : List Posting) (name : String) (keys : List String) : Option (List NodeId) :=
  if ps.any (reaches name keys) then some (ps.filterMap (valueAt? name keys)).eraseDups else none

@[simp] theorem name_declared (name : String) : (declared name).name = name := rfl

@[simp] theorem name_given (name : String) (keys : List String) (value : NodeId) :
    (given name keys value).name = name := rfl

@[simp] theorem keys_declared (name : String) : (declared name).keys = [] := rfl

@[simp] theorem keys_given (name : String) (keys : List String) (value : NodeId) :
    (given name keys value).keys = keys := rfl

@[simp] theorem keys_ofDeclaration (name : String) (value : Option NodeId) :
    (ofDeclaration name value).keys = [] := by
  cases value <;> rfl

@[simp] theorem name_ofDeclaration (name : String) (value : Option NodeId) :
    (ofDeclaration name value).name = name := by
  cases value <;> rfl

@[simp] theorem reaches_nil (name : String) (p : Posting) :
    p.reaches name [] = (p.name == name) := by
  simp [reaches]

theorem valueAt?_eq_none {name : String} {keys : List String} {p : Posting}
    (h : p.reaches name keys = false) : p.valueAt? name keys = none := by
  cases p with
  | declared _ => rfl
  | given name' keys' value =>
    refine if_neg ?_
    rintro ⟨rfl, rfl⟩
    simp [reaches, List.isPrefixOf_iff_prefix.2 List.prefix_rfl] at h

/-- Values with one more, unless it is there already. -/
def note (values : List NodeId) : Option NodeId → List NodeId
  | none => values
  | some value => if values.contains value then values else values ++ [value]

theorem eraseDups_append_toList (values : List NodeId) (value : Option NodeId) :
    (values ++ value.toList).eraseDups = note values.eraseDups value := by
  cases value with
  | none => simp [note]
  | some v =>
    rw [List.eraseDups_append, note]
    by_cases hv : v ∈ values <;> simp [List.removeAll, hv, List.eraseDups_cons]

theorem getD_collected (ps : List Posting) (name : String) (keys : List String) :
    (collected ps name keys).getD [] = (ps.filterMap (valueAt? name keys)).eraseDups := by
  rw [collected]
  split
  · rfl
  · rename_i hnone
    have hnil : ps.filterMap (valueAt? name keys) = [] := by
      refine List.filterMap_eq_nil_iff.2 fun p hp => valueAt?_eq_none ?_
      rw [Bool.eq_false_iff]
      exact fun hreaches => hnone (List.any_eq_true.2 ⟨p, hp, hreaches⟩)
    rw [hnil]
    rfl

/-- One more posting changes only what it reaches. -/
theorem collected_concat (ps : List Posting) (p : Posting) (name : String) (keys : List String) :
    collected (ps ++ [p]) name keys = if p.reaches name keys then
        some (note ((collected ps name keys).getD []) (p.valueAt? name keys))
      else collected ps name keys := by
  rw [getD_collected, ← eraseDups_append_toList, collected, List.any_append, List.filterMap_append]
  have hvalue : [p].filterMap (valueAt? name keys) = (p.valueAt? name keys).toList := by
    cases hp : p.valueAt? name keys <;> simp [hp]
  rw [hvalue]
  cases hreaches : p.reaches name keys with
  | true => simp [hreaches]
  | false => simp [hreaches, valueAt?_eq_none hreaches, collected]

end Posting

/-! ### Collections -/

namespace Collection

variable {Name : String → Prop} {Value : NodeId → Prop} {path : String} {c : Collection}

/-- The values under a list of property names. -/
def valuesAt? (c : Collection) (keys : List String) : Option (List NodeId) :=
  (c.at? keys).map values

theorem valuesAt?_nil (c : Collection) : c.valuesAt? [] = some c.values := rfl

theorem valuesAt?_cons (c : Collection) (key : String) (keys : List String) :
    c.valuesAt? (key :: keys) = (NameMap.get? key c.properties).bind (·.valuesAt? keys) := by
  rw [valuesAt?, at?, Option.map_bind]
  rfl

theorem recorded_getD {c? : Option Collection} (h : ∀ c ∈ c?, c.Recorded Name Value path) :
    (c?.getD (named path)).Recorded Name Value path := by
  cases c? with
  | none => exact recorded_named path
  | some c => exact h c rfl

/-- A collection that is made when it is missing has no values at first. -/
theorem getD_valuesAt?_getD (c? : Option Collection) (path : String) (keys : List String) :
    ((c?.getD (named path)).valuesAt? keys).getD [] = (c?.bind (·.valuesAt? keys)).getD [] := by
  cases c? with
  | none => cases keys <;> rfl
  | some c => rfl

theorem valuesAt?_getD (c? : Option Collection) (path : String) {keys : List String}
    (hkeys : keys ≠ []) : (c?.getD (named path)).valuesAt? keys = c?.bind (·.valuesAt? keys) := by
  cases c? with
  | none =>
    cases keys with
    | nil => exact absurd rfl hkeys
    | cons key keys => rfl
  | some c => rfl

/-- A value that is added changes what its keys pass through. -/
theorem valuesAt?_add (h : c.Recorded Name Value path) (v : NodeId) (keys keys' : List String) :
    (c.add v keys).valuesAt? keys' = if keys'.isPrefixOf keys then
        some (Posting.note ((c.valuesAt? keys').getD []) (if keys = keys' then some v else none))
      else c.valuesAt? keys' := by
  induction keys generalizing c path keys' with
  | nil =>
    cases h with
    | mk value sorted name property =>
      cases keys' with
      | nil => rfl
      | cons key' keys' => rfl
  | cons key keys ih =>
    cases h with
    | mk value sorted name property =>
      cases keys' with
      | nil => rfl
      | cons key' keys' =>
        rw [add, valuesAt?_cons, valuesAt?_cons, properties, properties]
        by_cases hkey : key' = key
        · subst hkey
          rw [NameMap.get?_upsert_self sorted, Option.bind_some]
          rw [ih (recorded_getD fun p hp => property (key', p) (NameMap.mem_of_get?_eq_some hp)),
            getD_valuesAt?_getD]
          cases hstarts : keys'.isPrefixOf keys with
          | true => simp [hstarts]
          | false =>
            rw [valuesAt?_getD _ _ (by rintro rfl; simp at hstarts)]
            simp [hstarts]
        · rw [NameMap.get?_upsert_of_ne hkey]
          simp [hkey]

/-- The path of what keys lead to is made of the path so far and the keys. -/
theorem Recorded.path_at? (h : c.Recorded Name Value path) (hpath : path ≠ "") {keys : List String}
    {c' : Collection} (hc : c.at? keys = some c') : c'.path = ".".intercalate (path :: keys) := by
  induction keys generalizing c path with
  | nil =>
    obtain rfl := Option.some.inj hc
    rw [h.path_eq, String.intercalate_singleton]
  | cons key keys ih =>
    obtain ⟨p, hp, hc⟩ := Option.bind_eq_some_iff.1 hc
    have hp := h.property _ (NameMap.mem_of_get?_eq_some hp)
    have hjoin : propertyPath path key = path ++ "." ++ key := by
      rw [propertyPath, if_neg (by simpa using hpath)]
    rw [hjoin] at hp
    rw [ih hp (by simp) hc, String.intercalate_cons_append, String.intercalate_cons_cons]

end Collection

/-! ### Scopes -/

namespace Scope

variable {Name : String → Prop} {Value : NodeId → Prop} {scope : Scope}

/-- The scope after a posting. -/
def post (scope : Scope) : Posting → Scope
  | .declared name => scope.declare name
  | .given name keys value => scope.add name keys value

/-- The collection under a name and the names of properties. -/
def at? (scope : Scope) (name : String) (keys : List String) : Option Collection :=
  (NameMap.get? name scope.symbols).bind (·.at? keys)

/-- The values under a name and the names of properties. -/
def valuesAt? (scope : Scope) (name : String) (keys : List String) : Option (List NodeId) :=
  (NameMap.get? name scope.symbols).bind (·.valuesAt? keys)

theorem valuesAt?_eq (scope : Scope) (name : String) (keys : List String) :
    scope.valuesAt? name keys = (scope.at? name keys).map Collection.values := by
  rw [valuesAt?, at?, Option.map_bind]
  rfl

/-- A posting changes what it reaches. -/
theorem valuesAt?_post (h : scope.Recorded Name Value) (p : Posting) (name : String)
    (keys : List String) : (scope.post p).valuesAt? name keys = if p.reaches name keys then
        some (Posting.note ((scope.valuesAt? name keys).getD []) (p.valueAt? name keys))
      else scope.valuesAt? name keys := by
  cases p with
  | declared name' =>
    by_cases hname : name' = name
    · subst hname
      rw [post, valuesAt?, valuesAt?, declare, NameMap.get?_upsert_self h.sorted, Option.bind_some]
      cases keys with
      | nil =>
        rw [← Collection.getD_valuesAt?_getD _ name', Collection.valuesAt?_nil]
        simp [Posting.valueAt?, Posting.note]
      | cons key keys =>
        rw [Collection.valuesAt?_getD _ _ (List.cons_ne_nil _ _)]
        simp [Posting.reaches]
    · rw [post, valuesAt?, valuesAt?, declare, NameMap.get?_upsert_of_ne (Ne.symm hname)]
      simp [Posting.reaches, hname]
  | given name' keys' value =>
    by_cases hname : name' = name
    · subst hname
      rw [post, valuesAt?, valuesAt?, add, NameMap.get?_upsert_self h.sorted, Option.bind_some,
        Collection.valuesAt?_add (Collection.recorded_getD fun c hc =>
          (h.symbols (name', c) (NameMap.mem_of_get?_eq_some hc)).2),
          Collection.getD_valuesAt?_getD]
      cases hstarts : keys.isPrefixOf keys' with
      | true => simp [Posting.reaches, Posting.valueAt?, hstarts]
      | false =>
        rw [Collection.valuesAt?_getD _ _ (by rintro rfl; simp at hstarts)]
        simp [Posting.reaches, hstarts]
    · rw [post, valuesAt?, valuesAt?, add, NameMap.get?_upsert_of_ne (Ne.symm hname)]
      simp [Posting.reaches, hname]

end Scope

end ScriptTypes
