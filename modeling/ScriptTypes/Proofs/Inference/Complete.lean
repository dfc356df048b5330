import ScriptTypes.Proofs.Inference.Identity
import ScriptTypes.Proofs.Inference.Leads
import ScriptTypes.Proofs.Inference.Repeats

/-!
# Assigned properties are found

A property that a script assigns to a symbol is found from the types of the symbol: they show it
themselves, or it is a member of the generated type of the symbol, and the same holds of the
properties of a property. Which of the two it is was decided when the type was generated, perhaps
while other types were being filled; the types that showed the property then are parents of the
generated type and show it ever after.

A registry is complete if all properties of a symbol's owner are found from its type once this is
registered and filled. Types that are being filled are left out: their owners are open. No owner of
a symbol is called from inside itself, since its symbol is being inferred, so every such owner is
closed with all its properties.
-/

namespace ScriptTypes

open Script (Module)
open ScriptTypes.TypeName.Vocabulary

/-- All recorded properties of an owner are found from some types. -/
def Owner.Led (s : Setting) (r : Registry) (o : Owner) (types : List TypeName) : Prop :=
  ∀ path, ((o.collection s).at? path).isSome = true → r.Leads s.index types path

variable {s : Setting} {hs : s.Apart} {r r' : Registry}

theorem Owner.Led.filled {o : Owner} {types : List TypeName} (h : o.Led s r types)
    (hr : r.Closed hs) (hr' : r'.Closed hs) (hfilled : r.Filled r')
    (htypes : (r.vocabulary hs).KnowsAll types) : o.Led s r' types :=
  fun path hpath => (h path hpath).filled hr hr' hfilled htypes

theorem Owner.collection_symbol {scope owner : ScopeId} {name : String} {c : Collection}
    (h : s.scopes.symbol? scope name = some (owner, c)) :
    (Owner.symbol (owner, name)).collection s = c := by
  obtain ⟨id, -, hid⟩ := List.exists_of_findSome?_eq_some h
  obtain ⟨c', hc, heq⟩ := Option.map_eq_some_iff.1 hid
  cases heq
  rw [Owner.collection, hc]
  rfl

/-- It is enough to find what begins with each property. -/
theorem Owner.led_of_properties {o : Owner} {types : List TypeName}
    (h : ∀ p ∈ (o.collection s).properties,
      NameMap.get? p.1 (o.collection s).properties = some p.2 →
        ∀ path, (p.2.at? path).isSome = true → r.Leads s.index types (p.1 :: path)) :
    o.Led s r types := by
  intro path hpath
  cases path with
  | nil => exact .nil
  | cons p path =>
    obtain ⟨c, hc⟩ := Option.isSome_iff_exists.1 hpath
    obtain ⟨sub, hsub, hc⟩ := Option.bind_eq_some_iff.1 hc
    have hmem := NameMap.mem_of_get?_eq_some hsub
    exact h (p, sub) hmem hsub path (Option.isSome_iff_exists.2 ⟨c, hc⟩)

/-- A property without properties ends its paths. -/
theorem Collection.leads_of_lookup {c : Collection} (hleaf : c.hasProperties = false)
    {path : List String} (hpath : (c.at? path).isSome = true) {types : List TypeName} {t : TypeName}
    (ht : t ∈ types) {p : String} (hfound : r.lookup s.index t p ≠ []) :
    r.Leads s.index types (p :: path) := by
  have hempty : c.properties = [] := by simpa [Collection.hasProperties] using hleaf
  cases path with
  | nil => exact .last ht hfound
  | cons q path => simp [Collection.at?, hempty] at hpath

namespace Inference

/-- All properties of symbols are found from the types that are registered for them, except for
those of the owners in `opened`. -/
def Complete (s : Setting) (opened : List Owner) (r : Registry) : Prop :=
  ∀ o ∈ s.owners, o.home.isSome = true → o ∉ opened → Entries.contains (o.type s) r = true →
    o.Led s r [o.type s]

/-- A registry stays complete while more comes into it, if the new types are of open owners. -/
theorem Complete.filled {opened opened' : List Owner} (h : Complete s opened r) (hr : r.Closed hs)
    (hr' : r'.Closed hs) (hfilled : r.Filled r')
    (hnew : ∀ o ∈ s.owners, o.home.isSome = true → o ∉ opened' →
      Entries.contains (o.type s) r' = true → o ∉ opened ∧ Entries.contains (o.type s) r = true) :
    Complete s opened' r' := by
  intro o ho hhome hopened hmem
  obtain ⟨hopened, hmem⟩ := hnew o ho hhome hopened hmem
  refine (h o ho hhome hopened hmem).filled hr hr' hfilled ?_
  exact knowsAll_singleton.2 ((Registry.knows_type_iff ho).2 hmem)

/-! ### What is missing -/

section Missing

variable {a : Call} {calls : (b : Call) → b ∈ s.callees a → Infer b.Answer}

variable {o : Owner}

/-- Is a property not shown by some types, or one with properties of its own? -/
def isMissing (s : Setting) (r : Registry) (types : List TypeName) (p : String × Collection) :
    Bool :=
  p.2.hasProperties || !r.hasMember s.index types p.1

/-- The properties that are found missing, in their order. -/
theorem run_missing (calls : (b : Call) → b ∈ s.callees (.owner o) → Infer b.Answer)
    (types : List TypeName) (r : Registry) :
    ∃ names, (missing s o types).run (currently s) calls r = (names, r) ∧
      names.map Subtype.val
        = ((o.collection s).properties.filter (isMissing s r types)).map Prod.fst := by
  let name (p : { p // p ∈ (o.collection s).properties }) : PropertyName s o :=
    ⟨p.1.1, property_mem_callees s o p.2⟩
  refine ⟨_, Program.run_gather (g := fun p => if isMissing s r types p.1 then [name p] else []) ?_, ?_⟩
  · intro p
    by_cases hproperties : p.1.2.hasProperties = true
    · simp only [isMissing, hproperties, Bool.true_or, if_true]
      rfl
    · simp only [isMissing, hproperties, Bool.false_or]
      show (if r.hasMember s.index types p.1.1 = true then [] else [name p], r) = _
      cases r.hasMember s.index types p.1.1 <;> rfl
  · rw [List.map_flatMap]
    conv_rhs => rw [← List.attach_map_subtype_val (o.collection s).properties]
    generalize (o.collection s).properties.attach = properties
    induction properties with
    | nil => rfl
    | cons p properties ih =>
      rw [List.flatMap_cons, ih, List.map_cons, List.filter_cons]
      cases isMissing s r types p.1 <;> rfl

end Missing

/-! ### Open owners -/

/-- How a call is nested: in symbols that are being inferred, and in the generation of the types of
the owners in `opened`. Among these, the owners of a symbol are above a property that is called. -/
structure Enclosed (entered : List Symbol) (opened : List Owner) (a : Call) : Prop where
  around : ∀ key ∈ Call.around a, key ∈ entered
  homes : ∀ o ∈ opened, ∀ key ∈ o.home, key ∈ entered
  above : ∀ o ∈ opened, ∀ o' name, a = .owner (.property o' name) → ∀ key, o.home = some key →
    o'.home = some key → o.keys.length ≤ o'.keys.length

/-- A property is called by its owner. -/
theorem eq_owner_of_property_mem_callees {a : Call} {o : Owner} {name : String}
    (h : .owner (.property o name) ∈ s.callees a) : a = .owner o := by
  match a with
  | .node scope n =>
    rcases List.mem_append.1 h with h | h
    · obtain ⟨p, -, heq⟩ := List.mem_map.1 h
      cases heq
    · obtain ⟨o', ho', heq⟩ := List.mem_map.1 h
      rcases s.owner?_cases (Option.mem_toList.1 ho') with ⟨-, -, -, rfl⟩ | ⟨key, -, rfl⟩ <;>
        cases heq
  | .owner o' =>
    rcases List.mem_append.1 h with h | h
    · obtain ⟨v, -, heq⟩ := List.mem_map.1 h
      cases heq
    · obtain ⟨p, -, heq⟩ := List.mem_map.1 h
      cases heq
      rfl

namespace Enclosed

variable {entered entered' : List Symbol} {opened : List Owner} {a b : Call} {o : Owner}

theorem nested (h : Enclosed entered opened a) (ha : enter entered a = some entered')
    (hb : b ∈ s.callees a) : Enclosed entered' opened b where
  around := around_of_mem_callees h.around ha hb
  homes o ho key hkey := subset_of_enter ha (h.homes o ho key hkey)
  above o ho o' name hproperty key hkey hkey' := by
    subst hproperty
    obtain rfl := eq_owner_of_property_mem_callees hb
    match o' with
    | .literal n => cases hkey'
    | .symbol k =>
      cases hkey'
      simp [enter, h.homes o ho key hkey] at ha
    | .property o'' name' =>
      have habove := h.above o ho o'' name' rfl key hkey hkey'
      rw [Owner.keys, List.length_append]
      omega

theorem opening (h : Enclosed entered opened (.owner o))
    (ha : enter entered (.owner o) = some entered') (hb : b ∈ s.callees (.owner o)) :
    Enclosed entered' (o :: opened) b := by
  have hnested := h.nested ha hb
  refine ⟨hnested.around, List.forall_mem_cons.2 ⟨home_mem_of_enter h.around ha, hnested.homes⟩,
    List.forall_mem_cons.2 ⟨fun o' name hproperty key _ _ => ?_, hnested.above⟩⟩
  subst hproperty
  cases eq_owner_of_property_mem_callees hb
  exact Nat.le_refl _

/-- The owner of a symbol is not called from inside itself. -/
theorem not_mem (h : Enclosed entered opened (.owner o))
    (ha : enter entered (.owner o) = some entered') (hhome : o.home.isSome = true) :
    o ∉ opened := by
  intro ho
  obtain ⟨key, hkey⟩ := Option.isSome_iff_exists.1 hhome
  match o with
  | .literal n => cases hkey
  | .symbol k => simp [enter, h.homes _ ho k rfl] at ha
  | .property o' name =>
    have habove := h.above _ ho o' name rfl key hkey hkey
    rw [Owner.keys, List.length_append, List.length_singleton] at habove
    omega

end Enclosed

/-! ### Owners are closed with all their properties -/

/-- From a closed and complete registry, a computation leaves a complete one. -/
def KeepsComplete (hs : s.Apart) (opened : List Owner) {α : Type} (f : Infer α) : Prop :=
  ∀ r, r.Closed hs → Complete s opened r → Complete s opened (f r).2

theorem keepsComplete_run {opened : List Owner} {a : Call} {α : Type}
    {calls : (b : Call) → b ∈ s.callees a → Infer b.Answer}
    (hcalls : ∀ b hb, Repeats hs (fun V => b.Known V) (calls b hb))
    (hkeeps : ∀ b hb, KeepsComplete hs opened (calls b hb)) (p : Program s a α) :
    KeepsComplete hs opened (p.run (currently s) calls) := by
  induction p with
  | done x => exact fun r _ hcomplete => hcomplete
  | call b hb rest ih =>
    exact fun r hr hcomplete => ih _ _ (hcalls b hb r hr).closed (hkeeps b hb r hr hcomplete)
  | ask q rest ih => exact fun r hr hcomplete => ih _ r hr hcomplete

section Owners

variable {opened : List Owner} {o : Owner}
  {calls : (b : Call) → b ∈ s.callees (.owner o) → Infer b.Answer}

/-- The type of an owner holds some properties, and theirs are found from them. -/
def Holds (s : Setting) (r : Registry) (o : Owner) (names : List String) : Prop :=
  ∀ p ∈ names, ∃ g e, Entries.get? (o.type s) r = some g ∧ Entries.get? p g.members = some e ∧
    (o.home.isSome = true → (Owner.property o p).Led s r e.types)

theorem Holds.filled {names : List String} (h : Holds s r o names) (hr : r.Closed hs)
    (hr' : r'.Closed hs) (hfilled : r.Filled r') : Holds s r' o names := by
  intro p hp
  obtain ⟨g, e, hg, he, hled⟩ := h p hp
  obtain ⟨g', hg', -, hmembers⟩ := hfilled _ g hg
  refine ⟨g', e, hg', hmembers p e he, fun hhome => (hled hhome).filled hr hr' hfilled ?_⟩
  exact (hr.members _ g hg p e he).types

variable (hcalls : ∀ b hb, Repeats hs (fun V => b.Known V) (calls b hb))
  (hkeeps : ∀ b hb, KeepsComplete hs (o :: opened) (calls b hb))
  (hled : ∀ p (hp : .owner (.property o p) ∈ s.callees (.owner o)) (r : Registry), r.Closed hs →
    Complete s (o :: opened) r → o.home.isSome = true →
      (Owner.property o p).Led s (calls (.owner (.property o p)) hp r).2
        (Element.types (calls (.owner (.property o p)) hp r).1))
include hcalls hkeeps hled

/-- One more property that an owner's type does not have yet. -/
theorem complete_addMember (p : PropertyName s o) {r : Registry} (hr : r.Closed hs)
    (hcomplete : Complete s (o :: opened) r) {g : GeneratedType}
    (hg : Entries.get? (o.type s) r = some g) (hnew : Entries.get? p.1 g.members = none) :
    let e : Element := (calls (.owner (.property o p.1)) p.2 r).1
    let r' := (calls (.owner (.property o p.1)) p.2 r).2.addMember (o.type s) p.1 e
    r'.Closed hs ∧ Complete s (o :: opened) r' ∧ r.Filled r' ∧ Holds s r' o [p.1] ∧
      Entries.get? (o.type s) r'
        = some { g with members := Entries.upsert p.1 (fun _ => e) g.members } := by
  intro e r'
  have hcall := hcalls _ p.2 r hr
  have hget : Entries.get? (o.type s) (calls _ p.2 r).2 = some g :=
    (hcall.included _ (Entries.contains_iff.2 ⟨g, hg⟩)).trans hg
  have hget' : Entries.get? (o.type s) r'
      = some { g with members := Entries.upsert p.1 (fun _ => e) g.members } := by
    rw [Registry.get?_addMember, if_pos rfl, hget]
    rfl
  have hclosed : r'.Closed hs := hcall.closed.addMember hcall.known
  have hfilled : Registry.Filled (calls _ p.2 r).2 r' := by
    refine Registry.filled_addMember e fun g' hg' => ?_
    cases hget.symm.trans hg'
    exact hnew
  refine ⟨hclosed, ?_, hcall.included.filled.trans hfilled, ?_, hget'⟩
  · refine (hkeeps _ p.2 r hr hcomplete).filled hcall.closed hclosed hfilled ?_
    intro o' _ _ hopened hmem
    exact ⟨hopened, Registry.contains_addMember ▸ hmem⟩
  · have hself := Entries.get?_upsert_self p.1 (fun _ => e) g.members
    refine List.forall_mem_singleton.2 ⟨_, e, hget', hself, fun hhome => ?_⟩
    exact (hled p.1 p.2 r hr hcomplete hhome).filled hcall.closed hclosed hfilled hcall.known.types

/-- The members that are added to a type are found on it, and its other members are kept. -/
theorem complete_addMembers (properties : List (PropertyName s o))
    (hnodup : (properties.map Subtype.val).Nodup) {r : Registry} (hr : r.Closed hs)
    (hcomplete : Complete s (o :: opened) r) {g : GeneratedType}
    (hg : Entries.get? (o.type s) r = some g)
    (hnew : ∀ p ∈ properties, Entries.get? p.1 g.members = none) :
    (addMembers calls properties r).2.Closed hs ∧
      Complete s (o :: opened) (addMembers calls properties r).2 ∧
      r.Filled (addMembers calls properties r).2 ∧
      Holds s (addMembers calls properties r).2 o (properties.map Subtype.val) := by
  induction properties generalizing r g with
  | nil => exact ⟨hr, hcomplete, (Registry.Included.refl r).filled, fun p hp => nomatch hp⟩
  | cons p properties ih =>
    rw [List.map_cons, List.nodup_cons] at hnodup
    obtain ⟨hp, hnew⟩ := List.forall_mem_cons.1 hnew
    obtain ⟨hclosed, hcomplete, hfilled, hmember, hg⟩ :=
      complete_addMember hcalls hkeeps hled p hr hcomplete hg hp
    obtain ⟨hclosed', hcomplete', hrest, hholds⟩ := ih hnodup.2 hclosed hcomplete hg fun q hq =>
      have hne : q.1 ≠ p.1 := fun heq => hnodup.1 (heq ▸ List.mem_map_of_mem hq)
      (Entries.get?_upsert_of_ne _ _ hne).trans (hnew q hq)
    refine ⟨hclosed', hcomplete', hfilled.trans hrest, ?_⟩
    exact List.forall_mem_cons.2 ⟨hmember.filled hclosed hclosed' hrest p.1 (by simp), hholds⟩

omit hcalls hkeeps hled in
/-- What is missing at an owner's types and held by its own type, is found from its own type if this
has the others as parents. -/
theorem led_of_holds {names : List String} {e : Element} {g : GeneratedType}
    (hholds : Holds s r o names) (hhome : o.home.isSome = true)
    (hg : Entries.get? (o.type s) r = some g) (hparents : e.types ≠ [] → g.parents = e.types)
    (hshown : ∀ p ∈ (o.collection s).properties, p.1 ∉ names → p.2.hasProperties = false ∧
      ∃ t ∈ e.types, r.lookup s.index t p.1 ≠ []) :
    o.Led s r [o.type s] := by
  refine Owner.led_of_properties fun p hp hget path hpath => ?_
  by_cases hmem : p.1 ∈ names
  · obtain ⟨g, e, hg, he, hled⟩ := hholds p.1 hmem
    cases path with
    | nil =>
      refine .last (List.mem_singleton_self _) ?_
      rw [Registry.lookup_of_member hg he]
      exact List.cons_ne_nil e []
    | cons q path =>
      refine .step (List.mem_singleton_self _) hg he (hled hhome (q :: path) ?_)
      rwa [Owner.collection, hget]
  · obtain ⟨hleaf, t, ht, hfound⟩ := hshown p hp hmem
    refine Collection.leads_of_lookup hleaf hpath (List.mem_singleton_self _) ?_
    refine Registry.lookup_ne_nil_of_parent ?_ hfound
    rwa [Registry.parents_of_get?_eq_some hg, hparents (List.ne_nil_of_mem ht)]

omit hcalls hkeeps hled in
/-- A new type is that of its owner, which is now open, and of no other owner of a symbol. -/
theorem Complete.register (hscript : s.Scripted) (hexact : s.module.Exact) (ho : o ∈ s.owners)
    (hbehind : o.origin s ≠ .literal 0) (hcomplete : Complete s opened r) (hr : r.Closed hs)
    {parents : List TypeName} (hparents : (r.vocabulary hs).KnowsAll parents) :
    Complete s (o :: opened) (r.register (o.type s) parents) := by
  refine hcomplete.filled hr (hr.register ho hparents)
    ((Registry.Included.refl r).register parents).filled fun o' ho' hhome hopened hmem => ?_
  rw [List.mem_cons, not_or] at hopened
  refine ⟨hopened.2, (Registry.contains_register.1 hmem).resolve_right fun htype => ?_⟩
  obtain ⟨key, hkey⟩ := Option.isSome_iff_exists.1 hhome
  exact hopened.1 (hscript.eq_of_type_eq hexact hs ho' hkey ho hbehind htype)

omit hcalls hkeeps hled in
/-- An owner is closed once all its properties are found from its type. -/
theorem Complete.close (h : Complete s (o :: opened) r)
    (hled : o.home.isSome = true → o.Led s r [o.type s]) : Complete s opened r := by
  intro o' ho' hhome hopened hmem
  by_cases hsame : o' = o
  · subst hsame
    exact hled hhome
  · exact h o' ho' hhome (by simp [hsame, hopened]) hmem

/-- The type of an owner is complete once it is generated. -/
theorem complete_generate (hscript : s.Scripted) (hexact : s.module.Exact) (ho : o ∈ s.owners)
    (hbehind : o.origin s ≠ .literal 0) (hopened : o.home.isSome = true → o ∉ opened)
    {e : Element} {properties : List (PropertyName s o)}
    (hnodup : (properties.map Subtype.val).Nodup) {r : Registry} (hr : r.Closed hs)
    (hcomplete : Complete s opened r) (he : (r.vocabulary hs).KnowsElement e)
    (hshown : ∀ p ∈ (o.collection s).properties, p.1 ∉ properties.map Subtype.val →
      p.2.hasProperties = false ∧ ∃ t ∈ e.types, r.lookup s.index t p.1 ≠ []) :
    Complete s opened (generate calls e properties r).2 ∧
      (o.home.isSome = true →
        o.Led s (generate calls e properties r).2 (generate calls e properties r).1.types) := by
  by_cases hne : properties = []
  · subst hne
    refine ⟨hcomplete, fun _ => Owner.led_of_properties fun p hp _ path hpath => ?_⟩
    obtain ⟨hleaf, t, ht, hfound⟩ := hshown p hp List.not_mem_nil
    exact Collection.leads_of_lookup hleaf hpath ht hfound
  by_cases hmem : Entries.contains (o.type s) r = true
  · have heq : generate calls e properties r = ({ e with types := [o.type s] }, r) :=
      generate_of_contains hne hmem
    rw [heq]
    exact ⟨hcomplete, fun hhome => hcomplete o ho hhome (hopened hhome) hmem⟩
  have hnew := Bool.eq_false_iff.2 hmem
  let r₀ : Registry := r.register (o.type s) (parentsFor e)
  have heq : generate calls e properties r
      = ({ e with types := [o.type s] }, (addMembers calls properties r₀).2) :=
    generate_of_not_contains hne hnew
  have hg₀ : Entries.get? (o.type s) r₀ = some ⟨o.type s, parentsFor e, []⟩ := by
    rw [Registry.get?_register, Entries.contains_eq_false_iff.1 hnew, if_pos rfl]
    rfl
  have hparents := knowsAll_parentsFor he
  obtain ⟨hclosed, hcomplete', hfilled, hholds⟩ :=
    complete_addMembers hcalls hkeeps hled properties hnodup (hr.register ho hparents)
      (hcomplete.register hscript hexact ho hbehind hr hparents) hg₀ fun p hp => rfl
  have hled (hhome : o.home.isSome = true) :
      o.Led s (addMembers calls properties r₀).2 [o.type s] := by
    obtain ⟨g, hg, hparents, -⟩ := hfilled _ _ hg₀
    refine led_of_holds hholds hhome hg (e := e) (fun hne => ?_) fun p hp hmissing => ?_
    · rw [hparents, parentsFor, if_neg (by simpa using hne)]
    · -- the types that showed the property still do
      obtain ⟨hleaf, t, ht, hfound⟩ := hshown p hp hmissing
      have hgrown := ((Registry.Included.refl r).register (parentsFor e)).filled.trans hfilled
      exact ⟨hleaf, t, ht, hr.lookup_ne_nil_of_filled hclosed hgrown (he.types t ht) hfound⟩
  rw [heq]
  exact ⟨hcomplete'.close hled, hled⟩

theorem complete_ownerElement (hscript : s.Scripted) (hexact : s.module.Exact) (ho : o ∈ s.owners)
    (hbehind : o.origin s ≠ .literal 0) (hopened : o.home.isSome = true → o ∉ opened)
    (hkeeps' : ∀ b hb, KeepsComplete hs opened (calls b hb)) {r : Registry} (hr : r.Closed hs)
    (hcomplete : Complete s opened r) :
    Complete s opened (ownerElement (currently s) calls r).2 ∧
      (o.home.isSome = true → o.Led s (ownerElement (currently s) calls r).2
        (ownerElement (currently s) calls r).1.types) := by
  have helement := repeatable_run hcalls hr (speaks_element Registry.covers_vocabulary (o := o))
  have hcomplete₁ := keepsComplete_run hcalls hkeeps' (element s o) r hr hcomplete
  let e : Element := ((element s o).run (currently s) calls r).1
  let r₁ : Registry := ((element s o).run (currently s) calls r).2
  obtain ⟨names, hrun, hnames⟩ := run_missing calls e.types r₁
  have heq : ownerElement (currently s) calls r = generate calls e names r₁ := by
    show generate calls e ((missing s o e.types).run (currently s) calls r₁).1
      ((missing s o e.types).run (currently s) calls r₁).2 = _
    rw [hrun]
  rw [heq]
  refine complete_generate hcalls hkeeps hled hscript hexact ho hbehind hopened ?_
    helement.closed hcomplete₁ helement.known fun p hp hmissing => ?_
  · rw [hnames]
    exact (List.filter_sublist.map _).nodup (hscript.nodup_properties (s.mem_owners.1 ho).1)
  · rw [hnames] at hmissing
    have hnot : isMissing s r₁ e.types p = false := by
      rw [Bool.eq_false_iff]
      exact fun hp' => hmissing (List.mem_map_of_mem (List.mem_filter.2 ⟨hp, hp'⟩))
    rw [isMissing, Bool.or_eq_false_iff, Bool.not_eq_false'] at hnot
    obtain ⟨t, ht, hfound⟩ := List.any_eq_true.1 hnot.2
    exact ⟨hnot.1, t, ht, by simpa using hfound⟩

end Owners

/-- The properties of the owner that is called are found from the types of its element. -/
def AnswerLed (s : Setting) (r : Registry) : (a : Call) → a.Answer → Prop
  | .node _ _, _ => True
  | .owner o, e => o.home.isSome = true → o.Led s r (Element.types e)

variable (hs) in
/-- Inference keeps registries complete, and what it says about an owner of a symbol leads to all
its properties, unless the symbol is being inferred. -/
theorem complete_answer (hscript : s.Scripted) (hexact : s.module.Exact) (entered : List Symbol)
    (a : Call) (hmodule : s.InModule a) (hbehind : s.Behind a) {opened : List Owner}
    (henclosed : Enclosed entered opened a) {r : Registry} (hr : r.Closed hs)
    (hcomplete : Complete s opened r) :
    Complete s opened (answer s entered a r).2 ∧
      (enter entered a ≠ none →
        AnswerLed s (answer s entered a r).2 a (answer s entered a r).1) := by
  induction entered, a using answer.induct s generalizing opened r with
  | case1 entered a hnone =>
    rw [answer_of_enter_eq_none hnone]
    exact ⟨hcomplete, fun hsome => absurd hnone hsome⟩
  | case2 entered a entered' hsome ih =>
    have hcalls (b : Call) (hb : b ∈ s.callees a) :
        Repeats hs (fun V => b.Known V) (answer s entered' b) :=
      repeats_answer hs entered' b (s.inModule_of_mem_callees hmodule hb)
    have hkeeps {opened : List Owner}
        (henclosed : ∀ b ∈ s.callees a, Enclosed entered' opened b) (b : Call)
        (hb : b ∈ s.callees a) : KeepsComplete hs opened (answer s entered' b) :=
      fun r hr hcomplete => (ih b hb (s.inModule_of_mem_callees hmodule hb)
        (hscript.behind_of_mem_callees hexact hmodule hbehind hb) (henclosed b hb) hr hcomplete).1
    have hnested := hkeeps fun b hb => henclosed.nested hsome hb
    rw [answer_of_enter_eq_some hsome]
    cases a with
    | node scope n =>
      have hend := keepsComplete_run hcalls hnested (nodeTypes s scope n) r hr hcomplete
      exact ⟨hend, fun _ => trivial⟩
    | owner o =>
      by_cases hproperties : o.hasProperties s = true
      · have hopening := hkeeps fun b hb => henclosed.opening hsome hb
        have hled (p : String) (hp : .owner (.property o p) ∈ s.callees (.owner o)) (r : Registry)
            (hr : r.Closed hs) (hcomplete : Complete s (o :: opened) r) :=
          (ih (.owner (.property o p)) hp (s.inModule_of_mem_callees hmodule hp) hbehind
            (henclosed.opening hsome hp) hr hcomplete).2 (Option.some_ne_none entered')
        have howner := s.mem_owners.2 ⟨hmodule, hproperties⟩
        obtain ⟨hend, hled⟩ := complete_ownerElement hcalls hopening hled hscript hexact howner
          hbehind (henclosed.not_mem hsome) hnested hr hcomplete
        exact ⟨hend, fun _ => hled⟩
      · have hempty := Owner.properties_eq_nil hproperties
        have heq : answerCall s (currently s) (.owner o) (fun b _ => answer s entered' b)
            = (element s o).run (currently s) fun b _ => answer s entered' b :=
          ownerElement_of_isEmpty hempty
        rw [heq]
        refine ⟨keepsComplete_run hcalls hnested (element s o) r hr hcomplete, fun _ _ => ?_⟩
        exact Owner.led_of_properties fun p hp => by simp [hempty] at hp

/-! ### Queries about symbols -/

theorem enclosed_symbol (key : Symbol) : Enclosed [] [] (.owner (.symbol key)) where
  around _ h := nomatch h
  homes _ h := nomatch h
  above _ h := nomatch h

/-- Queries about symbols, one for each scope and name. -/
def symbolQueries (symbols : List Symbol) : List Query :=
  symbols.map fun key => .symbol key.1 key.2

/-- The element of a symbol comes from the same call as its types. -/
theorem symbol?_snd (scope : ScopeId) (name : String) (r : Registry) :
    (symbol? s scope name r).2 = ((Query.symbol scope name).answer s r).2 := by
  rw [symbol?, Query.answer, Query.run, Query.subject, symbolSubject]
  cases s.symbolNamed? scope name <;> rfl

theorem symbol?_eq {scope : ScopeId} {name : String} {key : Symbol}
    (h : s.symbolNamed? scope name = some key) (r : Registry) :
    symbol? s scope name r = (some (answer s [] (.owner (.symbol key)) r).1,
      (answer s [] (.owner (.symbol key)) r).2) := by
  rw [symbol?, h]
  rfl

theorem after_symbolQueries_concat (history : List Symbol) (scope : ScopeId) (name : String) :
    after s (symbolQueries (history ++ [(scope, name)]))
      = (symbol? s scope name (after s (symbolQueries history))).2 := by
  rw [symbolQueries, List.map_append, List.map_singleton, after_concat, symbol?_snd, symbolQueries]

/-- Inference of a symbol keeps a registry complete, and leads to the symbol's properties. -/
theorem complete_symbol (hs : s.Apart) (hscript : s.Scripted) (hexact : s.module.Exact)
    {key : Symbol} (hkey : key ∈ s.symbols) {r : Registry} (hr : r.Closed hs)
    (hcomplete : Complete s [] r) :
    Complete s [] (answer s [] (.owner (.symbol key)) r).2 ∧
      (Owner.symbol key).Led s (answer s [] (.owner (.symbol key)) r).2
        (Element.types (answer s [] (.owner (.symbol key)) r).1) := by
  obtain ⟨hend, hled⟩ := complete_answer hs hscript hexact [] _ (s.inModule_symbol hkey)
    (fun heq => nomatch heq) (enclosed_symbol key) hr hcomplete
  exact ⟨hend, hled (by simp [enter]) rfl⟩

theorem complete_after (hs : s.Apart) (hscript : s.Scripted) (hexact : s.module.Exact)
    (history : List Symbol) :
    Complete s [] (after s (symbolQueries history)) := by
  induction history using List.reverseRecOn with
  | nil => exact fun o _ _ _ hmem => nomatch hmem
  | append_singleton history query ih =>
    obtain ⟨scope, name⟩ := query
    rw [after_symbolQueries_concat]
    cases h : s.symbolNamed? scope name with
    | none =>
      rw [symbol?, h]
      exact ih
    | some key =>
      rw [symbol?_eq h]
      exact (complete_symbol hs hscript hexact (s.mem_symbols_of_symbolNamed? h) (closed_after hs _)
        ih).1

/-- No assigned property is lost. After queries about symbols, a query about a symbol says what its
element is, and from the types of the element, the properties of every recorded path are found one
after the other in the registry that the query leaves. This holds for a script of less than 2 ^ 32
bytes whose file has no character of type names in its stem, if the names from outside do not
contain the beginning of generated names and no bracket or separator stands in the path to a
property, with properties of its own, of an object literal. -/
theorem assigned_properties_are_found {cs : List Char} {m : Module} (hm : Module.ofText cs = .ok m)
    (hsize : Text.byteSize cs < 2 ^ 32)
    (index : Index) (renames : TypeRenaming) (location : Path) (resolve : String → Option Path)
    {s : Setting} (hsetting : s = .ofModule m index renames location resolve)
    (hstem : ∀ c ∈ s.fileStem.toList, Setting.isInert c = true)
    (hforeign : ∀ t ∈ s.foreignNames, ¬ s.mark <:+: TypeName.compact t.toList)
    (hliterals : ∀ o ∈ s.owners, o.home = none →
      ∀ c ∈ (o.collection s).path.toList, TypeName.separates c = false)
    (history : List Symbol) {scope owner : ScopeId} {name : String} {c : Collection}
    (hsymbol : s.scopes.symbol? scope name = some (owner, c)) :
    ∃ e, symbol? s scope name (after s (symbolQueries history))
        = (some e, after s (symbolQueries (history ++ [(scope, name)]))) ∧
      ∀ path, (c.at? path).isSome = true →
        (after s (symbolQueries (history ++ [(scope, name)]))).follow s.index e.types path
          = true := by
  have hscript : s.Scripted :=
    hsetting ▸ Setting.scripted_ofModule hm index renames location resolve
  have hs := hscript.apart hstem hforeign hliterals
  have hkey : s.symbolNamed? scope name = some (owner, name) := by
    rw [Setting.symbolNamed?, hsymbol]
    rfl
  have hexact : s.module.Exact := hsetting ▸ Module.exact_of_ofText hm hsize
  obtain ⟨-, hled⟩ := complete_symbol hs hscript hexact (s.mem_symbols hsymbol) (closed_after hs _)
    (complete_after hs hscript hexact history)
  rw [after_symbolQueries_concat, symbol?_eq hkey]
  refine ⟨_, rfl, fun path hpath => (hled path ?_).follow (List.Subset.refl _)⟩
  rwa [Owner.collection_symbol hsymbol]

theorem symbol?_of_within {scope : ScopeId} {name : String} {key : Symbol}
    (hkey : s.symbolNamed? scope name = some key) (depth : Nat) {history : List Query}
    {x : Element × Registry} (h : (afterWithin s depth history).bind
      (within s depth [] (.owner (.symbol key))) = some x) :
    symbol? s scope name (after s history) = (some x.1, x.2) := by
  obtain ⟨r, hr, hx⟩ := Option.bind_eq_some_iff.1 h
  have hanswer : answer s [] (.owner (.symbol key)) r = x :=
    refines_within depth [] (.owner (.symbol key)) r x hx
  rw [symbol?_eq hkey, after_eq_of_afterWithin hr, hanswer]
  rfl

/-- The properties of `b`, which belongs to `a` as much as `a` belongs to it. -/
theorem assigned_properties_are_found_entwined : ∃ m : Module,
    Module.ofText
      "var a = \x7b\x7d; a.x = b; var b = \x7bk: \x7bl: 1\x7d\x7d; b.y = a; b.y.z = 1;".toList
      = .ok m ∧
    ∃ e, symbol? (.ofScript .empty m) 0 "b" (after (.ofScript .empty m) (symbolQueries [(0, "a")]))
        = (some e, after (.ofScript .empty m) (symbolQueries [(0, "a"), (0, "b")])) ∧
      (after (.ofScript .empty m) (symbolQueries [(0, "a"), (0, "b")])).follow .empty e.types
        ["y", "z"] = true := by
  obtain ⟨m, hm, hforeign, hliterals, hsymbol⟩ := Module.exists_ofText
    "var a = \x7b\x7d; a.x = b; var b = \x7bk: \x7bl: 1\x7d\x7d; b.y = a; b.y.z = 1;"
    (fun m => (∀ t ∈ (Setting.ofScript .empty m).foreignNames,
        ¬ (Setting.ofScript .empty m).mark <:+: TypeName.compact t.toList) ∧
      (Setting.ofScript .empty m).hasPlainLiterals = true ∧
      ((Setting.ofScript .empty m).scopes.symbol? 0 "b").any
        (fun x => (x.2.at? ["y", "z"]).isSome) = true) (by decide +kernel)
  obtain ⟨⟨owner, c⟩, hsymbol, hpath⟩ := Option.any_eq_true _ _ |>.1 hsymbol
  obtain ⟨e, helement, hfound⟩ := assigned_properties_are_found hm (by decide +kernel) .empty .empty
    "main.js" (fun _ => none) rfl (Setting.isInert_ofScript .empty m) hforeign
    (Setting.of_hasPlainLiterals hliterals) [(0, "a")] hsymbol
  exact ⟨m, hm, e, helement, hfound ["y", "z"] hpath⟩

/-- Arrays have a length. -/
def arrays : Index :=
  Index.empty.addMember { name := "length", owner := "Array", types := ["Number"] }

/-- A key that is written like an array gives a literal's property the name of the array type of
`s`. The length of `s` is not added to its own type, since arrays show it, and is lost when the
array type turns out to be generated. -/
theorem assigned_length_is_lost : ∃ m : Module,
    Module.ofText
      ("var l = m = \x7bx: \x7bp: \x7bq: 1\x7d\x7d, xA: s, \"x[]\": \x7br: \x7bt: 1\x7d\x7d\x7d; " ++
        "var s = [l.x]; s.length = 5; s.foo = 1;").toList = .ok m ∧
    (∀ c ∈ (Setting.ofScript arrays m).fileStem.toList, Setting.isInert c = true) ∧
    (∀ t ∈ (Setting.ofScript arrays m).foreignNames,
      ¬ (Setting.ofScript arrays m).mark <:+: TypeName.compact t.toList) ∧
    (∃ owner c, (Setting.ofScript arrays m).scopes.symbol? 0 "s" = some (owner, c) ∧
      (c.at? ["length"]).isSome = true) ∧
    ∃ e r, symbol? (.ofScript arrays m) 0 "s"
          (after (.ofScript arrays m) (symbolQueries [(0, "m")]))
        = (some e, r) ∧ r.follow arrays e.types ["length"] = false := by
  obtain ⟨m, hm, hforeign, hsymbol, hkey, hlost⟩ := Module.exists_ofText
    ("var l = m = \x7bx: \x7bp: \x7bq: 1\x7d\x7d, xA: s, \"x[]\": \x7br: \x7bt: 1\x7d\x7d\x7d; " ++
      "var s = [l.x]; s.length = 5; s.foo = 1;")
    (fun m => (∀ t ∈ (Setting.ofScript arrays m).foreignNames,
        ¬ (Setting.ofScript arrays m).mark <:+: TypeName.compact t.toList) ∧
      ((Setting.ofScript arrays m).scopes.symbol? 0 "s").any
        (fun x => (x.2.at? ["length"]).isSome) = true ∧
      (Setting.ofScript arrays m).symbolNamed? 0 "s" = some (0, "s") ∧
      ((afterWithin (.ofScript arrays m) 20 (symbolQueries [(0, "m")])).bind
        (within (.ofScript arrays m) 20 [] (.owner (.symbol (0, "s"))))).any
          (fun x => !x.2.follow arrays (Element.types x.1) ["length"]) = true) (by decide +kernel)
  obtain ⟨⟨owner, c⟩, hsymbol, hpath⟩ := Option.any_eq_true _ _ |>.1 hsymbol
  obtain ⟨⟨e, r⟩, hwithin, hlost⟩ := Option.any_eq_true _ _ |>.1 hlost
  refine ⟨m, hm, Setting.isInert_ofScript arrays m, hforeign, ⟨owner, c, hsymbol, hpath⟩, e, r, ?_⟩
  exact ⟨symbol?_of_within hkey 20 hwithin, by simpa using hlost⟩

end Inference

end ScriptTypes
