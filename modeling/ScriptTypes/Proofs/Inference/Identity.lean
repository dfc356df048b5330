import ScriptTypes.Proofs.Inference.Owners
import ScriptTypes.Proofs.Scope.Opened

/-!
# Whose type a name means

The offset in a generated name tells the scopes of a script from one another and from its object
literals, except for a literal with which the script begins: it starts where the program does. The
path tells the owners of one scope apart, since the keys of a symbol's properties have no dots.
-/

namespace ScriptTypes

open Script (IsName Module NodeId)
open ScriptTypes.TypeName (compact)

/-- Keys without dots are told apart by the dots between them. -/
theorem Text.dotted_inj {ks ls : List String} (hks : ∀ k ∈ ks, '.' ∉ k.toList)
    (hls : ∀ l ∈ ls, '.' ∉ l.toList) (h : dotted ks = dotted ls) : ks = ls := by
  have hfirst {k : String} (ks : List String) (hk : '.' ∉ k.toList) :
      (k.toList ++ dotted ks).takeWhile (· != '.') = k.toList := by
    have hne : ∀ c ∈ k.toList, (c != '.') = true := by
      intro c hc
      rw [bne_iff_ne]
      rintro rfl
      exact hk hc
    rw [List.takeWhile_append_of_pos hne]
    cases ks <;> simp [dotted]
  induction ks generalizing ls with
  | nil =>
    cases ls with
    | nil => rfl
    | cons l ls => cases h
  | cons k ks ih =>
    cases ls with
    | nil => cases h
    | cons l ls =>
      obtain ⟨hk, hks⟩ := List.forall_mem_cons.1 hks
      obtain ⟨hl, hls⟩ := List.forall_mem_cons.1 hls
      have hrest : k.toList ++ dotted ks = l.toList ++ dotted ls := (List.cons.inj h).2
      have hkey : k.toList = l.toList := by
        rw [← hfirst ks hk, hrest, hfirst ls hl]
      rw [hkey] at hrest
      rw [String.toList_inj.1 hkey, ih hks hls (List.append_cancel_left hrest)]

/-- A key that stands in a generated name as it is, and as a part of its own. -/
structure PlainKey (key : String) : Prop where
  ne_empty : key ≠ ""
  chars : ∀ c ∈ key.toList, TypeName.separates c = false ∧ Text.isBlank c = false ∧ c ≠ '.'
  last : ∀ c ∈ key.toList.getLast?, c ≠ '='

theorem PlainKey.not_mem {key : String} (h : PlainKey key) : '.' ∉ key.toList :=
  fun hdot => (h.chars '.' hdot).2.2 rfl

theorem Script.IsName.plainKey {name : String} (h : IsName name) : PlainKey name where
  ne_empty := h.ne_empty
  chars c hc := by
    have hinert := Setting.of_isInert (Setting.isInert_of_isNameChar (h.isNameChar c hc))
    refine ⟨hinert.1, hinert.2.2, ?_⟩
    rintro rfl
    exact absurd hinert.2.1 (by decide)
  last c hc := by
    rintro rfl
    exact absurd (h.isNameChar '=' (List.mem_of_mem_getLast? hc)) (by decide)

/-- The offset of an origin. -/
def Origin.offset : Origin → Nat
  | literal offset | scope offset => offset

namespace Owner

variable {s : Setting}

theorem origin_of_home {o : Owner} {key : Symbol} (h : o.home = some key) :
    o.origin s = .scope (s.scopes.get key.1).range.start := by
  induction o with
  | literal n => cases h
  | symbol k => cases h; rfl
  | property o name ih => exact ih h

/-- The literal or symbol that an owner belongs to. -/
def root : Owner → Owner
  | property o _ => o.root
  | o => o

theorem keys_ne_nil {o : Owner} {offset : Nat} (h : o.origin s = .scope offset) : o.keys ≠ [] := by
  cases o with
  | literal n => cases h
  | symbol key => exact List.cons_ne_nil _ _
  | property o name => exact List.append_ne_nil_of_right_ne_nil _ (List.cons_ne_nil _ _)

theorem root_of_mem_withProperties {root o : Owner} (h : o ∈ root.withProperties s) :
    o.root = root.root :=
  withProperties_induction (P := fun o => o.root = root.root) rfl (fun _ ho _ _ => ho) o h

theorem root_of_home {o : Owner} {key : Symbol} (h : o.home = some key) :
    o.root = .symbol key ∧ o.keys.head? = some key.2 := by
  induction o with
  | literal n => cases h
  | symbol k => cases h; exact ⟨rfl, rfl⟩
  | property o name ih =>
    obtain ⟨hroot, hhead⟩ := ih h
    exact ⟨hroot, by rw [keys, List.head?_append, hhead, Option.some_or]⟩

/-- An owner is known by its keys and the literal or symbol it belongs to. -/
theorem eq_of_root_eq {o o' : Owner} (hroot : o.root = o'.root) (hkeys : o.keys = o'.keys) :
    o = o' := by
  -- A property of a symbol's owner has one key more than the symbol.
  have hsymbol {o : Owner} {key : Symbol} {name : String} (hroot : o.root = .symbol key)
      (hkeys : (Owner.property o name).keys = [key.2]) : False := by
    have hlength := congrArg List.length hkeys
    cases o with
    | literal n => cases hroot
    | symbol k => simp [keys] at hlength
    | property o name => simp [keys] at hlength
  induction o generalizing o' with
  | literal n =>
    cases o' with
    | literal n' => exact hroot
    | symbol key => cases hroot
    | property o' name => simp [keys] at hkeys
  | symbol key =>
    cases o' with
    | literal n => cases hroot
    | symbol key' => exact hroot
    | property o' name => exact (hsymbol (o := o') hroot.symm hkeys.symm).elim
  | property o name ih =>
    cases o' with
    | literal n => simp [keys] at hkeys
    | symbol key => exact (hsymbol (o := o) hroot hkeys).elim
    | property o' name' =>
      obtain ⟨hkeys, hname⟩ := List.append_inj' hkeys rfl
      exact congrArg₂ property (ih hroot hkeys) (List.singleton_inj.1 hname)

end Owner

namespace Setting

variable {s : Setting}

theorem takeWhile_toString_append (n : Nat) {rest : List Char}
    (h : ∀ c ∈ rest.head?, c.isDigit = false) :
    ((toString n).toList ++ rest).takeWhile Char.isDigit = (toString n).toList := by
  rw [List.takeWhile_append_of_pos fun c hc => isDigit_of_mem_toString hc]
  cases rest with
  | nil => simp
  | cons c rest => simp [h c rfl]

theorem eq_of_toString_append_eq {n n' : Nat} {rest rest' : List Char}
    (h : ∀ c ∈ rest.head?, c.isDigit = false) (h' : ∀ c ∈ rest'.head?, c.isDigit = false)
    (heq : (toString n).toList ++ rest = (toString n').toList ++ rest') : n = n' := by
  have hdigits := congrArg (List.takeWhile Char.isDigit) heq
  rw [takeWhile_toString_append n h, takeWhile_toString_append n' h'] at hdigits
  exact Nat.repr_inj.1 (String.toList_inj.1 hdigits)

theorem compact_toString_append (n : Nat) (cs : List Char) :
    compact ((toString n).toList ++ cs) = (toString n).toList ++ compact cs := by
  rw [TypeName.compact_append, TypeName.compact_of_isBlank_eq_false fun c hc => ?_]
  have hname : Script.Lexeme.isNameChar c = true := by
    rw [Script.Lexeme.isNameChar, isDigit_of_mem_toString hc, Bool.or_true]
  exact (of_isInert (isInert_of_isNameChar hname)).2.2

theorem dropRightWhile_eq_self {p : Char → Bool} {cs : List Char}
    (h : ∀ c ∈ cs.getLast?, p c = false) : Text.dropRightWhile p cs = cs := by
  rw [Text.dropRightWhile, List.dropWhile_eq_self_iff.2 ?_, List.reverse_reverse]
  intro hne
  refine Bool.eq_false_iff.1 (h _ ?_)
  rw [← List.head?_reverse, List.head?_eq_getElem?, List.getElem?_eq_getElem hne]
  rfl

theorem dropRightWhile_toString (n : Nat) :
    Text.dropRightWhile (· == '=') (toString n).toList = (toString n).toList := by
  refine dropRightWhile_eq_self fun c hc => ?_
  have hdigit := isDigit_of_mem_toString (List.mem_of_mem_getLast? hc)
  rw [beq_eq_false_iff_ne]
  rintro rfl
  exact absurd hdigit (by decide)

/-- A name goes on after its offset with a dot or ends. -/
theorem exists_rest_label (origin : Origin) (path : String) :
    ∃ rest : List Char, (∀ c ∈ rest.head?, c.isDigit = false) ∧
      Text.dropRightWhile (· == '=') (compact (label origin path))
        = (toString origin.offset).toList ++ rest := by
  have hdot (n : Nat) : Text.dropRightWhile (· == '=')
      (compact ((toString n).toList ++ '.' :: path.toList))
        = (toString n).toList ++ '.' :: Text.dropRightWhile (· == '=') (compact path.toList) := by
    rw [compact_toString_append, compact, List.filter_cons_of_pos (by decide),
      Text.dropRightWhile_append_cons (by decide), ← compact]
  cases origin with
  | scope offset => exact ⟨_, by simp, hdot offset⟩
  | literal offset =>
    rw [label]
    split
    · refine ⟨[], by simp, ?_⟩
      rw [compact_toString_append, compact, List.filter_nil, List.append_nil,
        dropRightWhile_toString, List.append_nil]
      rfl
    · exact ⟨_, by simp, hdot offset⟩

/-- Types of the same name start at the same offset. -/
theorem offset_eq_of_type_eq (hstem : ∀ c ∈ s.fileStem.toList, TypeName.separates c = false)
    {o o' : Owner} (hpath : ∀ c ∈ (o.collection s).path.toList, TypeName.separates c = false)
    (hpath' : ∀ c ∈ (o'.collection s).path.toList, TypeName.separates c = false)
    (h : o.type s = o'.type s) : (o.origin s).offset = (o'.origin s).offset := by
  have htype := congrArg String.toList h
  obtain ⟨rest, hrest, hlabel⟩ := exists_rest_label (o.origin s) (o.collection s).path
  obtain ⟨rest', hrest', hlabel'⟩ := exists_rest_label (o'.origin s) (o'.collection s).path
  rw [Owner.type, Owner.type, toList_generatedName hstem _ hpath,
    toList_generatedName hstem _ hpath', hlabel, hlabel'] at htype
  exact eq_of_toString_append_eq hrest hrest' (List.append_cancel_left htype)

theorem Apart.offset_eq (hs : s.Apart) {o o' : Owner} (ho : o ∈ s.owners) (ho' : o' ∈ s.owners)
    (h : o.type s = o'.type s) : (o.origin s).offset = (o'.origin s).offset :=
  offset_eq_of_type_eq hs.separates_stem (hs.paths o ho) (hs.paths o' ho') h

/-- Plain keys follow the offset as they are. -/
theorem dropRightWhile_label {o : Owner} (hkeys : ∀ k ∈ o.keys, PlainKey k) :
    Text.dropRightWhile (· == '=') (compact (label (o.origin s) o.path))
      = (toString (o.origin s).offset).toList ++ Text.dotted o.keys := by
  have hdotted := Owner.dotted_keys fun k hk => (hkeys k hk).ne_empty
  have hlabel : label (o.origin s) o.path
      = (toString (o.origin s).offset).toList ++ Text.dotted o.keys := by
    cases horigin : o.origin s with
    | literal offset =>
      rw [hdotted]
      rfl
    | scope offset =>
      obtain ⟨k, keys, hcons⟩ := List.exists_cons_of_ne_nil (Owner.keys_ne_nil horigin)
      split at hdotted
      · simp [hcons, Text.dotted] at hdotted
      · rw [hdotted]
        rfl
  have hcompact : compact (Text.dotted o.keys) = Text.dotted o.keys := by
    refine TypeName.compact_of_isBlank_eq_false fun c hc => ?_
    obtain ⟨k, hk, rfl | hc⟩ := Text.mem_dotted.1 hc
    · decide
    · exact ((hkeys k hk).chars c hc).2.1
  rw [hlabel, compact_toString_append, hcompact]
  rcases List.eq_nil_or_concat o.keys with hnil | ⟨keys, k, hconcat⟩
  · rw [hnil, Text.dotted, List.flatMap_nil, List.append_nil, dropRightWhile_toString]
  · have happend : Text.dotted o.keys = Text.dotted keys ++ '.' :: k.toList := by
      simp [hconcat, Text.dotted]
    have hk : PlainKey k := hkeys k (by simp [hconcat])
    rw [happend, ← List.append_assoc, Text.dropRightWhile_append_cons (by decide),
      dropRightWhile_eq_self fun c hc => beq_eq_false_iff_ne.2 (hk.last c hc)]

section Plain

variable (hstem : ∀ c ∈ s.fileStem.toList, TypeName.separates c = false) {o o' : Owner}
include hstem

/-- The type of an owner is named by the offset of its origin and its keys. -/
theorem toList_type (hpath : (o.collection s).path = o.path) (hkeys : ∀ k ∈ o.keys, PlainKey k) :
    (o.type s).toList
      = s.canonicalMark ++ ((toString (o.origin s).offset).toList ++ Text.dotted o.keys) := by
  have hplain : ∀ c ∈ (o.collection s).path.toList, TypeName.separates c = false := by
    intro c hc
    rw [hpath] at hc
    rcases Owner.of_mem_path (fun k hk => (hkeys k hk).ne_empty) hc with rfl | ⟨k, hk, hc⟩
    · decide
    · exact ((hkeys k hk).chars c hc).1
  rw [Owner.type, toList_generatedName hstem _ hplain, hpath, dropRightWhile_label hkeys]

/-- Types have the same name exactly if offset and keys are the same. -/
theorem type_eq_iff (hpath : (o.collection s).path = o.path)
    (hpath' : (o'.collection s).path = o'.path) (hkeys : ∀ k ∈ o.keys, PlainKey k)
    (hkeys' : ∀ k ∈ o'.keys, PlainKey k) :
    o.type s = o'.type s ↔ (o.origin s).offset = (o'.origin s).offset ∧ o.keys = o'.keys := by
  have hdigit (keys : List String) : ∀ c ∈ (Text.dotted keys).head?, c.isDigit = false := by
    cases keys <;> simp [Text.dotted]
  rw [← String.toList_inj, toList_type hstem hpath hkeys, toList_type hstem hpath' hkeys',
    List.append_cancel_left_eq]
  constructor
  · intro h
    have hoffset := eq_of_toString_append_eq (hdigit _) (hdigit _) h
    rw [hoffset, List.append_cancel_left_eq] at h
    exact ⟨hoffset, Text.dotted_inj (fun k hk => (hkeys k hk).not_mem)
      (fun k hk => (hkeys' k hk).not_mem) h⟩
  · rintro ⟨hoffset, hkeys⟩
    rw [hoffset, hkeys]

end Plain

namespace Scripted

variable (hs : s.Scripted)
include hs

/-- A scope does not start with an object literal, except for one at the beginning. -/
theorem start_ne_literal (hexact : s.module.Exact) (id : ScopeId) {n : Nat}
    (hn : n < s.module.size) {items : List NodeId} (hform : s.module.form n = .object items)
    (hpos : (s.module.range n).start ≠ 0) :
    (s.scopes.get id).range.start ≠ (s.module.range n).start := by
  intro hstart
  rw [hexact] at hpos hstart
  rw [hs.scopes] at hstart
  rcases Scopes.start_get hs.module hexact id with hzero | ⟨body, items', hbody, hblock, heq⟩
  · exact hpos (hstart.symm.trans hzero)
  · obtain rfl : body = n := hs.module.eq_of_start_eq hbody hn (by rw [hblock]; rfl)
      (by rw [hform]; rfl) (heq.symm.trans hstart)
    cases hblock.symm.trans hform

theorem scope_lt_size {o : Owner} (ho : o ∈ s.allOwners) {key : Symbol}
    (hhome : o.home = some key) : key.1 < (Scopes.ofModule s.module).table.size := by
  obtain ⟨id, hid, hkey⟩ := List.mem_flatMap.1 (mem_symbols_of_home ho hhome)
  obtain ⟨e, -, rfl⟩ := List.mem_map.1 hkey
  exact hs.scopes ▸ List.mem_range.1 hid

/-- Symbols' owners with the same keys belong to one symbol, if their scopes start together. -/
theorem eq_of_offset_eq (hexact : s.module.Exact) {o o' : Owner} (ho : o ∈ s.allOwners)
    (ho' : o' ∈ s.allOwners) {key key' : Symbol} (hhome : o.home = some key)
    (hhome' : o'.home = some key') (hoffset : (o.origin s).offset = (o'.origin s).offset)
    (hkeys : o.keys = o'.keys) : o = o' := by
  rw [Owner.origin_of_home hhome, Owner.origin_of_home hhome', hs.scopes] at hoffset
  have hscope : key.1 = key'.1 :=
    Scopes.eq_of_start_eq hs.module hexact (hs.scope_lt_size ho hhome)
      (hs.scope_lt_size ho' hhome') hoffset
  obtain ⟨hroot, hhead⟩ := Owner.root_of_home hhome
  obtain ⟨hroot', hhead'⟩ := Owner.root_of_home hhome'
  have hname : key.2 = key'.2 := Option.some.inj (hhead.symm.trans (hkeys ▸ hhead'))
  refine Owner.eq_of_root_eq ?_ hkeys
  rw [hroot, hroot', Prod.ext hscope hname]

theorem plainKey_of_home {o : Owner} (ho : o ∈ s.allOwners) {key : Symbol}
    (hhome : o.home = some key) : ∀ k ∈ o.keys, PlainKey k :=
  fun k hk => ((hs.recorded_of_home ho hhome).2 k hk).plainKey

/-- The types of symbols' owners are different. -/
theorem eq_of_type_eq_of_home (hexact : s.module.Exact) (hapart : s.Apart) {o o' : Owner}
    (ho : o ∈ s.owners) (ho' : o' ∈ s.owners) {key key' : Symbol} (hhome : o.home = some key)
    (hhome' : o'.home = some key') (h : o.type s = o'.type s) : o = o' := by
  have hmem := (s.mem_owners.1 ho).1
  have hmem' := (s.mem_owners.1 ho').1
  obtain ⟨hoffset, hkeys⟩ := (type_eq_iff hapart.separates_stem
    (hs.path_eq_and_sorted hmem).1 (hs.path_eq_and_sorted hmem').1
    (hs.plainKey_of_home hmem hhome) (hs.plainKey_of_home hmem' hhome')).1 h
  exact hs.eq_of_offset_eq hexact hmem hmem' hhome hhome' hoffset hkeys

/-- The type of a symbol's owner is that of no other owner which starts behind the beginning of the
text. -/
theorem eq_of_type_eq (hexact : s.module.Exact) (hapart : s.Apart) {o o' : Owner}
    (ho : o ∈ s.owners) {key : Symbol} (hhome : o.home = some key) (ho' : o' ∈ s.owners)
    (hbehind : o'.origin s ≠ .literal 0) (h : o.type s = o'.type s) : o = o' := by
  rcases mem_allOwners_cases (s.mem_owners.1 ho').1 with
    ⟨n, hmem, hn, items, hform⟩ | ⟨key', -, hmem⟩
  · have hoffset := hapart.offset_eq ho ho' h
    rw [Owner.origin_of_mem_withProperties hmem] at hoffset hbehind
    rw [Owner.origin_of_home hhome] at hoffset
    refine absurd hoffset (hs.start_ne_literal hexact key.1 hn hform fun hzero => hbehind ?_)
    exact congrArg Origin.literal hzero
  · exact hs.eq_of_type_eq_of_home hexact hapart ho ho' hhome (Owner.home_of_mem_withProperties hmem) h

end Scripted

/-! ### Calls behind the beginning of the text -/

/-- Is a call of a value, or of an owner that is not of a literal with which the text begins? -/
def Behind (s : Setting) : Call → Prop
  | .node _ n => s.module.IsValue n
  | .owner o => o.origin s ≠ .literal 0

/-- The values of a literal's properties are below the literal. -/
theorem below_of_mem_values {n v : NodeId} {o : Owner} (ho : o ∈ (Owner.literal n).withProperties s)
    (hv : v ∈ o.values s) : s.module.Below v n := by
  have hall : ∀ o ∈ (Owner.literal n).withProperties s, (∀ v ∈ o.values s, s.module.Below v n) ∧
      ∀ p ∈ (o.collection s).properties, ∀ v ∈ p.2.all, s.module.Below v n := by
    refine Owner.withProperties_induction ⟨fun v hv => (nomatch hv), fun p hp v hv => ?_⟩ ?_
    · exact s.module.below_of_mem_literalCollection hp hv
    · intro o ho p hp
      have hproperty := ho.2 _ (Inference.mem_properties hp)
      refine ⟨fun v hv => hproperty v (Collection.mem_all.2 (.inl hv)), fun q hq v hv => ?_⟩
      exact hproperty v (Collection.mem_all.2 (.inr ⟨q, hq, hv⟩))
  exact (hall o ho).1 v hv

/-- Calls stay behind the beginning of the text. -/
theorem Scripted.behind_of_mem_callees (hs : s.Scripted) (hexact : s.module.Exact) {a b : Call}
    (hmodule : s.InModule a) (ha : s.Behind a) (hb : b ∈ s.callees a) : s.Behind b := by
  match a with
  | .node scope n =>
    rcases List.mem_append.1 hb with hb | hb
    · obtain ⟨p, hp, rfl⟩ := List.mem_map.1 hb
      exact .inl (hs.module.start_pos_of_below ha (s.below_of_mem_parts hp))
    · obtain ⟨o, ho, rfl⟩ := List.mem_map.1 hb
      rcases s.owner?_cases (Option.mem_toList.1 ho) with ⟨pair, pairs, hform, rfl⟩ | ⟨key, -, rfl⟩
      · rcases ha with hpos | ⟨name, docs, params, body, hfunction⟩
        · intro hzero
          refine Nat.ne_of_gt hpos ?_
          rw [← hexact]
          exact Origin.literal.inj hzero
        · cases hform.symm.trans hfunction
      · exact fun heq => nomatch heq
  | .owner o =>
    rcases List.mem_append.1 hb with hb | hb
    · obtain ⟨v, hv, rfl⟩ := List.mem_map.1 hb
      have hv := (List.mem_filter.1 hv).1
      cases hhome : o.home with
      | some key =>
        have hvalue : v ∈ (o.collection s).values := by
          cases o with
          | literal n => cases hhome
          | symbol key => exact hv
          | property o name => exact hv
        exact (hs.recorded_of_home hmodule hhome).1.value v hvalue
      | none =>
        rcases mem_allOwners_cases hmodule with ⟨n, ho, -⟩ | ⟨key, -, ho⟩
        · have hspan := hs.module.span_of_below (below_of_mem_values ho hv)
          have hstart : (s.module.span n).start ≠ 0 := by
            intro hzero
            rw [← hexact] at hzero
            refine ha ((Owner.origin_of_mem_withProperties ho).trans ?_)
            exact congrArg Origin.literal hzero
          exact .inl (by omega)
        · rw [Owner.home_of_mem_withProperties ho] at hhome
          cases hhome
    · obtain ⟨p, -, rfl⟩ := List.mem_map.1 hb
      exact ha

end Setting

end ScriptTypes
