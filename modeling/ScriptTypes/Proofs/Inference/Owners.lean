import ScriptTypes.Inference.Location
import ScriptTypes.Proofs.Inference.Apart
import ScriptTypes.Proofs.Scope.Events

/-!
# The names of owners

The collection of an owner has the path of the keys that lead to it. The keys of a symbol's
properties are names, so no bracket or separator stands in the path. The keys of an object literal
may be any text.
-/

namespace ScriptTypes

open Script (IsName Module NodeId)

/-- Keys as they stand in a name, each behind a dot. -/
def Text.dotted (keys : List String) : List Char := keys.flatMap fun k => '.' :: k.toList

theorem Text.mem_dotted {c : Char} {keys : List String} :
    c ∈ dotted keys ↔ ∃ k ∈ keys, c = '.' ∨ c ∈ k.toList := by
  simp [dotted]

/-- The code points of blanks. -/
def Text.blanks : List Nat :=
  List.range' 0x09 5 ++ [0x20, 0x85, 0xA0, 0x1680] ++ List.range' 0x2000 11
    ++ [0x2028, 0x2029, 0x202F, 0x205F, 0x3000]

theorem Text.mem_blanks {c : Char} (h : isBlank c = true) : c.toNat ∈ blanks := by
  simp only [isBlank, Bool.or_eq_true, Bool.and_eq_true, decide_eq_true_eq, beq_iff_eq] at h
  simp only [blanks, List.mem_append, List.mem_range'_1, List.mem_cons, List.not_mem_nil, or_false]
  generalize c.toNat = n at h
  omega

theorem Script.Lexeme.isNameChar_of_mem_blanks :
    ∀ n ∈ Text.blanks, isNameChar (Char.ofNat n) = false := by
  decide +kernel

theorem Script.IsName.ne_empty {name : String} (h : IsName name) : name ≠ "" :=
  fun hempty => h.ne_nil (hempty ▸ rfl)

namespace Owner

variable {s : Setting}

/-- The keys that lead to an owner, the name of its symbol included. -/
def keys : Owner → List String
  | literal _ => []
  | symbol key => [key.2]
  | property o name => o.keys ++ [name]

/-- The path of an owner's collection. -/
def path : Owner → String
  | literal _ => ""
  | symbol key => key.2
  | property o name => Collection.propertyPath o.path name

/-- What is passed on to properties holds of an owner's properties and theirs. -/
theorem withProperties_induction {P : Owner → Prop} {root : Owner} (hroot : P root)
    (hstep : ∀ o, P o → ∀ p ∈ (o.collection s).properties, P (.property o p.1)) :
    ∀ o ∈ root.withProperties s, P o := by
  induction root using withProperties.induct s with
  | case1 root ih =>
    rw [withProperties]
    refine List.forall_mem_cons.2 ⟨hroot, fun o ho => ?_⟩
    obtain ⟨p, -, ho⟩ := List.mem_flatMap.1 ho
    exact ih p (hstep root hroot p.1 p.2) o ho

theorem home_of_mem_withProperties {root o : Owner} (h : o ∈ root.withProperties s) :
    o.home = root.home :=
  withProperties_induction (P := fun o => o.home = root.home) rfl (fun _ ho _ _ => ho) o h

theorem origin_of_mem_withProperties {root o : Owner} (h : o ∈ root.withProperties s) :
    o.origin s = root.origin s :=
  withProperties_induction (P := fun o => o.origin s = root.origin s) rfl (fun _ ho _ _ => ho) o h

section Recorded

variable {Name : String → Prop} {Value : NodeId → Prop} {root : Owner}

/-- The collections of properties are recorded like that of the owner they belong to. -/
theorem recorded_of_mem_withProperties (h : (root.collection s).Recorded Name Value root.path) :
    ∀ o ∈ root.withProperties s,
      (o.collection s).Recorded Name Value o.path ∧ ∀ k ∈ o.keys, k ∈ root.keys ∨ Name k := by
  refine withProperties_induction ⟨h, fun k hk => .inl hk⟩ fun o ho p hp => ?_
  obtain ⟨hrecorded, hkeys⟩ := ho
  have hget := NameMap.get?_of_mem hrecorded.sorted hp
  refine ⟨?_, List.forall_mem_append.2 ⟨hkeys, List.forall_mem_singleton.2 (.inr ?_)⟩⟩
  · rw [collection, hget]
    exact hrecorded.property p hp
  · exact hrecorded.name p hp

end Recorded

/-- The path is made of the keys with dots between them, if no key is empty. -/
theorem dotted_keys {o : Owner} (h : ∀ k ∈ o.keys, k ≠ "") :
    Text.dotted o.keys = if o.path.isEmpty then [] else '.' :: o.path.toList := by
  induction o with
  | literal n => rfl
  | symbol key =>
    have hne : key.2 ≠ "" := h key.2 (List.mem_singleton_self _)
    simp [keys, path, Text.dotted, hne]
  | property o name ih =>
    obtain ⟨hkeys, hname⟩ := List.forall_mem_append.1 h
    have hne : name ≠ "" := hname name (List.mem_singleton_self _)
    have happend : Text.dotted (o.keys ++ [name]) = Text.dotted o.keys ++ '.' :: name.toList := by
      simp [Text.dotted]
    rw [keys, happend, ih hkeys, path, Collection.propertyPath]
    by_cases hpath : o.path = ""
    · simp [hpath, hne]
    · simp [hpath]

theorem of_mem_path {o : Owner} (h : ∀ k ∈ o.keys, k ≠ "") {c : Char} (hc : c ∈ o.path.toList) :
    c = '.' ∨ ∃ k ∈ o.keys, c ∈ k.toList := by
  have hdotted := dotted_keys h
  rw [if_neg] at hdotted
  · have hmem : c ∈ Text.dotted o.keys := hdotted ▸ List.mem_cons_of_mem _ hc
    obtain ⟨k, hk, hc⟩ := Text.mem_dotted.1 hmem
    exact hc.imp_right fun hc => ⟨k, hk, hc⟩
  · intro hempty
    rw [String.isEmpty_iff.1 hempty] at hc
    cases hc

end Owner

namespace Setting

variable {s : Setting}

/-- Names have no brackets, separators, markers or blanks. -/
theorem isInert_of_isNameChar {c : Char} (h : Script.Lexeme.isNameChar c = true) :
    isInert c = true := by
  rw [isInert, Bool.not_eq_true', Bool.or_eq_false_iff, Bool.or_eq_false_iff]
  refine ⟨⟨?_, ?_⟩, ?_⟩
  · rw [Bool.eq_false_iff]
    intro hc
    simp only [TypeName.separates, List.contains_eq_mem, List.mem_cons, List.not_mem_nil, or_false,
      decide_eq_true_eq] at hc
    rcases hc with rfl | rfl | rfl | rfl | rfl | rfl | rfl | rfl | rfl <;>
      exact absurd h (by decide)
  · rw [Bool.eq_false_iff]
    intro hc
    simp only [TypeName.isMarker, Bool.or_eq_true, beq_iff_eq] at hc
    rcases hc with (rfl | rfl) | rfl <;> exact absurd h (by decide)
  · rw [Bool.eq_false_iff]
    intro hc
    rw [← Char.ofNat_toNat c, Script.Lexeme.isNameChar_of_mem_blanks _ (Text.mem_blanks hc)] at h
    cases h

theorem exists_of_mem_literals {o : Owner} (h : o ∈ s.literals) :
    ∃ n, o = .literal n ∧ n < s.module.size ∧ ∃ items, s.module.form n = .object items := by
  obtain ⟨n, hlt, hn⟩ := List.mem_filterMap.1 h
  split at hn
  · rename_i hform
    exact ⟨n, (Option.some.inj hn).symm, List.mem_range.1 hlt, _, hform⟩
  · cases hn

/-- An owner is a symbol or an object literal, or a property of one. -/
theorem mem_allOwners_cases {o : Owner} (h : o ∈ s.allOwners) :
    (∃ n, o ∈ (Owner.literal n).withProperties s ∧ n < s.module.size ∧
      ∃ items, s.module.form n = .object items) ∨
    ∃ key ∈ s.symbols, o ∈ (Owner.symbol key).withProperties s := by
  obtain ⟨root, hroot, ho⟩ := List.mem_flatMap.1 h
  rcases List.mem_append.1 hroot with hroot | hroot
  · obtain ⟨n, rfl, hform⟩ := exists_of_mem_literals hroot
    exact .inl ⟨n, ho, hform⟩
  · obtain ⟨key, hkey, rfl⟩ := List.mem_map.1 hroot
    exact .inr ⟨key, hkey, ho⟩

theorem mem_symbols_of_home {o : Owner} (ho : o ∈ s.allOwners) {key : Symbol}
    (hhome : o.home = some key) : key ∈ s.symbols := by
  rcases mem_allOwners_cases ho with ⟨n, ho, -⟩ | ⟨key', hkey', ho⟩
  · rw [Owner.home_of_mem_withProperties ho] at hhome
    cases hhome
  · rw [Owner.home_of_mem_withProperties ho] at hhome
    cases hhome
    exact hkey'

/-- The script is well-formed, and the scopes are its own. -/
structure Scripted (s : Setting) : Prop where
  module : s.module.WellFormed
  scopes : s.scopes = Scopes.ofModule s.module

theorem scripted_ofModule {cs : List Char} {m : Module} (h : Module.ofText cs = .ok m)
    (index : Index) (renames : TypeRenaming) (location : Path) (resolve : String → Option Path) :
    (ofModule m index renames location resolve).Scripted :=
  ⟨Module.wellFormed_of_ofText h, rfl⟩

namespace Scripted

variable (hs : s.Scripted)
include hs

theorem recorded_symbol (key : Symbol) :
    ((Owner.symbol key).collection s).Recorded IsName s.module.IsValue key.2 := by
  have hscope := (hs.scopes ▸ hs.module.recorded_scopes).get key.1
  rw [Owner.collection]
  cases hget : NameMap.get? key.2 (s.scopes.get key.1).symbols with
  | none => exact Collection.recorded_named key.2
  | some c => exact (hscope.symbols _ (NameMap.mem_of_get?_eq_some hget)).2

theorem isName_symbol {key : Symbol} (h : key ∈ s.symbols) : IsName key.2 := by
  obtain ⟨id, -, h⟩ := List.mem_flatMap.1 h
  obtain ⟨e, he, rfl⟩ := List.mem_map.1 h
  exact (((hs.scopes ▸ hs.module.recorded_scopes).get id).symbols e he).1

/-- A symbol's owners have names as keys. -/
theorem recorded_of_home {o : Owner} (ho : o ∈ s.allOwners) {key : Symbol}
    (hhome : o.home = some key) :
    (o.collection s).Recorded IsName s.module.IsValue o.path ∧ ∀ k ∈ o.keys, IsName k := by
  rcases mem_allOwners_cases ho with ⟨n, ho, -⟩ | ⟨key, hkey, ho⟩
  · rw [Owner.home_of_mem_withProperties ho] at hhome
    cases hhome
  · have hrecorded := Owner.recorded_of_mem_withProperties (hs.recorded_symbol key) o ho
    refine ⟨hrecorded.1, fun k hk => (hrecorded.2 k hk).elim (fun hk => ?_) id⟩
    rw [List.mem_singleton.1 hk]
    exact hs.isName_symbol hkey

/-- An owner's collection has the path to it, and the properties are sorted. -/
theorem path_eq_and_sorted {o : Owner} (ho : o ∈ s.allOwners) :
    (o.collection s).path = o.path ∧
      (o.collection s).properties.Pairwise fun a b => a.1 < b.1 := by
  rcases mem_allOwners_cases ho with ⟨n, ho, -⟩ | ⟨key, -, ho⟩
  · have hliteral :
        ((Owner.literal n).collection s).Recorded (fun _ => True) (fun _ => True) "" :=
      Collection.recorded_collect fun _ _ => ⟨fun _ _ => trivial, trivial⟩
    have hrecorded := (Owner.recorded_of_mem_withProperties hliteral o ho).1
    exact ⟨hrecorded.path_eq, hrecorded.sorted⟩
  · have hrecorded := (Owner.recorded_of_mem_withProperties (hs.recorded_symbol key) o ho).1
    exact ⟨hrecorded.path_eq, hrecorded.sorted⟩

/-- The properties of an owner have different names. -/
theorem nodup_properties {o : Owner} (ho : o ∈ s.allOwners) :
    ((o.collection s).properties.map Prod.fst).Nodup := by
  have hsorted := (hs.path_eq_and_sorted ho).2
  refine List.pairwise_map.2 (hsorted.imp fun hlt heq => ?_)
  rw [heq] at hlt
  exact String.lt_irrefl _ hlt

/-- The path of a symbol's owner has dots and characters of names. -/
theorem of_mem_path {o : Owner} (ho : o ∈ s.allOwners) {key : Symbol} (hhome : o.home = some key)
    {c : Char} (hc : c ∈ (o.collection s).path.toList) :
    c = '.' ∨ Script.Lexeme.isNameChar c = true := by
  obtain ⟨hrecorded, hkeys⟩ := hs.recorded_of_home ho hhome
  rw [hrecorded.path_eq] at hc
  refine (Owner.of_mem_path (fun k hk => (hkeys k hk).ne_empty) hc).imp_right ?_
  rintro ⟨k, hk, hc⟩
  exact (hkeys k hk).isNameChar c hc

/-- Generated names stand apart if the stem of the file, the names from outside and the keys of
object literals let them. -/
theorem apart (hstem : ∀ c ∈ s.fileStem.toList, isInert c = true)
    (hforeign : ∀ t ∈ s.foreignNames, ¬ s.mark <:+: TypeName.compact t.toList)
    (hliterals : ∀ o ∈ s.owners, o.home = none →
      ∀ c ∈ (o.collection s).path.toList, TypeName.separates c = false) : s.Apart := by
  refine ⟨hstem, hforeign, fun o ho => ?_⟩
  cases hhome : o.home with
  | none => exact hliterals o ho hhome
  | some key =>
    intro c hc
    rcases hs.of_mem_path (s.mem_owners.1 ho).1 hhome hc with rfl | hname
    · decide
    · exact (of_isInert (isInert_of_isNameChar hname)).1

end Scripted

/-- The setting of a script in the file `main.js` that requires no other modules. -/
def ofScript (index : Index) (m : Module) : Setting :=
  .ofModule m index .empty "main.js" fun _ => none

theorem isInert_ofScript (index : Index) (m : Module) :
    ∀ c ∈ (ofScript index m).fileStem.toList, isInert c = true := by
  have hname : "main".toList.all Script.Lexeme.isNameChar = true := by decide
  exact fun c hc => isInert_of_isNameChar (List.all_eq_true.1 hname c hc)

/-- Is there no bracket or separator in the path to a property, with properties of its own, of an
object literal? -/
def hasPlainLiterals (s : Setting) : Bool :=
  s.owners.all fun o => o.home.isSome || (o.collection s).path.toList.all (!TypeName.separates ·)

theorem of_hasPlainLiterals (h : s.hasPlainLiterals = true) :
    ∀ o ∈ s.owners, o.home = none →
      ∀ c ∈ (o.collection s).path.toList, TypeName.separates c = false := by
  intro o ho hhome c hc
  have hpath := List.all_eq_true.1 h o ho
  rw [hhome] at hpath
  simpa using List.all_eq_true.1 hpath c hc

end Setting

end ScriptTypes
