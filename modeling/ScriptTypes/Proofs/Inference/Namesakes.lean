import ScriptTypes.Proofs.Inference.History
import ScriptTypes.Proofs.Inference.Identity

/-!
# Owners and the names of their types

A generated name holds an offset and the keys that lead to an owner. Plain keys can be read off the
name again, so owners with plain keys have the same name only if they start at the same offset: if
they are one owner, or if one belongs to an object literal with which the text begins and the other
one to a symbol of the program, which starts there too.

The members of a generated type come from the properties of owners with its name. Where the name is
that of one owner alone, they are its own properties, after any queries.

Main statement: `generated_names_identify_owners`.
-/

namespace ScriptTypes

open Script (Module NodeId)

instance : DecidablePred PlainKey := fun key =>
  decidable_of_iff (key ≠ "" ∧
      key.toList.all (fun c => !TypeName.separates c && !Text.isBlank c && c != '.') = true ∧
      key.toList.getLast?.all (· != '=') = true)
    ⟨fun ⟨hne, hchars, hlast⟩ => ⟨hne, by simpa [and_assoc] using hchars,
        by simpa [Option.all_eq_true] using hlast⟩,
      fun h => ⟨h.ne_empty, by simpa [and_assoc] using h.chars,
        by simpa [Option.all_eq_true] using h.last⟩⟩

/-- The keys of a literal's owner are plain. Those of a symbol's owner are so in any case. -/
def Owner.IsPlain (o : Owner) : Prop := o.home = none → ∀ k ∈ o.keys, PlainKey k

instance : DecidablePred Owner.IsPlain := fun o =>
  inferInstanceAs (Decidable (o.home = none → ∀ k ∈ o.keys, PlainKey k))

namespace Setting

variable {s : Setting}

/-- The first owner belongs to a literal with which the text begins and the second one to a symbol
of the program, with the same keys. -/
structure Overlap (s : Setting) (o o' : Owner) : Prop where
  literal : o.origin s = .literal 0
  scope : o'.origin s = .scope 0
  keys : o.keys = o'.keys

namespace Scripted

variable (hs : s.Scripted) {o o' : Owner}
include hs

theorem plainKey_of_isPlain (ho : o ∈ s.allOwners) (h : o.IsPlain) : ∀ k ∈ o.keys, PlainKey k := by
  cases hhome : o.home with
  | none => exact h hhome
  | some key => exact hs.plainKey_of_home ho hhome

/-- An owner of a literal and one of a symbol start at the beginning of the text, if anywhere. -/
theorem overlap_of_offset_eq (hexact : s.module.Exact) {n : Nat} (ho : o ∈ (Owner.literal n).withProperties s)
    (hn : n < s.module.size) {items : List NodeId} (hform : s.module.form n = .object items)
    {key : Symbol} (hhome : o'.home = some key)
    (hoffset : (o.origin s).offset = (o'.origin s).offset) (hkeys : o.keys = o'.keys) :
    s.Overlap o o' := by
  have horigin := Owner.origin_of_mem_withProperties ho
  have horigin' := Owner.origin_of_home (s := s) hhome
  rw [horigin, horigin'] at hoffset
  have hzero : (s.module.range n).start = 0 := by
    by_contra hpos
    exact hs.start_ne_literal hexact key.1 hn hform hpos hoffset.symm
  refine ⟨horigin.trans (congrArg Origin.literal hzero), ?_, hkeys⟩
  exact horigin'.trans (congrArg Origin.scope (hoffset.symm.trans hzero))

/-- Owners with the same offset and keys are the same, or they overlap. -/
theorem eq_or_overlap (hexact : s.module.Exact) (ho : o ∈ s.allOwners) (ho' : o' ∈ s.allOwners)
    (hoffset : (o.origin s).offset = (o'.origin s).offset) (hkeys : o.keys = o'.keys) :
    o = o' ∨ s.Overlap o o' ∨ s.Overlap o' o := by
  rcases mem_allOwners_cases ho with ⟨n, hmem, hn, items, hform⟩ | ⟨key, -, hmem⟩
  · rcases mem_allOwners_cases ho' with ⟨n', hmem', hn', items', hform'⟩ | ⟨key', -, hmem'⟩
    · rw [Owner.origin_of_mem_withProperties hmem, Owner.origin_of_mem_withProperties hmem']
        at hoffset
      have hstart : (s.module.span n).start = (s.module.span n').start := by
        rw [← hexact, ← hexact]
        exact hoffset
      obtain rfl : n = n' := hs.module.eq_of_start_eq hn hn' (by rw [hform]; rfl)
        (by rw [hform']; rfl) hstart
      refine .inl (Owner.eq_of_root_eq ?_ hkeys)
      rw [Owner.root_of_mem_withProperties hmem, Owner.root_of_mem_withProperties hmem']
    · have hhome' := Owner.home_of_mem_withProperties hmem'
      exact .inr (.inl (hs.overlap_of_offset_eq hexact hmem hn hform hhome' hoffset hkeys))
  · have hhome := Owner.home_of_mem_withProperties hmem
    rcases mem_allOwners_cases ho' with ⟨n', hmem', hn', items', hform'⟩ | ⟨key', -, hmem'⟩
    · have hoverlap := hs.overlap_of_offset_eq hexact hmem' hn' hform' hhome hoffset.symm hkeys.symm
      exact .inr (.inr hoverlap)
    · have hhome' := Owner.home_of_mem_withProperties hmem'
      exact .inl (hs.eq_of_offset_eq hexact ho ho' hhome hhome' hoffset hkeys)

/-- Owners with plain keys have types of the same name only if they are the same or overlap. -/
theorem type_eq_iff_eq_or_overlap (hexact : s.module.Exact)
    (hstem : ∀ c ∈ s.fileStem.toList, TypeName.separates c = false)
    (ho : o ∈ s.allOwners) (ho' : o' ∈ s.allOwners) (hplain : o.IsPlain) (hplain' : o'.IsPlain) :
    o.type s = o'.type s ↔ o = o' ∨ s.Overlap o o' ∨ s.Overlap o' o := by
  rw [type_eq_iff hstem (hs.path_eq_and_sorted ho).1 (hs.path_eq_and_sorted ho').1
    (hs.plainKey_of_isPlain ho hplain) (hs.plainKey_of_isPlain ho' hplain')]
  refine ⟨fun ⟨hoffset, hkeys⟩ => hs.eq_or_overlap hexact ho ho' hoffset hkeys, ?_⟩
  rintro (rfl | h | h)
  · exact ⟨rfl, rfl⟩
  · exact ⟨by rw [h.literal, h.scope]; rfl, h.keys⟩
  · exact ⟨by rw [h.literal, h.scope]; rfl, h.keys.symm⟩

end Scripted

end Setting

namespace Inference

variable {s : Setting}

/-! ### Whose properties the members of a type are -/

/-- An owner has a property, and this is what inference found for it. -/
def FoundFor (s : Setting) (o : Owner) (name : String) (e : Element) : Prop :=
  (∃ c, (name, c) ∈ (o.collection s).properties) ∧
    ∃ entered r, (answer s entered (.owner (.property o name)) r).1 = e

/-- All members were found for properties of owners with the name of the type. -/
def Attributed (s : Setting) (r : Registry) : Prop :=
  ∀ t g, Entries.get? t r = some g → ∀ name e, Entries.get? name g.members = some e →
    ∃ o ∈ s.owners, o.type s = t ∧ FoundFor s o name e

namespace Attributed

variable {r : Registry}

theorem nil (s : Setting) : Attributed s [] := fun _ _ h => nomatch h

theorem register (h : Attributed s r) (type : TypeName) (parents : List TypeName) :
    Attributed s (r.register type parents) := by
  intro t g hg name e he
  rcases Registry.of_get?_register hg with hg | rfl
  · exact h t g hg name e he
  · cases he

theorem addMember (h : Attributed s r) {o : Owner} (ho : o ∈ s.owners) {name : String} {e : Element}
    (he : FoundFor s o name e) : Attributed s (r.addMember (o.type s) name e) := by
  intro t g hg name' e' he'
  obtain ⟨g₀, hg₀, -, hmembers⟩ := Registry.of_get?_addMember hg
  rcases hmembers name' e' he' with he' | ⟨rfl, rfl, rfl⟩
  · exact h t g₀ hg₀ name' e' he'
  · exact ⟨o, ho, rfl, he⟩

end Attributed

/-- A computation keeps members attributed. -/
def KeepsAttributed (s : Setting) {α : Type} (f : Infer α) : Prop :=
  ∀ r, Attributed s r → Attributed s (f r).2

theorem sequential_keepsAttributed (s : Setting) :
    Sequential (fun {α} (f _ : Infer α) => KeepsAttributed s f) :=
  sequential_of_invariant (Attributed s)

section Owners

variable {o : Owner} (ho : o ∈ s.owners) {entered : List Symbol}
  (hcalls : ∀ b ∈ s.callees (.owner o), KeepsAttributed s (answer s entered b))
include ho hcalls

theorem keepsAttributed_addMembers (properties : List (PropertyName s o)) :
    KeepsAttributed s (addMembers (fun b _ => answer s entered b) properties) := by
  induction properties with
  | nil => exact fun r h => h
  | cons p properties ih =>
    intro r h
    have hname : ∃ c, (p.1, c) ∈ (o.collection s).properties := by
      rcases List.mem_append.1 p.2 with hp | hp
      · obtain ⟨v, -, hv⟩ := List.mem_map.1 hp
        cases hv
      · obtain ⟨⟨name, c⟩, hc, heq⟩ := List.mem_map.1 hp
        have hname : name = p.1 := by simpa using heq
        exact ⟨c, hname ▸ hc⟩
    exact ih _ ((hcalls _ p.2 r h).addMember ho ⟨hname, entered, r, rfl⟩)

theorem keepsAttributed_generate (e : Element) (properties : List (PropertyName s o)) :
    KeepsAttributed s (generate (fun b _ => answer s entered b) e properties) := by
  intro r h
  by_cases hne : properties = []
  · subst hne
    exact h
  by_cases hmem : Entries.contains (o.type s) r = true
  · rw [generate_of_contains hne hmem]
    exact h
  · rw [generate_of_not_contains hne (Bool.eq_false_iff.2 hmem)]
    exact keepsAttributed_addMembers ho hcalls properties _ (h.register _ _)

end Owners

/-- Inference keeps members attributed. -/
theorem keepsAttributed_answer (entered : List Symbol) (a : Call) (ha : s.InModule a) :
    KeepsAttributed s (answer s entered a) := by
  induction entered, a using nested_induction s with
  | step entered a ih =>
    refine (sequential_keepsAttributed s).answer_of_generate ?_ (fun q r h => h) ?_
    · rintro o rfl hproperties entered' hcalls
      exact keepsAttributed_generate (s.mem_owners.2 ⟨ha, hproperties⟩) hcalls
    · exact fun entered' hsome b hb => ih entered' hsome b hb (s.inModule_of_mem_callees ha hb)

theorem attributed_after (s : Setting) (history : List Query) : Attributed s (after s history) :=
  after_of_invariant (.nil s) (fun a hmodule _ => keepsAttributed_answer [] a hmodule) history

/-! ### Names and owners -/

/-- In a text of less than 2 ^ 32 bytes, two owners with plain keys have types of different names,
unless one belongs to a literal with which the text begins and the other one to a symbol of the
program. The type of an owner whose name no other one has shows, after any queries, no member but
what was found for a property of that owner. -/
theorem generated_names_identify_owners {cs : List Char} {m : Module}
    (hm : Module.ofText cs = .ok m) (index : Index) (renames : TypeRenaming) (location : Path)
    (resolve : String → Option Path)
    {s : Setting} (hsetting : s = .ofModule m index renames location resolve)
    (hstem : ∀ c ∈ s.fileStem.toList, TypeName.separates c = false) :
    (Text.byteSize cs < 2 ^ 32 → ∀ o ∈ s.owners, ∀ o' ∈ s.owners, o.IsPlain → o'.IsPlain →
      (o.type s = o'.type s ↔ o = o' ∨ s.Overlap o o' ∨ s.Overlap o' o)) ∧
    ∀ history, ∀ o ∈ s.owners, (∀ o' ∈ s.owners, o'.type s = o.type s → o' = o) →
      ∀ g, Entries.get? (o.type s) (after s history) = some g →
        ∀ name e, Entries.get? name g.members = some e → FoundFor s o name e := by
  have hs : s.Scripted := hsetting ▸ Setting.scripted_ofModule hm index renames location resolve
  refine ⟨fun hsize o ho o' ho' => ?_, fun history o ho halone g hg name e he => ?_⟩
  · have hexact : s.module.Exact := hsetting ▸ Module.exact_of_ofText hm hsize
    exact hs.type_eq_iff_eq_or_overlap hexact hstem (s.mem_owners.1 ho).1 (s.mem_owners.1 ho').1
  · obtain ⟨o', ho', htype, hfound⟩ := attributed_after s history _ g hg name e he
    exact halone o' ho' htype ▸ hfound

/-- Keys that differ by a hyphen. -/
theorem generated_names_identify_hyphenated_keys : ∃ m : Module,
    Module.ofText ("var l = \x7b\"b-c\": \x7bp: \x7bq: 1\x7d\x7d, " ++
      "bc: \x7bp: \x7br: 's'\x7d\x7d\x7d; l.bc.p.r").toList = .ok m ∧
    ∃ o ∈ (Setting.ofScript .empty m).owners, ∃ o' ∈ (Setting.ofScript .empty m).owners,
      (o.keys = ["b-c"] ∧ o.IsPlain) ∧ (o'.keys = ["bc"] ∧ o'.IsPlain) ∧
      o.type (.ofScript .empty m) ≠ o'.type (.ofScript .empty m) ∧
      ∃ g e, Entries.get? (o'.type (.ofScript .empty m))
          (after (.ofScript .empty m) [.symbol 0 "l"]) = some g ∧
        Entries.get? "p" g.members = some e ∧ FoundFor (.ofScript .empty m) o' "p" e := by
  obtain ⟨m, hm, o, ho, o', ho', hfirst, hsecond, hbehind, hne, halone, hmember⟩ :=
    Module.exists_ofText
      ("var l = \x7b\"b-c\": \x7bp: \x7bq: 1\x7d\x7d, " ++
        "bc: \x7bp: \x7br: 's'\x7d\x7d\x7d; l.bc.p.r")
      (fun m => ∃ o ∈ (Setting.ofScript .empty m).owners, ∃ o' ∈ (Setting.ofScript .empty m).owners,
        (o.keys = ["b-c"] ∧ o.IsPlain) ∧ (o'.keys = ["bc"] ∧ o'.IsPlain) ∧
        o.origin (.ofScript .empty m) = .literal 8 ∧ o ≠ o' ∧
        (∀ o₂ ∈ (Setting.ofScript .empty m).owners,
          o₂.type (.ofScript .empty m) = o'.type (.ofScript .empty m) → o₂ = o') ∧
        (afterWithin (.ofScript .empty m) 20 [.symbol 0 "l"]).any
          (fun r => ((Entries.get? (o'.type (.ofScript .empty m)) r).bind
            fun g => Entries.get? "p" g.members).isSome) = true) (by decide +kernel)
  obtain ⟨hnames, hmembers⟩ := generated_names_identify_owners hm .empty .empty "main.js"
    (fun _ => none) rfl fun c hc => (Setting.of_isInert (Setting.isInert_ofScript .empty m c hc)).1
  obtain ⟨r, hr, hmember⟩ := Option.any_eq_true _ _ |>.1 hmember
  obtain ⟨e, he⟩ := Option.isSome_iff_exists.1 hmember
  obtain ⟨g, hg, he⟩ := Option.bind_eq_some_iff.1 he
  rw [← after_eq_of_afterWithin hr] at hg
  refine ⟨m, hm, o, ho, o', ho', hfirst, hsecond, fun heq => ?_, g, e, hg, he, ?_⟩
  · rcases (hnames (by decide +kernel) o ho o' ho' hfirst.2 hsecond.2).1 heq with heq | hoverlap | hoverlap
    · exact hne heq
    · cases hbehind.symm.trans hoverlap.literal
    · cases hbehind.symm.trans hoverlap.scope
  · exact hmembers _ o' ho' halone g hg "p" e he

/-- Blanks do not count in the name of a type, so that `bc` gets the members of `b c` and the
property `r` is not found. A literal at the beginning and a symbol share a name as well. -/
theorem generated_name_of_two_owners :
    (∃ m : Module, Module.ofText ("var l = \x7b\"b c\": \x7bp: \x7bq: 1\x7d\x7d, " ++
        "bc: \x7bp: \x7br: 's'\x7d\x7d\x7d; l.bc.p.r").toList = .ok m ∧
      (∃ o ∈ (Setting.ofScript .empty m).owners, ∃ o' ∈ (Setting.ofScript .empty m).owners,
        o.keys = ["b c"] ∧ o'.keys = ["bc"] ∧
        o.type (.ofScript .empty m) = o'.type (.ofScript .empty m)) ∧
      ((Query.offset 56).answer (.ofScript .empty m) (after (.ofScript .empty m) [])).1 = []) ∧
    ∃ m : Module, Module.ofText
        "\x7b\"a\": \x7bx: \x7by: 1\x7d\x7d\x7d + 1; var a = \x7b\x7d; a.x = 1;".toList = .ok m ∧
      ∃ o ∈ (Setting.ofScript .empty m).owners, ∃ o' ∈ (Setting.ofScript .empty m).owners,
        o.home = none ∧ o'.home = some (0, "a") ∧
        o.type (.ofScript .empty m) = o'.type (.ofScript .empty m) := by
  refine ⟨?_, Module.exists_ofText
    "\x7b\"a\": \x7bx: \x7by: 1\x7d\x7d\x7d + 1; var a = \x7b\x7d; a.x = 1;" _ (by decide +kernel)⟩
  obtain ⟨m, hm, howners, htypes⟩ := Module.exists_ofText
    ("var l = \x7b\"b c\": \x7bp: \x7bq: 1\x7d\x7d, " ++
      "bc: \x7bp: \x7br: 's'\x7d\x7d\x7d; l.bc.p.r")
    (fun m => (∃ o ∈ (Setting.ofScript .empty m).owners,
        ∃ o' ∈ (Setting.ofScript .empty m).owners, o.keys = ["b c"] ∧ o'.keys = ["bc"] ∧
          o.type (.ofScript .empty m) = o'.type (.ofScript .empty m)) ∧
      ((afterWithin (.ofScript .empty m) 20 []).bind
        ((Query.offset 56).run (.ofScript .empty m)
          (within (.ofScript .empty m) 20 []))).map Prod.fst = some []) (by decide +kernel)
  exact ⟨m, hm, howners, answer_eq_of_within 20 htypes⟩

end Inference

end ScriptTypes
