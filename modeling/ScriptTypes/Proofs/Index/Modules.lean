import ScriptTypes.Project.IndexFile
import ScriptTypes.Proofs.Index.Merged
import ScriptTypes.Proofs.Path.Normal

/-!
# Modules that index files record

An index file records its modules at paths seen from its own directory. The record keeps the path as
it is joined, while a module id is resolved to a path in normal form. So the two meet exactly where
the joined path is in normal form already: if the directory is, and if the file is written without
dots and repeated slashes. A record written otherwise is there, but no require ever asks for it.

Records are never lost: an index knows what each of the indexes merged into it knows.
-/

namespace ScriptTypes

namespace Entries

variable {α : Type}

/-- One more item under a name: the items of all names are those from before and this one. -/
theorem exists_mem_upsert_iff {name n : String} {a b : α} {table : Entries (List α)} :
    (∃ bs, (n, bs) ∈ upsert name (fun as? => as?.getD [] ++ [a]) table ∧ b ∈ bs)
      ↔ (∃ bs, (n, bs) ∈ table ∧ b ∈ bs) ∨ (n = name ∧ b = a) := by
  induction table with
  | nil => simp [upsert]
  | cons entry rest ih =>
    obtain ⟨m, as⟩ := entry
    rw [upsert]
    split
    · rename_i hm
      subst hm
      simp only [Option.getD_some, List.mem_cons, Prod.mk.injEq]
      grind
    · simp only [List.mem_cons, or_and_right, exists_or, ih, or_assoc]

end Entries

namespace Index

/-! ### What an index records -/

/-- The index records a document for the module of a word. -/
def Records (index : Index) (word document : String) : Prop :=
  ∃ ds, (word, ds) ∈ index.modules ∧ document ∈ ds

/-- The index knows the file at a path as a module: it records the file for a word, and the type of
what the module exports is named after it. -/
def Knows (index : Index) (path : Path) : Prop :=
  ∃ word, index.Records word (fileAddress path) ∧
    index.moduleType? path = some (word ++ ".exports")

variable {index other : Index} {word document : String} {path : Path}

theorem knows_iff : index.Knows path ↔ ∃ word, index.Records word (fileAddress path) := by
  refine ⟨fun ⟨word, hrecords, _⟩ => ⟨word, hrecords⟩, fun ⟨word, ds, hmem, hdocument⟩ => ?_⟩
  cases hfind : index.modules.find? fun m => m.2.contains (fileAddress path) with
  | none =>
    have hnone := List.find?_eq_none.1 hfind (word, ds) hmem
    simp [hdocument] at hnone
  | some m =>
    have hcontains := List.find?_some hfind
    refine ⟨m.1, ⟨m.2, List.mem_of_find?_eq_some hfind, by simpa using hcontains⟩, ?_⟩
    exact congrArg (Option.map fun m => m.1 ++ ".exports") hfind

theorem records_addModule {w d : String} :
    (index.addModule w d).Records word document
      ↔ index.Records word document ∨ (word = w ∧ document = d) :=
  Entries.exists_mem_upsert_iff

theorem records_of_modules_eq (h : index.modules = other.modules) :
    index.Records word document ↔ other.Records word document := by
  rw [Records, Records, h]

theorem modules_mergeType (r : String × TypeRecord) :
    (index.mergeType r).modules = index.modules := by
  rw [mergeType_eq, foldl_view_eq (f := addMember) (v := modules) fun _ _ => rfl,
    foldl_view_eq (f := fun i d => i.addTypeDocument r.1 d) (v := modules) fun _ _ => rfl]
  rfl

theorem records_merge :
    (index.merge other).Records word document
      ↔ index.Records word document ∨ other.Records word document := by
  have hmodule (i : Index) (m : String × List String) :
      (m.2.foldl (fun i d => i.addModule m.1 d) i).Records word document
        ↔ i.Records word document ∨ (word = m.1 ∧ document ∈ m.2) := by
    rw [foldl_or (f := fun i d => addModule i m.1 d) (P := fun i => Records i word document)
      fun i d => records_addModule]
    simp [and_comm]
  have hrest :
      (other.types.foldl mergeType (index.mergeGlobals other)).modules = index.modules := by
    rw [foldl_view_eq (v := modules) fun i r => modules_mergeType r, mergeGlobals,
      foldl_view_eq (f := addGlobal) (v := modules) fun _ _ => rfl]
  rw [merge_eq, foldl_or (P := fun i => Records i word document) hmodule,
    records_of_modules_eq hrest]
  refine or_congr_right ⟨?_, ?_⟩
  · rintro ⟨m, hm, rfl, hdocument⟩
    exact ⟨m.2, hm, hdocument⟩
  · rintro ⟨ds, hm, hdocument⟩
    exact ⟨(word, ds), hm, rfl, hdocument⟩

theorem knows_merge : (index.merge other).Knows path ↔ index.Knows path ∨ other.Knows path := by
  simp only [knows_iff, records_merge, exists_or]

end Index

namespace IndexFile

open ScriptTypes.Path (join normalize Normal)

variable {f : IndexFile} {path dir : Path}

theorem modules_addType (document : String) (index : Index) (t : TypeEntry) :
    (addType document index t).modules = index.modules := by
  unfold addType
  split
  · rfl
  · rename_i name _
    exact foldl_view_eq (f := fun i (e : ElementEntry) => i.addMember (e.element name document))
      (v := Index.modules) (fun _ _ => rfl) _ _

/-- An index file records its modules at their paths as seen from its directory. -/
theorem records_index (hdir : path.parent? = some dir) {word document : String} :
    (f.index path).Records word document
      ↔ ∃ m ∈ f.modules, word = m.name ∧ document = Index.fileAddress (join dir m.file) := by
  have hglobals : (f.globals.foldl
      (fun i e => i.addGlobal (e.element "" (Index.fileAddress path))) Index.empty).modules = [] :=
    foldl_view_eq (f := fun i (e : ElementEntry) =>
      i.addGlobal (e.element "" (Index.fileAddress path))) (v := Index.modules) (fun _ _ => rfl) _ _
  have htypes := foldl_view_eq (v := Index.modules) (modules_addType (Index.fileAddress path))
    (f.globals.foldl (fun i e => i.addGlobal (e.element "" (Index.fileAddress path))) Index.empty)
    f.types
  rw [index, hdir, Option.getD_some,
    foldl_or (f := fun i (m : ModuleEntry) =>
      i.addModule m.name (Index.fileAddress (join dir m.file)))
      (P := fun i => Index.Records i word document) fun i m => Index.records_addModule]
  simp [Index.Records, htypes, hglobals]

theorem knows_index (hdir : path.parent? = some dir) {p : Path} :
    (f.index path).Knows p ↔ ∃ m ∈ f.modules, join dir m.file = p := by
  simp only [Index.knows_iff, records_index hdir, Index.fileAddress, String.append_right_inj]
  grind

/-- **Modules are known where they are written.** An index knows the module of each record of an
index file that came into it, at the path that the record joins to. At the normal form of this path,
which is where a require of the file leads, it is known only if some record is written that way. The
two paths are the same exactly if they are in normal form: below the root, if the directory of the
index file is and the file is plain. And exactly then any require at all leads to the record. -/
theorem modules_known_as_written {other : Index} {m : ModuleEntry} (hpath : path.isAbsolute = true)
    (hdir : path.parent? = some dir) (hm : m ∈ f.modules) (hfile : Path.isAbsolute m.file = false) :
    let written := join dir m.file
    let resolved := normalize written
    ((f.index path).Knows written ∧ (other.merge (f.index path)).Knows written) ∧
      ((f.index path).Knows resolved ↔ ∃ m' ∈ f.modules, join dir m'.file = resolved) ∧
      ((other.merge (f.index path)).Knows resolved
        ↔ other.Knows resolved ∨ ∃ m' ∈ f.modules, join dir m'.file = resolved) ∧
      (Normal dir → Path.Plain m.file →
        (f.index path).Knows resolved ∧ (other.merge (f.index path)).Knows resolved) ∧
      (dir ≠ "/" → (resolved = written ↔ Normal dir ∧ Path.Plain m.file)) ∧
      (∀ isFile start root, isFile resolved = true →
        Require.resolve isFile resolved start root = .ok resolved) ∧
      (resolved = written ↔ ∃ isFile id start root, Path.isAbsolute start = true ∧
        Require.resolve isFile id start root = .ok written) := by
  intro written resolved
  obtain ⟨ds, hds, hlast⟩ := Path.toList_of_parent? hpath hdir
  have hwritten : written.isAbsolute = true :=
    Path.isAbsolute_join (Path.isAbsolute_of_parent? hpath hdir) _
  have hknown : (f.index path).Knows written := (knows_index hdir).2 ⟨m, hm, rfl⟩
  have hnormal : resolved = written ↔ Normal written := Path.normalize_eq_self_iff hwritten
  have hmerged : (other.merge (f.index path)).Knows written := Index.knows_merge.2 (.inr hknown)
  refine ⟨⟨hknown, hmerged⟩, knows_index hdir, ?_, ?_, ?_, ?_, ?_⟩
  · rw [Index.knows_merge, knows_index hdir]
  · intro hnormaldir hplain
    rw [hnormal.2 (hnormaldir.join hfile hplain)]
    exact ⟨hknown, hmerged⟩
  · intro hroot
    have hnil : ds ≠ [] := by
      rintro rfl
      exact hroot (String.toList_inj.1 hds)
    exact hnormal.trans (Path.normal_join_iff hds hnil hlast hfile)
  · intro isFile start root hisFile
    exact Require.resolve_of_normal (Path.normal_normalize hwritten) hisFile start root
  · rw [hnormal]
    constructor
    · intro h
      exact ⟨fun _ => true, written, "/", none, rfl, Require.resolve_of_normal h rfl "/" none⟩
    · rintro ⟨isFile, id, start, root, hstart, hresolve⟩
      exact Require.normal_of_mem_candidates hstart (Require.of_resolve_eq_ok hresolve).1

/-- An index file at `/p/i/lib.toml` that records a module in a directory next to it. -/
theorem nested_module_known :
    let f : IndexFile := { modules := [⟨"Foo", "src/x.js"⟩] }
    (Path.isAbsolute "/p/i/lib.toml" = true ∧ Path.parent? "/p/i/lib.toml" = some "/p/i" ∧
      Path.isAbsolute "src/x.js" = false) ∧
      (f.index "/p/i/lib.toml").Knows (normalize (join "/p/i" "src/x.js")) ∧
      normalize (join "/p/i" "src/x.js") = "/p/i/src/x.js" := by
  intro f
  have hnormal : Normal "/p/i" := ⟨"p/i".toList, rfl, .inr (by decide)⟩
  have hknown := (@modules_known_as_written f "/p/i/lib.toml" "/p/i" Index.empty ⟨"Foo", "src/x.js"⟩
    (by decide) (by decide) (by decide) (by decide)).2.2.2.1 hnormal (by decide)
  exact ⟨by decide, hknown.1, by decide +kernel⟩

/-- A file in the directory above is recorded with its dots. A script that requires it finds the
file, but no module that the index knows. -/
theorem climbing_module_unknown :
    let index := IndexFile.index { modules := [⟨"Foo", "../x.js"⟩] } "/p/i/lib.toml"
    Require.resolve (· == "/p/x.js") "./x" "/p" none = .ok "/p/x.js" ∧
      normalize (join "/p/i" "../x.js") = "/p/x.js" ∧
      index.moduleType? "/p/x.js" = none ∧ (Index.empty.merge index).moduleType? "/p/x.js" = none ∧
      index.moduleType? "/p/i/../x.js" = some "Foo.exports" := by
  decide +kernel

end IndexFile

end ScriptTypes
