import Mathlib.Data.List.Find
import Mathlib.Data.List.Infix
import Mathlib.Data.List.TakeWhile
import ScriptTypes.Proofs.Path.Route

/-!
# Where modules are looked for

The directories around a path are the paths made of fewer and fewer of its parts. For a path in
normal form these are what going from parent to parent gives, since its text is that of its parts
with a slash between each two. An id that is no path is looked for in these directories, nearest
first, up to the root of the project if this is one of them. An id that does not climb stays below
the directory it is looked for in, and so below the root.

Main statement: `bare_ids_are_found_nearest_first`.
-/

namespace ScriptTypes

namespace Path

/-! ### Directories around a path -/

/-- A path and the directories around it, nearest first: of its parts all, all but the last, and so
on. -/
def outward (p : Path) : List Path := (parts p).inits.tail.reverse.map ofParts

/-- The absolute path with the given texts between its slashes. -/
def ofTexts (ts : List (List Char)) : Path := ofParts (.root :: ts.filterMap part?)

/-- The texts between the slashes of a path in normal form. -/
structure NormalTexts (ts : List (List Char)) : Prop where
  tight : Tight ts
  slash : ∀ t ∈ ts, '/' ∉ t

theorem intercalate_concat {ts : List (List Char)} (h : ts ≠ []) (t : List Char) :
    ['/'].intercalate (ts ++ [t]) = ['/'].intercalate ts ++ '/' :: t := by
  induction ts with
  | nil => exact absurd rfl h
  | cons u us ih =>
    by_cases hus : us = []
    · simp [hus]
    · rw [List.cons_append, List.intercalate_cons_of_ne_nil (by simp), ih hus,
        List.intercalate_cons_of_ne_nil hus]
      simp

theorem Normal.exists_texts {p : Path} (h : Normal p) : ∃ ts, NormalTexts ts ∧ p = ofTexts ts := by
  obtain ⟨cs, hcs, rfl | htight⟩ := h
  · exact ⟨[], ⟨trivial, by simp⟩, String.toList_inj.1 hcs⟩
  · refine ⟨pieces cs, ⟨htight, fun t => slash_notMem_of_mem_pieces⟩, String.toList_inj.1 ?_⟩
    rw [hcs, ofTexts, htight.toList_ofParts_root, pieces, List.intercalate_splitOn]

namespace NormalTexts

variable {ts us : List (List Char)} {t : List Char}

theorem of_append (h : NormalTexts (ts ++ us)) : NormalTexts ts := by
  refine ⟨?_, fun t ht => h.slash t (List.mem_append_left us ht)⟩
  by_cases hnil : ts = []
  · rw [hnil]
    trivial
  · exact ((tight_append_iff hnil).1 h.tight).1

theorem toList_ofTexts (h : NormalTexts ts) : (ofTexts ts).toList = '/' :: ['/'].intercalate ts :=
  h.tight.toList_ofParts_root

theorem parts_ofTexts (h : NormalTexts ts) : parts (ofTexts ts) = .root :: ts.filterMap part? := by
  rw [parts_of_root h.toList_ofTexts, filterMap_part?_pieces h.slash]

/-- A path is its parent with a slash and the last text behind it, where the root has no slash of
its own. -/
theorem reverse_ofTexts_concat (h : NormalTexts (ts ++ [t])) :
    (ofTexts (ts ++ [t])).toList.reverse
      = t.reverse ++ '/' :: if ts = [] then [] else (ofTexts ts).toList.reverse := by
  rw [h.toList_ofTexts]
  split
  · rename_i hnil
    simp [hnil]
  · rename_i hnil
    rw [h.of_append.toList_ofTexts, intercalate_concat hnil]
    simp

/-- The last text, back to front, is neither empty nor a dot. -/
theorem reverse_last (h : NormalTexts (ts ++ [t])) :
    t.reverse ≠ [] ∧ t.reverse ≠ ['.'] ∧ '/' ∉ t.reverse := by
  obtain ⟨q, hq⟩ := h.tight.isSome_part? t (by simp)
  refine ⟨?_, ?_, by simpa using h.slash t (by simp)⟩
  · intro heq
    rw [List.reverse_eq_nil_iff.1 heq] at hq
    cases hq
  · intro heq
    rw [List.reverse_eq_iff.1 heq] at hq
    cases hq

/-- There is nothing to trim behind the last text. -/
theorem trimEnd_reverse (h : NormalTexts (ts ++ [t])) (cs : List Char) :
    trimEnd (t.reverse ++ '/' :: cs) = t.reverse ++ '/' :: cs := by
  obtain ⟨hnil, hdot, hslash⟩ := h.reverse_last
  generalize t.reverse = rs at *
  unfold trimEnd
  split
  · rename_i heq
    cases rs <;> simp_all
  · rename_i heq
    rcases rs with - | ⟨c, - | ⟨c', rs⟩⟩ <;> simp_all
  · rfl

theorem trimEnd_slash_ofTexts (h : NormalTexts ts) (hts : ts ≠ []) :
    trimEnd ('/' :: (ofTexts ts).toList.reverse) = (ofTexts ts).toList.reverse := by
  obtain ⟨us, u, rfl⟩ := (List.eq_nil_or_concat' ts).resolve_left hts
  rw [h.reverse_ofTexts_concat]
  obtain ⟨c, cs, hcs⟩ := List.exists_cons_of_ne_nil (List.append_ne_nil_of_right_ne_nil u.reverse
    (List.cons_ne_nil '/' (if us = [] then [] else (ofTexts us).toList.reverse)))
  have htrim := h.trimEnd_reverse (if us = [] then [] else (ofTexts us).toList.reverse)
  rw [hcs] at htrim ⊢
  rw [trimEnd, htrim]

theorem parent?_ofTexts_nil : parent? (ofTexts []) = none := by decide

/-- The parent of a path has all texts but the last. -/
theorem parent?_ofTexts_concat (h : NormalTexts (ts ++ [t])) :
    parent? (ofTexts (ts ++ [t])) = some (ofTexts ts) := by
  obtain ⟨hne, -, hslash⟩ := h.reverse_last
  have hdrop (cs : List Char) : (t.reverse ++ '/' :: cs).dropWhile (· != '/') = '/' :: cs := by
    rw [List.dropWhile_append_of_pos fun c hc => by simpa using ne_of_mem_of_not_mem hc hslash]
    rfl
  unfold parent?
  rw [h.reverse_ofTexts_concat, h.trimEnd_reverse]
  split
  · rename_i heq
    simp at heq
  · rename_i heq
    exact absurd (List.append_eq_singleton_iff.1 heq) (by simp [hne])
  · rw [hdrop, Option.some.injEq]
    by_cases hts : ts = []
    · subst hts
      rfl
    · rw [if_neg hts, h.of_append.trimEnd_slash_ofTexts hts, List.reverse_reverse,
        String.ofList_toList]

theorem outward_ofTexts_concat (h : NormalTexts (ts ++ [t])) :
    outward (ofTexts (ts ++ [t])) = ofTexts (ts ++ [t]) :: outward (ofTexts ts) := by
  obtain ⟨q, hq⟩ := h.tight.isSome_part? t (by simp)
  have hparts : (ts ++ [t]).filterMap part? = ts.filterMap part? ++ [q] := by simp [hq]
  rw [outward, h.parts_ofTexts, outward, h.of_append.parts_ofTexts, ofTexts, hparts,
    ← List.cons_append, List.inits_append, List.tail_append_of_ne_nil (by simp)]
  simp

theorem ancestors_of_parent? {p q : Path} (h : parent? p = some q) :
    ancestors p = p :: ancestors q := by
  rw [ancestors]
  split <;> simp_all

/-- Going from parent to parent leads through the directories around a path. -/
theorem ancestors_ofTexts (h : NormalTexts ts) : ancestors (ofTexts ts) = outward (ofTexts ts) := by
  induction ts using List.reverseRecOn with
  | nil =>
    rw [ancestors]
    split
    · rename_i hparent
      cases parent?_ofTexts_nil.symm.trans hparent
    · rfl
  | append_singleton ts t ih =>
    rw [ancestors_of_parent? h.parent?_ofTexts_concat, h.outward_ofTexts_concat, ih h.of_append]

/-- The directories around a path have the first parts of it. -/
theorem exists_of_mem_outward {d : Path} (h : NormalTexts ts) (hd : d ∈ outward (ofTexts ts)) :
    ∃ us, us <+: ts ∧ d = ofTexts us := by
  induction ts using List.reverseRecOn with
  | nil => exact ⟨[], List.nil_prefix, List.mem_singleton.1 hd⟩
  | append_singleton ts t ih =>
    rw [h.outward_ofTexts_concat] at hd
    obtain rfl | hd := List.mem_cons.1 hd
    · exact ⟨_, List.prefix_rfl, rfl⟩
    · obtain ⟨us, hus, rfl⟩ := ih h.of_append hd
      exact ⟨us, hus.trans (List.prefix_append _ _), rfl⟩

/-- Of two directories around a path, the one further out has the first parts of the other. -/
theorem pairwise_outward (h : NormalTexts ts) :
    (outward (ofTexts ts)).Pairwise fun a b => parts b <+: parts a := by
  induction ts using List.reverseRecOn with
  | nil => exact List.pairwise_singleton _ _
  | append_singleton ts t ih =>
    rw [h.outward_ofTexts_concat]
    refine List.pairwise_cons.2 ⟨?_, ih h.of_append⟩
    intro d hd
    obtain ⟨us, ⟨vs, rfl⟩, rfl⟩ := h.of_append.exists_of_mem_outward hd
    rw [h.parts_ofTexts, h.of_append.of_append.parts_ofTexts, List.append_assoc,
      List.filterMap_append]
    exact List.prefix_append _ _

/-- The outermost directory is the root. -/
theorem getLast?_outward (h : NormalTexts ts) : (outward (ofTexts ts)).getLast? = some "/" := by
  induction ts using List.reverseRecOn with
  | nil => rfl
  | append_singleton ts t ih =>
    rw [h.outward_ofTexts_concat, List.getLast?_cons, ih h.of_append]
    rfl

theorem normal_ofTexts (h : NormalTexts ts) : Normal (ofTexts ts) := by
  refine ⟨_, h.toList_ofTexts, ?_⟩
  by_cases hts : ts = []
  · exact .inl (by rw [hts]; rfl)
  · rw [pieces_intercalate h.slash, if_neg hts]
    exact .inr h.tight

end NormalTexts

/-! ### Paths that do not climb -/

variable {p d : Path}

theorem parts_of_normal (h : Normal p) :
    parts p = .root :: (List.replicate ((route p).up % 2) .up ++ (route p).names.map .name) := by
  have hparts := parts_normalize p
  rw [normalize_eq_self h, h.isAbsolute] at hparts
  simpa using hparts

theorem mem_parts_of_mem_pieces {t : List Char} {q : Part} (ht : t ∈ pieces p.toList)
    (hq : part? t = some q) : q ∈ parts p := by
  have hmem : q ∈ (pieces p.toList).filterMap part? := List.mem_filterMap.2 ⟨t, ht, hq⟩
  unfold parts
  split
  · rename_i cs hcs
    rw [hcs, pieces_slash_cons] at hmem
    exact List.mem_cons_of_mem _ hmem
  · split
    · exact List.mem_cons_of_mem _ hmem
    · exact hmem

theorem up_route_eq_zero (h : Part.up ∉ parts p) : (route p).up = 0 := by
  refine List.foldlRecOn (pieces p.toList) Route.walk (motive := fun r => r.up = 0)
    (show Route.stay.up = 0 from rfl) ?_
  intro r hr t ht
  rcases part?_cases t with hnone | ⟨rfl, hup⟩ | hname
  · rwa [Route.walk_of_none hnone]
  · exact absurd (mem_parts_of_mem_pieces ht hup) h
  · rwa [Route.walk_of_isName hname]

/-- A path that does not climb stays below the directory that it is seen from. -/
theorem parts_normalize_join (hd : Normal d) (hp : p.isAbsolute = false)
    (hup : Part.up ∉ parts p) :
    parts (normalize (join d p)) = parts d ++ (route p).names.map .name := by
  have hroute : route (join d p) = ⟨(route d).up, (route d).names ++ (route p).names⟩ := by
    rw [route_join hp, Route.andThen_of_up_eq_zero (up_route_eq_zero hup)]
  rw [parts_normalize, isAbsolute_join_of_relative hp, hd.isAbsolute, hroute, parts_of_normal hd]
  simp

/-- An extension changes the last part only. -/
theorem prefix_parts_append {ext : String} (hp : Normal p) (hext : '/' ∉ ext.toList)
    {ps : List Part} {q : Part} (hparts : parts p = ps ++ [q]) : ps <+: parts (p ++ ext) := by
  obtain ⟨cs, hcs, -⟩ := hp
  obtain ⟨init, last, hpieces, happend⟩ := pieces_append hext cs
  have hlist : (p ++ ext).toList = '/' :: (cs ++ ext.toList) := by simp [hcs]
  rw [parts_of_root hcs, hpieces, List.filterMap_append, ← List.cons_append] at hparts
  rw [parts_of_root hlist, happend, List.filterMap_append, ← List.cons_append]
  have hinit : .root :: init.filterMap part? <+: ps ++ [q] := by
    rw [← hparts]
    exact List.prefix_append _ _
  have hlength : ps.length ≤ (Part.root :: init.filterMap part?).length := by
    have hle := List.length_filterMap_le part? [last]
    have heq := congrArg List.length hparts
    simp only [List.length_append, List.length_singleton] at heq hle
    omega
  exact (List.prefix_of_prefix_length_le (List.prefix_append ps [q]) hinit hlength).trans
    (List.prefix_append _ _)

end Path

namespace Require

open ScriptTypes.Path (Part Normal NormalTexts parts normalize join outward route ofTexts)

/-- Of the directories in a list, those up to the root, or all if the root is not among them. -/
inductive UpTo : (root : Option Path) → (dirs searched : List Path) → Prop
  | root {before beyond : List Path} {r : Path} (h : r ∉ before) :
      UpTo (some r) (before ++ r :: beyond) (before ++ [r])
  | all {root : Option Path} {dirs : List Path} (h : ∀ r, root = some r → r ∉ dirs) :
      UpTo root dirs dirs

variable {id : String} {dir : Path} {root : Option Path}

theorem upTo_searchDirs (root : Option Path) {ts : List (List Char)} (hts : NormalTexts ts)
    (hdir : normalize dir = ofTexts ts) :
    UpTo (root.map normalize) (outward (ofTexts ts)) (searchDirs dir root) := by
  rw [searchDirs, hdir, hts.ancestors_ofTexts]
  cases root.map normalize with
  | none => exact .all (by simp)
  | some r =>
    simp only [List.span_eq_takeWhile_dropWhile]
    by_cases hr : r ∈ outward (ofTexts ts)
    · obtain ⟨before, beyond, heq, hbefore⟩ := List.eq_append_cons_of_mem hr
      have hne : ∀ d ∈ before, (d != r) = true := by
        intro d hd
        simpa using ne_of_mem_of_not_mem hd hbefore
      rw [heq, List.takeWhile_append_of_pos hne, List.dropWhile_append_of_pos hne]
      simpa using UpTo.root hbefore
    · have hne : ∀ d ∈ outward (ofTexts ts), (d != r) = true := by
        intro d hd
        simpa using ne_of_mem_of_not_mem hd hr
      have hall : UpTo (some r) (outward (ofTexts ts)) (outward (ofTexts ts)) :=
        .all (by simpa using hr)
      rw [List.takeWhile_eq_self_iff.2 hne, List.dropWhile_eq_nil_iff.2 hne]
      simpa using hall

/-- The directories that are searched are not above the root, if this is around them. -/
theorem UpTo.prefix_parts {r : Path} {dirs searched : List Path}
    (h : UpTo (some r) dirs searched) (hr : r ∈ dirs)
    (hpairwise : dirs.Pairwise fun a b => parts b <+: parts a) :
    ∀ d ∈ searched, parts r <+: parts d := by
  cases h with
  | root _ =>
    intro d hd
    rcases List.mem_append.1 hd with hd | hd
    · exact (List.pairwise_append.1 hpairwise).2.2 d hd r List.mem_cons_self
    · rw [List.mem_singleton.1 hd]
  | all hall => exact absurd hr (hall r rfl)

theorem UpTo.subset {dirs searched : List Path} (h : UpTo root dirs searched) :
    searched ⊆ dirs := by
  cases h with
  | root _ => simp
  | all _ => exact List.Subset.refl _

/-- A plain path is written behind the directory that it is seen from. -/
theorem parts_join {d p : Path} (hd : Normal d) (hp : Path.isAbsolute p = false)
    (hplain : p.Plain) (hup : Part.up ∉ parts p) :
    parts (join d p) = parts d ++ (route p).names.map .name := by
  rw [← Path.normalize_eq_self (hd.join hp hplain), Path.parts_normalize_join hd hp hup]

/-- What is looked for in a directory is below it, unless the id climbs. -/
theorem prefix_of_mem_moduleFiles {d f : Path} (hd : Normal d) (hid : Path.isAbsolute id = false)
    (hup : Part.up ∉ parts id) (hf : f ∈ moduleFiles (installedPath id d)) : parts d <+: parts f := by
  have hmodules : Normal (join d "node_modules") := hd.join (by decide) (by decide)
  have hbase : Normal (installedPath id d) :=
    Path.normal_normalize (Path.isAbsolute_join hmodules.isAbsolute id)
  have hparts : parts (installedPath id d)
      = parts d ++ .name "node_modules".toList :: (route id).names.map .name := by
    rw [installedPath, Path.parts_normalize_join hmodules hid hup,
      parts_join hd (by decide) (by decide) (by decide), List.append_assoc]
    rfl
  -- extensions change the last part only, and that is not one of the directory
  obtain ⟨qs, q, hqs⟩ := (List.eq_nil_or_concat'
    (Part.name "node_modules".toList :: (route id).names.map .name)).resolve_left (by simp)
  rw [hqs, ← List.append_assoc] at hparts
  have hdir : parts d <+: parts d ++ qs := List.prefix_append _ _
  simp only [moduleFiles, List.mem_cons, List.not_mem_nil, or_false] at hf
  rcases hf with rfl | rfl | rfl | rfl
  · rw [hparts]
    exact hdir.trans (List.prefix_append _ _)
  · exact hdir.trans (Path.prefix_parts_append hbase (by decide) hparts)
  · exact hdir.trans (Path.prefix_parts_append hbase (by decide) hparts)
  · rw [parts_join hbase (by decide) (by decide) (by decide), hparts, List.append_assoc]
    exact hdir.trans (List.prefix_append _ _)

theorem isAbsolute_eq_false_of_not_isPathId (h : isPathId id = false) :
    Path.isAbsolute id = false := by
  rw [Bool.eq_false_iff, Ne, Path.isAbsolute_iff]
  rintro ⟨cs, hcs⟩
  have hslash : id.startsWith "/" = true := by simp [String.startsWith_string_iff, hcs]
  simp [isPathId, hslash] at h

/-- The search goes through the files of the directories and ends at the first that is there. -/
theorem resolve_of_not_isPathId (hid : id ≠ "") (hbare : isPathId id = false)
    (isFile : Path → Bool) :
    resolve isFile id dir root
      = match ((searchDirs dir root).flatMap fun d => moduleFiles (installedPath id d)).find? isFile
        with
        | some file => .ok file
        | none => .error (.notInstalled id dir) := by
  have hempty : id.isEmpty = false := by simpa [Bool.eq_false_iff, String.isEmpty_iff] using hid
  rw [resolve, hempty, candidates, hbare]
  rfl

/-- **Ids that are no paths are looked for nearest first, and not above the root.** The directories
are the normal form of the current one and those around it, up to the root of the project if it is
one of them and up to the root of all files otherwise. In each of them the module may be a file, with
or without an extension, or a directory with an index. The id leads to the first file that is there,
and is not installed exactly if none is. No other file matters. With the root among the directories
around the current one, no directory above the root is searched, and unless the id itself climbs, all
files are below the root too. -/
theorem bare_ids_are_found_nearest_first (root : Option Path) (hid : id ≠ "")
    (hbare : isPathId id = false) (hdir : dir.isAbsolute = true) :
    UpTo (root.map normalize) (outward (normalize dir)) (searchDirs dir root) ∧
    (outward (normalize dir)).getLast? = some "/" ∧
    let files := (searchDirs dir root).flatMap fun d =>
      let base := normalize (join (join d "node_modules") id)
      [base, base ++ ".js", base ++ ".json", join base "index.js"]
    (∀ isFile file, resolve isFile id dir root = .ok file ↔ isFile file = true ∧
      ∃ before after, files = before ++ file :: after ∧ ∀ f ∈ before, isFile f = false) ∧
    (∀ isFile, resolve isFile id dir root = .error (.notInstalled id dir) ↔
      ∀ f ∈ files, isFile f = false) ∧
    (∀ isFile isFile' : Path → Bool, (∀ f ∈ files, isFile f = isFile' f) →
      resolve isFile id dir root = resolve isFile' id dir root) ∧
    ∀ r, root = some r → normalize r ∈ outward (normalize dir) →
      (∀ d ∈ searchDirs dir root, parts (normalize r) <+: parts d) ∧
      (Part.up ∉ parts id → ∀ f ∈ files, parts (normalize r) <+: parts f) := by
  obtain ⟨ts, hts, hnormal⟩ := (Path.normal_normalize hdir).exists_texts
  have hupTo := upTo_searchDirs root hts hnormal
  rw [hnormal]
  refine ⟨hupTo, hts.getLast?_outward, ?_⟩
  intro files
  have hresolve (isFile : Path → Bool) : resolve isFile id dir root = match files.find? isFile with
      | some file => .ok file
      | none => .error (.notInstalled id dir) := resolve_of_not_isPathId hid hbare isFile
  refine ⟨?_, ?_, ?_, ?_⟩
  · intro isFile file
    have hfind : resolve isFile id dir root = .ok file ↔ files.find? isFile = some file := by
      rw [hresolve]
      cases files.find? isFile <;> simp
    rw [hfind, List.find?_eq_some_iff_append]
    simp
  · intro isFile
    have hfind : resolve isFile id dir root = .error (.notInstalled id dir)
        ↔ files.find? isFile = none := by
      rw [hresolve]
      cases files.find? isFile <;> simp
    rw [hfind, List.find?_eq_none]
    simp
  · intro isFile isFile' hagree
    rw [hresolve, hresolve, List.find?_congr hagree]
  · rintro r rfl hr
    have hbelow := hupTo.prefix_parts hr hts.pairwise_outward
    refine ⟨hbelow, ?_⟩
    intro hup f hf
    obtain ⟨d, hd, hfd⟩ := List.mem_flatMap.1 hf
    obtain ⟨us, ⟨vs, rfl⟩, rfl⟩ := hts.exists_of_mem_outward (hupTo.subset hd)
    exact (hbelow _ hd).trans (prefix_of_mem_moduleFiles hts.of_append.normal_ofTexts
      (isAbsolute_eq_false_of_not_isPathId hbare) hup hfd)

/-- A module of the project is found from a directory below, in the eighth place. One next to the
project is not, as the search ends at the root of the project. -/
theorem module_next_to_project_is_not_found :
    ("pad" ≠ "" ∧ isPathId "pad" = false ∧ Path.isAbsolute "/p/./a" = true) ∧
    resolve (· == "/p/node_modules/pad/index.js") "pad" "/p/./a" (some "/p/")
      = .ok "/p/node_modules/pad/index.js" ∧
    resolve (· == "/node_modules/pad.js") "pad" "/p/./a" (some "/p/")
      = .error (.notInstalled "pad" "/p/./a") := by
  have hhyps : "pad" ≠ "" ∧ isPathId "pad" = false ∧ Path.isAbsolute "/p/./a" = true := by
    decide +kernel
  obtain ⟨-, -, hfound, hmissing, -, -⟩ :=
    bare_ids_are_found_nearest_first (some "/p/") hhyps.1 hhyps.2.1 hhyps.2.2
  refine ⟨hhyps, (hfound _ _).2 ⟨by decide, ?_⟩, (hmissing _).2 (by decide +kernel)⟩
  exact ⟨["/p/a/node_modules/pad", "/p/a/node_modules/pad.js", "/p/a/node_modules/pad.json",
    "/p/a/node_modules/pad/index.js", "/p/node_modules/pad", "/p/node_modules/pad.js",
    "/p/node_modules/pad.json"], [], by decide +kernel, by decide⟩

end Require

end ScriptTypes
