import Mathlib.Data.List.Basic
import Mathlib.Data.List.TakeDrop
import ScriptTypes.Require

/-!
# Paths in normal form

Normalizing walks the texts between the slashes of a path and keeps a list of those that still
count. Seen on these texts a step is simple: an empty text or a dot changes nothing, a name is
appended, and two dots take the last text away or, where there is none, stand first. The list that
is kept is therefore always *tight*: names, with two dots at most in front.

An absolute path stays as it is exactly if the texts after its root are tight. Every file that a
module id can refer to from an absolute directory is at such a path, since ids are normalized before
extensions are appended.
-/

namespace ScriptTypes

namespace Path

/-! ### Texts between slashes -/

/-- The text is a name: neither empty nor made of one or two dots. -/
def IsName (text : List Char) : Prop := part? text = some (.name text)

instance (text : List Char) : Decidable (IsName text) :=
  inferInstanceAs (Decidable (_ = _))

theorem isName_iff {text : List Char} :
    IsName text ↔ text ≠ [] ∧ text ≠ ['.'] ∧ text ≠ ['.', '.'] := by
  unfold IsName
  fun_cases part? text <;> simp_all

/-- A text stands for nothing, for the directory above, or for itself. -/
theorem part?_cases (text : List Char) :
    (part? text = none) ∨ (text = ['.', '.'] ∧ part? text = some .up) ∨ IsName text := by
  unfold IsName
  fun_cases part? text <;> simp_all

/-- What a text stands for is written like the text. -/
theorem text_of_part? {text : List Char} {p : Part} (h : part? text = some p) : p.text = text := by
  fun_cases part? text <;> simp_all [part?] <;> simp [← h, Part.text]

/-- Names, where two dots may stand in front. -/
def Tight : List (List Char) → Prop
  | [] => True
  | t :: ts => (IsName t ∨ t = ['.', '.']) ∧ ∀ u ∈ ts, IsName u

instance : (ts : List (List Char)) → Decidable (Tight ts)
  | [] => isTrue trivial
  | _ :: _ => inferInstanceAs (Decidable (_ ∧ _))

theorem tight_append_iff {ts us : List (List Char)} (h : ts ≠ []) :
    Tight (ts ++ us) ↔ Tight ts ∧ ∀ u ∈ us, IsName u := by
  cases ts with
  | nil => exact absurd rfl h
  | cons t ts => simp only [List.cons_append, Tight, List.forall_mem_append, and_assoc]

theorem tight_of_isName {ts : List (List Char)} (h : ∀ t ∈ ts, IsName t) : Tight ts := by
  cases ts with
  | nil => trivial
  | cons t ts => exact ⟨.inl (h t List.mem_cons_self), fun u hu => h u (List.mem_cons_of_mem _ hu)⟩

theorem Tight.isSome_part? {ts : List (List Char)} (h : Tight ts) :
    ∀ t ∈ ts, ∃ p, part? t = some p := by
  cases ts with
  | nil => simp
  | cons t ts =>
    intro u hu
    rcases List.mem_cons.1 hu with rfl | hu
    · rcases h.1 with hname | rfl
      · exact ⟨_, hname⟩
      · exact ⟨_, rfl⟩
    · exact ⟨_, h.2 u hu⟩

/-- Take a text into those that count so far. -/
def reduce (ts : List (List Char)) (t : List Char) : List (List Char) :=
  match part? t with
  | none => ts
  | some .up => if ts = [] then [t] else ts.dropLast
  | some _ => ts ++ [t]

/-- The texts that count in the end. -/
def reduced (ts : List (List Char)) : List (List Char) := ts.foldl reduce []

theorem tight_reduce {ts : List (List Char)} (h : Tight ts) (t : List Char) :
    Tight (reduce ts t) := by
  unfold reduce
  rcases part?_cases t with hnone | ⟨rfl, hup⟩ | hname
  · rw [hnone]
    exact h
  · rw [hup]
    by_cases hts : ts = []
    · simp [hts, Tight]
    · rw [if_neg hts]
      by_cases hlast : ts.dropLast = []
      · rw [hlast]
        trivial
      · rw [← List.dropLast_append_getLast hts] at h
        exact ((tight_append_iff hlast).1 h).1
  · rw [show part? t = _ from hname]
    by_cases hts : ts = []
    · simp [hts, Tight, hname]
    · exact (tight_append_iff hts).2 ⟨h, by simpa using hname⟩

theorem tight_reduced (ts : List (List Char)) : Tight (reduced ts) :=
  List.foldlRecOn ts reduce (motive := Tight) trivial fun _ h t _ => tight_reduce h t

theorem mem_reduce {ts : List (List Char)} {t u : List Char} (h : u ∈ reduce ts t) :
    u ∈ ts ∨ u = t := by
  unfold reduce at h
  split at h
  · exact .inl h
  · split at h
    · exact .inr (List.mem_singleton.1 h)
    · exact .inl (List.dropLast_subset _ h)
  · simpa using h

theorem mem_of_mem_reduced {ts : List (List Char)} {u : List Char} (h : u ∈ reduced ts) :
    u ∈ ts := by
  refine List.foldlRecOn ts reduce (motive := fun us => u ∈ us → u ∈ ts) (by simp) ?_ h
  intro us ih t ht hu
  rcases mem_reduce hu with hu | rfl
  · exact ih hu
  · exact ht

/-- Tight texts all count. -/
theorem foldl_reduce_of_tight {ts us : List (List Char)} (h : Tight (ts ++ us)) :
    us.foldl reduce ts = ts ++ us := by
  induction us generalizing ts with
  | nil => simp
  | cons u us ih =>
    have hreduce : reduce ts u = ts ++ [u] := by
      unfold reduce
      by_cases hts : ts = []
      · subst hts
        rcases h.1 with hname | rfl
        · rw [show part? u = _ from hname]
        · rfl
      · rw [show part? u = _ from ((tight_append_iff hts).1 h).2 u List.mem_cons_self]
    have happend : ts ++ u :: us = (ts ++ [u]) ++ us := by simp
    rw [List.foldl_cons, hreduce, happend]
    exact ih (happend ▸ h)

theorem reduced_eq_self {ts : List (List Char)} (h : Tight ts) : reduced ts = ts :=
  foldl_reduce_of_tight (show Tight ([] ++ ts) from h)

/-! ### Normalizing -/

theorem step_up {p : Part} (h : p ≠ .root) (ps : List Part) : step (p :: ps) .up = ps := by
  cases p <;> first | rfl | exact absurd rfl h

theorem part?_ne_root (t : List Char) : part? t ≠ some .root := by
  fun_cases part? t <;> simp

/-- The parts that are kept while normalizing are those of the texts that count so far, on top of
the root if there is one. -/
theorem step_reduce {base : List Part} (hbase : base = [] ∨ base = [.root])
    {ts : List (List Char)} (hts : Tight ts) {t : List Char} {p : Part} (hp : part? t = some p) :
    step ((ts.filterMap part?).reverse ++ base) p
      = ((reduce ts t).filterMap part?).reverse ++ base := by
  rcases part?_cases t with hnone | ⟨rfl, hup⟩ | hname
  · simp [hp] at hnone
  · obtain rfl : p = .up := by simpa [hup] using hp.symm
    by_cases hnil : ts = []
    · subst hnil
      rcases hbase with rfl | rfl <;> rfl
    · -- the last text that counts is the part on top
      obtain ⟨q, hq⟩ := hts.isSome_part? _ (List.getLast_mem hnil)
      have hparts : (ts.filterMap part?).reverse = q :: (ts.dropLast.filterMap part?).reverse := by
        conv_lhs => rw [← List.dropLast_append_getLast hnil]
        simp [hq]
      have hroot : q ≠ .root := fun heq => part?_ne_root _ (heq ▸ hq)
      rw [hparts, List.cons_append, step_up hroot, reduce, hup]
      simp [hnil]
  · obtain rfl : p = .name t := by simpa [show part? t = _ from hname] using hp.symm
    simp [reduce, hp, step]

theorem foldl_step_reduce {base : List Part} (hbase : base = [] ∨ base = [.root])
    {ts : List (List Char)} (hts : Tight ts) (us : List (List Char)) :
    (us.filterMap part?).foldl step ((ts.filterMap part?).reverse ++ base)
      = ((us.foldl reduce ts).filterMap part?).reverse ++ base := by
  induction us generalizing ts with
  | nil => rfl
  | cons u us ih =>
    rw [List.foldl_cons, ← ih (tight_reduce hts u)]
    cases hu : part? u with
    | none => rw [List.filterMap_cons_none hu, reduce, hu]
    | some p => rw [List.filterMap_cons_some hu, List.foldl_cons, step_reduce hbase hts hu]

/-- Tight texts are the texts of their parts. -/
theorem Tight.map_text {ts : List (List Char)} (h : Tight ts) :
    (ts.filterMap part?).map Part.text = ts := by
  have hparts := h.isSome_part?
  clear h
  induction ts with
  | nil => rfl
  | cons t ts ih =>
    obtain ⟨p, hp⟩ := hparts t List.mem_cons_self
    rw [List.filterMap_cons_some hp, List.map_cons, text_of_part? hp,
      ih fun u hu => hparts u (List.mem_cons_of_mem _ hu)]

/-- The characters of a path that is made of tight texts, from the root on. -/
theorem Tight.toList_ofParts_root {ts : List (List Char)} (h : Tight ts) :
    (ofParts (.root :: ts.filterMap part?)).toList = '/' :: ['/'].intercalate ts := by
  cases ts with
  | nil => rfl
  | cons t ts =>
    obtain ⟨q, hq⟩ := h.isSome_part? t List.mem_cons_self
    have htexts := h.map_text
    rw [List.filterMap_cons_some hq] at htexts ⊢
    simp only [ofParts, List.map_cons, String.toList_ofList, Text.joinWith_eq_intercalate,
      Part.text] at htexts ⊢
    rw [htexts]
    simp

/-- The characters of a normalized path: those after the root are the texts that count. -/
theorem toList_normalize {p : Path} {cs : List Char} (h : p.toList = '/' :: cs) :
    (normalize p).toList = '/' :: ['/'].intercalate (reduced (pieces cs)) := by
  have hparts : (parts p).foldl step []
      = ((reduced (pieces cs)).filterMap part?).reverse ++ [.root] := by
    rw [parts, h]
    exact foldl_step_reduce (.inr rfl) (show Tight [] from trivial) (pieces cs)
  rw [normalize, hparts, List.reverse_append, List.reverse_reverse]
  exact (tight_reduced (pieces cs)).toList_ofParts_root

theorem slash_notMem_of_mem_pieces {cs t : List Char} (h : t ∈ pieces cs) : '/' ∉ t := by
  induction cs generalizing t with
  | nil => simp_all [pieces]
  | cons c cs ih =>
    rw [pieces, List.splitOn_cons_eq_if_modifyHead] at h
    split at h
    · rcases List.mem_cons.1 h with rfl | h
      · simp
      · exact ih h
    · rename_i hc
      obtain ⟨u, us, hus⟩ := List.exists_cons_of_ne_nil (List.splitOn_ne_nil '/' cs)
      rw [hus, List.modifyHead_cons] at h
      have hu : ∀ v ∈ u :: us, '/' ∉ v := fun v hv => ih (by rwa [pieces, hus])
      rcases List.mem_cons.1 h with rfl | h
      · have hne : c ≠ '/' := by simpa using hc
        simpa [hne.symm] using hu u List.mem_cons_self
      · exact hu t (List.mem_cons_of_mem _ h)

/-! ### Normal forms -/

/-- The path is absolute, and no text after its root can be left out. -/
def Normal (p : Path) : Prop := ∃ cs, p.toList = '/' :: cs ∧ (cs = [] ∨ Tight (pieces cs))

theorem isAbsolute_iff {p : Path} : p.isAbsolute = true ↔ ∃ cs, p.toList = '/' :: cs := by
  rw [isAbsolute, beq_iff_eq, List.head?_eq_some_iff]

theorem Normal.isAbsolute {p : Path} (h : Normal p) : p.isAbsolute = true :=
  isAbsolute_iff.2 (h.imp fun _ hcs => hcs.1)

theorem normal_normalize {p : Path} (h : p.isAbsolute = true) : Normal (normalize p) := by
  obtain ⟨cs, hcs⟩ := isAbsolute_iff.1 h
  refine ⟨_, toList_normalize hcs, ?_⟩
  by_cases hnil : reduced (pieces cs) = []
  · exact .inl (by rw [hnil]; rfl)
  · have hslash : ∀ t ∈ reduced (pieces cs), '/' ∉ t := fun t ht =>
      slash_notMem_of_mem_pieces (mem_of_mem_reduced ht)
    have hpieces := List.splitOn_intercalate '/' hslash hnil
    exact .inr (by rw [pieces, hpieces]; exact tight_reduced _)

theorem normalize_eq_self {p : Path} (h : Normal p) : normalize p = p := by
  obtain ⟨cs, hcs, hnormal⟩ := h
  apply String.toList_inj.1
  rw [toList_normalize hcs, hcs]
  rcases hnormal with rfl | htight
  · rfl
  · rw [reduced_eq_self htight, pieces, List.intercalate_splitOn]

theorem normalize_eq_self_iff {p : Path} (h : p.isAbsolute = true) : normalize p = p ↔ Normal p :=
  ⟨fun heq => heq ▸ normal_normalize h, normalize_eq_self⟩

theorem pieces_append_cons (cs ds : List Char) :
    pieces (cs ++ '/' :: ds) = pieces cs ++ pieces ds :=
  List.splitOn_append_cons_self cs ds

theorem pieces_slash_cons (cs : List Char) : pieces ('/' :: cs) = [] :: pieces cs :=
  pieces_append_cons [] cs

theorem pieces_ne_nil (cs : List Char) : pieces cs ≠ [] := List.splitOn_ne_nil '/' cs

/-- A path in normal form has no slash at its end but the root. -/
theorem Normal.getLast?_ne {p : Path} (h : Normal p) {cs : List Char} (hcs : p.toList = '/' :: cs) :
    cs.getLast? ≠ some '/' := by
  obtain ⟨ds, hds, hnormal⟩ := h
  obtain rfl : ds = cs := by simpa [hds] using hcs
  intro hlast
  rcases hnormal with rfl | htight
  · simp at hlast
  · obtain ⟨es, rfl⟩ := List.getLast?_eq_some_iff.1 hlast
    rw [pieces_append_cons, tight_append_iff (pieces_ne_nil es)] at htight
    exact absurd (htight.2 [] (by simp [pieces])) (by decide)

/-! ### Parents -/

theorem getLast?_trimEnd (cs : List Char) : (trimEnd cs).getLast? = cs.getLast? := by
  fun_induction trimEnd cs <;> simp_all [List.getLast?_cons_cons]

/-- The parent of an absolute path is absolute and has no slash at its end but the root. -/
theorem toList_of_parent? {p q : Path} (hp : p.isAbsolute = true) (h : parent? p = some q) :
    ∃ ds, q.toList = '/' :: ds ∧ ds.getLast? ≠ some '/' := by
  obtain ⟨cs, hcs⟩ := isAbsolute_iff.1 hp
  -- back to front, the root comes last, and neither trimming nor dropping a name takes it away
  have hlast : (trimEnd p.toList.reverse).getLast? = some '/' := by
    rw [getLast?_trimEnd, hcs]
    simp
  have hdrop : ((trimEnd p.toList.reverse).dropWhile (· != '/')).getLast? = some '/' := by
    obtain ⟨es, hes⟩ := List.getLast?_eq_some_iff.1 hlast
    rw [hes, List.dropWhile_append]
    split <;> simp
  obtain ⟨es, hes⟩ := List.getLast?_eq_some_iff.1 ((getLast?_trimEnd _).trans hdrop)
  refine ⟨es.reverse, ?_, ?_⟩
  · unfold parent? at h
    split at h
    · simp at h
    · simp at h
    · obtain rfl := Option.some.inj h
      rw [String.toList_ofList, hes]
      simp
  · intro hslash
    obtain ⟨fs, hfs⟩ := List.head?_eq_some_iff.1 (List.getLast?_reverse ▸ hslash)
    rw [hfs, List.cons_append] at hes
    simpa using eq_nil_of_trimEnd_eq_slash hes

theorem isAbsolute_of_parent? {p q : Path} (hp : p.isAbsolute = true) (h : parent? p = some q) :
    q.isAbsolute = true :=
  isAbsolute_iff.2 ((toList_of_parent? hp h).imp fun _ hds => hds.1)

theorem isAbsolute_of_mem_ancestors {p q : Path} (hp : p.isAbsolute = true)
    (h : q ∈ ancestors p) : q.isAbsolute = true := by
  fun_induction ancestors p with
  | case1 p parent hparent ih =>
    rcases List.mem_cons.1 h with rfl | h
    · exact hp
    · exact ih (isAbsolute_of_parent? hp hparent) h
  | case2 p =>
    rw [List.mem_singleton.1 h]
    exact hp

/-! ### Joining -/

theorem join_of_isAbsolute {p : Path} (h : p.isAbsolute = true) (dir : Path) : join dir p = p := by
  rw [join, h]
  rfl

theorem isAbsolute_join {dir : Path} (h : dir.isAbsolute = true) (p : Path) :
    (join dir p).isAbsolute = true := by
  obtain ⟨ds, hds⟩ := isAbsolute_iff.1 h
  unfold join
  split
  · rename_i hor
    have hne : dir.isEmpty = false := by
      simp [← String.toList_eq_nil_iff, hds]
    simpa [hne] using hor
  · split <;> simp [isAbsolute_iff, hds]

/-- The characters of a relative path as seen from a directory. -/
theorem toList_join {dir p : Path} {ds : List Char} (hdir : dir.toList = '/' :: ds)
    (hlast : ds.getLast? ≠ some '/') (hp : p.isAbsolute = false) :
    (join dir p).toList = '/' :: if ds = [] then p.toList else ds ++ '/' :: p.toList := by
  have hempty : dir.isEmpty = false := by simp [← String.toList_eq_nil_iff, hdir]
  have hends : dir.endsWith "/" = decide (ds = []) := by
    rw [Bool.eq_iff_iff, ← String.endsWith_toSlice, String.Slice.endsWith_string_iff,
      decide_eq_true_iff, String.copy_toSlice, hdir]
    constructor
    · rintro ⟨es, hes⟩
      cases es with
      | nil => simpa using hes.symm
      | cons e es =>
        obtain ⟨-, rfl⟩ := List.cons_eq_cons.1 hes
        simp at hlast
    · rintro rfl
      exact List.suffix_rfl
  rw [join, hp, hempty, hends]
  by_cases hnil : ds = []
  · simp [hnil, hdir]
  · simp [hnil, hdir]

/-- All texts between the slashes of a relative path are names. -/
def Plain (p : Path) : Prop := ∀ t ∈ pieces p.toList, IsName t

instance (p : Path) : Decidable p.Plain := inferInstanceAs (Decidable (∀ t ∈ _, IsName t))

theorem normal_join_root_iff {p : Path} (hp : p.isAbsolute = false) :
    Normal (join "/" p) ↔ p.toList = [] ∨ Tight (pieces p.toList) := by
  have hroot : ("/" : Path).toList = '/' :: [] := rfl
  have hjoin := toList_join hroot (by decide) hp
  simp [Normal, hjoin]

/-- A relative path as seen from a directory below the root is in normal form if the directory is
and the path is plain, and only then. -/
theorem normal_join_iff {dir p : Path} {ds : List Char} (hdir : dir.toList = '/' :: ds)
    (hnil : ds ≠ []) (hlast : ds.getLast? ≠ some '/') (hp : p.isAbsolute = false) :
    Normal (join dir p) ↔ Normal dir ∧ p.Plain := by
  have hjoin := toList_join hdir hlast hp
  rw [if_neg hnil] at hjoin
  simp [Normal, Plain, hjoin, hdir, hnil, pieces_append_cons, tight_append_iff (pieces_ne_nil ds)]

/-! ### Files of modules -/

/-- What is appended without a slash prolongs the last text. -/
theorem pieces_append {ext : List Char} (h : '/' ∉ ext) (cs : List Char) :
    ∃ init last, pieces cs = init ++ [last] ∧ pieces (cs ++ ext) = init ++ [last ++ ext] := by
  induction cs with
  | nil => exact ⟨[], [], rfl, List.splitOn_eq_singleton h⟩
  | cons c cs ih =>
    obtain ⟨init, last, hcs, happend⟩ := ih
    simp only [pieces] at hcs happend
    simp only [pieces, List.cons_append, List.splitOn_cons_eq_if_modifyHead, hcs, happend]
    split
    · exact ⟨[] :: init, last, rfl, rfl⟩
    · cases init with
      | nil => exact ⟨[], c :: last, rfl, rfl⟩
      | cons i init => exact ⟨(c :: i) :: init, last, rfl, rfl⟩

/-- A path with an extension is in normal form if it is without. -/
theorem Normal.append {p ext : String} (h : Normal p) (hslash : '/' ∉ ext.toList)
    (hlength : 3 ≤ ext.toList.length) : Normal (p ++ ext) := by
  obtain ⟨cs, hcs, hnormal⟩ := h
  have hname : ∀ t, IsName (t ++ ext.toList) := by
    intro t
    have hlt : 3 ≤ (t ++ ext.toList).length := by rw [List.length_append]; omega
    refine isName_iff.2 ⟨?_, ?_, ?_⟩ <;> intro heq <;> simp [heq] at hlt
  refine ⟨cs ++ ext.toList, by simp [hcs], .inr ?_⟩
  obtain ⟨init, last, hpieces, happend⟩ := pieces_append hslash cs
  rw [happend]
  by_cases hinit : init = []
  · rw [hinit]
    exact ⟨.inl (hname _), by simp⟩
  · refine (tight_append_iff hinit).2 ⟨?_, by simpa using hname last⟩
    rcases hnormal with rfl | htight
    · exact absurd (List.append_eq_singleton_iff.1 hpieces.symm) (by simp [hinit])
    · rw [hpieces] at htight
      exact ((tight_append_iff hinit).1 htight).1

theorem Normal.join {p q : Path} (h : Normal p) (hq : q.isAbsolute = false) (hplain : q.Plain) :
    Normal (Path.join p q) := by
  obtain ⟨cs, hcs, -⟩ := id h
  have hlast := h.getLast?_ne hcs
  by_cases hnil : cs = []
  · obtain rfl : p = "/" := String.toList_inj.1 (by rw [hcs, hnil]; rfl)
    exact (normal_join_root_iff hq).2 (.inr (tight_of_isName hplain))
  · exact (normal_join_iff hcs hnil hlast hq).2 ⟨h, hplain⟩

end Path

namespace Require

open ScriptTypes.Path (Normal)

theorem normal_of_mem_moduleFiles {p q : Path} (h : Normal p) (hq : q ∈ moduleFiles p) :
    Normal q := by
  simp only [moduleFiles, List.mem_cons, List.not_mem_nil, or_false] at hq
  rcases hq with rfl | rfl | rfl | rfl
  · exact h
  · exact h.append (by decide) (by decide)
  · exact h.append (by decide) (by decide)
  · exact h.join (by decide) (by decide)

theorem isAbsolute_of_mem_searchDirs {dir d : Path} {root : Option Path}
    (hdir : dir.isAbsolute = true) (h : d ∈ searchDirs dir root) : d.isAbsolute = true := by
  apply Path.isAbsolute_of_mem_ancestors (Path.normal_normalize hdir).isAbsolute
  unfold searchDirs at h
  split at h
  · simp only [List.span_eq_takeWhile_dropWhile, List.mem_append] at h
    rcases h with h | h
    · exact (List.takeWhile_prefix _).subset h
    · exact (List.dropWhile_suffix _).subset (List.mem_of_mem_take h)
  · exact h

/-- From an absolute directory, all files that a module id may refer to are at paths in normal
form. -/
theorem normal_of_mem_candidates {id : String} {dir q : Path} {root : Option Path}
    (hdir : dir.isAbsolute = true) (h : q ∈ candidates id dir root) : Normal q := by
  unfold candidates at h
  split at h
  · exact normal_of_mem_moduleFiles (Path.normal_normalize (Path.isAbsolute_join hdir id)) h
  · obtain ⟨d, hd, hq⟩ := List.mem_flatMap.1 h
    have habsolute := isAbsolute_of_mem_searchDirs hdir hd
    refine normal_of_mem_moduleFiles (Path.normal_normalize ?_) hq
    exact Path.isAbsolute_join (Path.isAbsolute_join habsolute _) id

theorem of_resolve_eq_ok {isFile : Path → Bool} {id : String} {dir q : Path} {root : Option Path}
    (h : resolve isFile id dir root = .ok q) : q ∈ candidates id dir root ∧ isFile q = true := by
  unfold resolve at h
  split at h
  · cases h
  · split at h
    · rename_i file hfile
      obtain rfl := Except.ok.inj h
      exact ⟨List.mem_of_find?_eq_some hfile, List.find?_some hfile⟩
    · cases h

/-- A file at a path in normal form is the one that the path itself refers to, wherever it is
required. -/
theorem resolve_of_normal {isFile : Path → Bool} {p : Path} (h : Normal p) (hfile : isFile p = true)
    (dir : Path) (root : Option Path) : resolve isFile p dir root = .ok p := by
  obtain ⟨cs, hcs, -⟩ := id h
  have hempty : p.isEmpty = false := by simp [← String.toList_eq_nil_iff, hcs]
  have hid : isPathId p = true := by simp [isPathId, String.startsWith_string_iff, hcs]
  have hcandidates : candidates p dir root = moduleFiles p := by
    rw [candidates, if_pos hid, Path.join_of_isAbsolute h.isAbsolute, Path.normalize_eq_self h]
  rw [resolve, hempty, hcandidates, moduleFiles, List.find?_cons_of_pos hfile]
  rfl

end Require

end ScriptTypes
