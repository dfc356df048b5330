import ScriptTypes.Files.Tree
import ScriptTypes.Proofs.Path.Normal

/-!
# Where paths lead

A path leads so many directories up and from there down by names. Such a `Route` is found by walking
the texts between the slashes: two dots take the last name away, and where there is none they climb.
Routes are followed one after the other, and a path as seen from a directory is the route of the
directory followed by that of the path. In every tree of files the names of a route are those of the
place that the path leads to.

Normalizing keeps the names of a route, but of its climbs only whether they are odd: two dots after
two dots take each other away. So the normal form of a path leads to the same place as the path from
the root, where climbing changes nothing, and from a directory exactly if the path climbs once at
most, or if the directory is not deep enough for the climbs to differ.

Main statement: `normalizing_drops_climbs_in_pairs`.
-/

namespace ScriptTypes

namespace Path

/-- Directories to climb, and the names to go down by from there. -/
structure Route where
  up : Nat
  names : List (List Char)
  deriving DecidableEq, Repr

namespace Route

/-- The route that stays where it is. -/
def stay : Route := ⟨0, []⟩

/-- Go on by a text between slashes. -/
def walk (r : Route) (t : List Char) : Route :=
  match part? t with
  | none => r
  | some .up =>
    if r.names = [] then { r with up := r.up + 1 } else { r with names := r.names.dropLast }
  | some _ => { r with names := r.names ++ [t] }

/-- One route and then another. -/
def andThen (r s : Route) : Route where
  up := r.up + (s.up - r.names.length)
  names := r.names.take (r.names.length - s.up) ++ s.names

/-- What normalizing keeps of a route. -/
def kept (r : Route) : Route := ⟨r.up % 2, r.names⟩

/-- The texts of the parts of a route. -/
def texts (r : Route) : List (List Char) := List.replicate r.up ['.', '.'] ++ r.names

variable {r s : Route} {t : List Char}

theorem walk_of_none (h : part? t = none) : r.walk t = r := by rw [walk, h]

theorem walk_of_isName (h : IsName t) : r.walk t = ⟨r.up, r.names ++ [t]⟩ := by
  rw [walk, show part? t = _ from h]

theorem walk_up : r.walk ['.', '.']
    = if r.names = [] then ⟨r.up + 1, r.names⟩ else ⟨r.up, r.names.dropLast⟩ := rfl

theorem andThen_of_up_eq_zero (h : s.up = 0) : r.andThen s = ⟨r.up, r.names ++ s.names⟩ := by
  simp [andThen, h]

theorem andThen_stay (r : Route) : r.andThen stay = r := by simp [andThen, stay]

theorem andThen_walk (r s : Route) (t : List Char) :
    (r.andThen s).walk t = r.andThen (s.walk t) := by
  rcases part?_cases t with hnone | ⟨rfl, -⟩ | hname
  · rw [walk_of_none hnone, walk_of_none hnone]
  · rw [walk_up, walk_up]
    by_cases hs : s.names = []
    · -- the second route is all climbs, which the names of the first are there for
      rw [if_pos hs]
      by_cases hle : r.names.length ≤ s.up
      · have htake : r.names.length - s.up = 0 ∧ r.names.length - (s.up + 1) = 0 := by omega
        have hup : r.up + (s.up - r.names.length) + 1 = r.up + (s.up + 1 - r.names.length) := by
          omega
        simp [andThen, hs, htake, hup]
      · have htake : r.names.length - (s.up + 1) = r.names.length - s.up - 1 := by omega
        have hup : s.up - r.names.length = 0 ∧ s.up + 1 - r.names.length = 0 := by omega
        have hne : r.names.take (r.names.length - s.up) ≠ [] := by
          rw [Ne, List.take_eq_nil_iff, not_or]
          refine ⟨by omega, ?_⟩
          intro hnil
          simp [hnil] at hle
        have hlast : (r.names.take (r.names.length - s.up)).dropLast
            = r.names.take (r.names.length - s.up - 1) := by
          rw [List.dropLast_eq_take, List.take_take, List.length_take]
          congr 1
          omega
        simp [andThen, hs, hne, hup, htake, hlast]
    · simp [andThen, hs, List.dropLast_append_of_ne_nil hs]
  · rw [walk_of_isName hname, walk_of_isName hname]
    simp [andThen]

/-- To walk on from a route is to follow it and then the route walked. -/
theorem foldl_walk (r : Route) (ts : List (List Char)) :
    ts.foldl walk r = r.andThen (ts.foldl walk stay) := by
  conv_lhs => rw [← andThen_stay r]
  exact List.foldl_hom r.andThen (andThen_walk r)

theorem foldl_walk_of_isName {ts : List (List Char)} (h : ∀ t ∈ ts, IsName t) (r : Route) :
    ts.foldl walk r = ⟨r.up, r.names ++ ts⟩ := by
  induction ts generalizing r with
  | nil => simp
  | cons t ts ih =>
    rw [List.foldl_cons, walk_of_isName (h t List.mem_cons_self),
      ih fun u hu => h u (List.mem_cons_of_mem _ hu)]
    simp

theorem foldl_walk_climbs (n : Nat) :
    (List.replicate n ['.', '.']).foldl walk stay = ⟨n, []⟩ := by
  induction n with
  | zero => rfl
  | succ n ih => rw [List.replicate_succ', List.foldl_append, ih]; rfl

/-- The texts of a route lead along it. -/
theorem foldl_walk_texts (h : ∀ t ∈ r.names, IsName t) : r.texts.foldl walk stay = r := by
  rw [texts, List.foldl_append, foldl_walk_climbs, foldl_walk_of_isName h]
  simp

theorem isName_walk (h : ∀ u ∈ r.names, IsName u) : ∀ u ∈ (r.walk t).names, IsName u := by
  rcases part?_cases t with hnone | ⟨rfl, -⟩ | hname
  · rwa [walk_of_none hnone]
  · rw [walk_up]
    split
    · exact h
    · exact fun u hu => h u (List.dropLast_subset _ hu)
  · rw [walk_of_isName hname]
    simpa [or_imp, forall_and] using ⟨h, hname⟩

/-! ### What normalizing keeps -/

theorem kept_inj : r.kept = s.kept ↔ r.up % 2 = s.up % 2 ∧ r.names = s.names := by
  simp [kept]

/-- Dropped climbs show in the names if there are names that they would have taken away. -/
theorem names_andThen_kept_iff (r s : Route) :
    (r.andThen s.kept).names = (r.andThen s).names ↔ s.up ≤ 1 ∨ r.names.length ≤ s.up % 2 := by
  simp only [andThen, kept, List.append_left_inj, List.take_eq_take_iff]
  omega

theorem kept_andThen_kept_iff (r s : Route) :
    (r.andThen s.kept).kept = (r.andThen s).kept ↔ s.up ≤ 1 ∨ r.names.length ≤ s.up % 2 := by
  rw [kept_inj, names_andThen_kept_iff, and_iff_right_iff_imp]
  simp only [andThen, kept]
  omega

theorem kept_andThen (r s : Route) : (r.kept.andThen s).kept = (r.andThen s).kept := by
  rw [kept_inj]
  simp [andThen, kept]

/-- A text is taken into the texts that count as the route walks on by it. -/
theorem reduce_texts_kept (r : Route) (t : List Char) :
    reduce r.kept.texts t = (r.walk t).kept.texts := by
  rcases part?_cases t with hnone | ⟨rfl, hup⟩ | hname
  · rw [walk_of_none hnone, reduce, hnone]
  · rw [walk_up, reduce, hup]
    by_cases hnames : r.names = []
    · rcases Nat.mod_two_eq_zero_or_one r.up with hmod | hmod
      · have hsucc : (r.up + 1) % 2 = 1 := by omega
        simp [texts, kept, hnames, hmod, hsucc]
      · have hsucc : (r.up + 1) % 2 = 0 := by omega
        simp [texts, kept, hnames, hmod, hsucc]
    · simp [texts, kept, hnames, List.dropLast_append_of_ne_nil hnames]
  · rw [walk_of_isName hname, reduce, show part? t = _ from hname]
    simp [texts, kept]

theorem reduced_eq (ts : List (List Char)) :
    reduced ts = (ts.foldl walk stay).kept.texts := by
  have hstay : stay.kept.texts = [] := rfl
  rw [reduced, ← hstay]
  exact List.foldl_hom (fun r : Route => r.kept.texts) reduce_texts_kept

theorem filterMap_part?_texts (h : ∀ t ∈ r.names, IsName t) :
    r.texts.filterMap part? = List.replicate r.up .up ++ r.names.map .name := by
  have hnames : r.names.filterMap part? = r.names.map .name := by
    rw [← List.filterMap_eq_map]
    exact List.filterMap_congr fun t ht => h t ht
  have hclimbs : (List.replicate r.up ['.', '.']).filterMap part? = List.replicate r.up .up :=
    List.filterMap_replicate_of_some rfl
  rw [texts, List.filterMap_append, hnames, hclimbs]

end Route

/-! ### Routes of paths -/

/-- Where a path leads from the root, or from wherever a relative path starts. -/
def route (p : Path) : Route := (pieces p.toList).foldl Route.walk .stay

variable {p d : Path}

theorem isName_of_mem_route (p : Path) : ∀ t ∈ (route p).names, IsName t :=
  List.foldlRecOn (pieces p.toList) Route.walk (motive := fun r => ∀ t ∈ r.names, IsName t)
    (by simp [Route.stay]) fun _ h _ _ => Route.isName_walk h

theorem route_of_root {cs : List Char} (h : p.toList = '/' :: cs) :
    route p = (pieces cs).foldl Route.walk .stay := by
  rw [route, h, pieces_slash_cons]
  rfl

theorem parts_of_root {cs : List Char} (h : p.toList = '/' :: cs) :
    parts p = .root :: (pieces cs).filterMap part? := by
  simp only [parts, h]

theorem parts_of_relative (h : p.isAbsolute = false) :
    parts p = (if (pieces p.toList).head? = some ['.'] then [.here] else []) ++
      (pieces p.toList).filterMap part? := by
  unfold parts
  split
  · rename_i cs hcs
    simp [isAbsolute_iff.2 ⟨cs, hcs⟩] at h
  · split <;> rfl

/-- The texts that normalizing keeps of a path. -/
theorem reduced_pieces (p : Path) : reduced (pieces p.toList) = (route p).kept.texts :=
  Route.reduced_eq _

theorem Tight.toList_ofParts {ts : List (List Char)} (h : Tight ts) :
    (ofParts (ts.filterMap part?)).toList = ['/'].intercalate ts := by
  have hroot : ts.filterMap part? ≠ [.root] := by
    intro heq
    obtain ⟨t, -, ht⟩ := List.mem_filterMap.1 (heq ▸ List.mem_singleton_self Part.root)
    exact part?_ne_root t ht
  have hofParts : ofParts (ts.filterMap part?)
      = String.ofList (Text.joinWith ['/'] ((ts.filterMap part?).map Part.text)) := by
    unfold ofParts
    split
    · contradiction
    · rfl
  rw [hofParts, String.toList_ofList, Text.joinWith_eq_intercalate, h.map_text]

/-- The characters of a normalized path: the root if there is one, and then the texts that are
kept. -/
theorem toList_normalize_eq (p : Path) :
    (normalize p).toList = if p.isAbsolute then '/' :: ['/'].intercalate (route p).kept.texts
      else ['/'].intercalate (route p).kept.texts := by
  cases hp : p.isAbsolute with
  | true =>
    obtain ⟨cs, hcs⟩ := isAbsolute_iff.1 hp
    rw [toList_normalize hcs, route_of_root hcs, Route.reduced_eq]
    rfl
  | false =>
    -- a dot in front of all else does not count
    have hparts : (parts p).foldl step []
        = ((reduced (pieces p.toList)).filterMap part?).reverse ++ [] := by
      refine Eq.trans ?_ (foldl_step_reduce (.inl rfl) (show Tight [] from trivial) _)
      rw [parts_of_relative hp]
      split <;> rfl
    rw [normalize, hparts, List.append_nil, List.reverse_reverse,
      (tight_reduced _).toList_ofParts, Route.reduced_eq]
    rfl

theorem slash_notMem_of_mem_texts (p : Path) : ∀ t ∈ (route p).kept.texts, '/' ∉ t := by
  intro t ht
  rw [← reduced_pieces] at ht
  exact slash_notMem_of_mem_pieces (mem_of_mem_reduced ht)

theorem tight_texts (p : Path) : Tight (route p).kept.texts := by
  rw [← reduced_pieces]
  exact tight_reduced _

/-- Joining texts and cutting them apart again changes nothing but that no text becomes an empty
one. -/
theorem pieces_intercalate {ts : List (List Char)} (h : ∀ t ∈ ts, '/' ∉ t) :
    pieces (['/'].intercalate ts) = if ts = [] then [[]] else ts := by
  split
  · rename_i hnil
    rw [hnil]
    rfl
  · rename_i hnil
    exact List.splitOn_intercalate '/' h hnil

/-- Tight texts that are joined do not start with a slash. -/
theorem Tight.head?_intercalate {ts : List (List Char)} (h : Tight ts) (hslash : ∀ t ∈ ts, '/' ∉ t) :
    (['/'].intercalate ts).head? ≠ some '/' := by
  cases ts with
  | nil => simp
  | cons t ts =>
    have ht : t ≠ [] := by
      obtain ⟨q, hq⟩ := h.isSome_part? t List.mem_cons_self
      rintro rfl
      cases hq
    obtain ⟨c, cs, rfl⟩ := List.exists_cons_of_ne_nil ht
    have hc := hslash _ List.mem_cons_self
    have hhead : (['/'].intercalate ((c :: cs) :: ts)).head? = some c := by
      cases ts <;> simp [List.intercalate]
    rw [hhead]
    rintro ⟨⟩
    simp at hc

theorem isAbsolute_normalize (p : Path) : (normalize p).isAbsolute = p.isAbsolute := by
  rw [isAbsolute, toList_normalize_eq]
  cases p.isAbsolute with
  | true => rfl
  | false => simpa using (tight_texts p).head?_intercalate (slash_notMem_of_mem_texts p)

/-- What does not tell an empty text from none does not change with joining and cutting apart. -/
theorem apply_pieces_intercalate {α : Type} {f : List (List Char) → α} (hf : f [[]] = f [])
    {ts : List (List Char)} (h : ∀ t ∈ ts, '/' ∉ t) : f (pieces (['/'].intercalate ts)) = f ts := by
  rw [pieces_intercalate h]
  split
  · rename_i hnil
    rw [hnil, hf]
  · rfl

theorem filterMap_part?_pieces {ts : List (List Char)} (h : ∀ t ∈ ts, '/' ∉ t) :
    (pieces (['/'].intercalate ts)).filterMap part? = ts.filterMap part? :=
  apply_pieces_intercalate (f := List.filterMap part?) rfl h

theorem foldl_walk_pieces {ts : List (List Char)} (h : ∀ t ∈ ts, '/' ∉ t) :
    (pieces (['/'].intercalate ts)).foldl Route.walk .stay = ts.foldl Route.walk .stay :=
  apply_pieces_intercalate (f := List.foldl Route.walk .stay) rfl h

/-- The normal form leads along what is kept of the route. -/
theorem route_normalize (p : Path) : route (normalize p) = (route p).kept := by
  have htexts : (pieces (['/'].intercalate (route p).kept.texts)).foldl Route.walk .stay
      = (route p).kept := by
    rw [foldl_walk_pieces (slash_notMem_of_mem_texts p)]
    exact Route.foldl_walk_texts (isName_of_mem_route p)
  have hlist := toList_normalize_eq p
  split at hlist
  · rw [route_of_root hlist, htexts]
  · rw [route, hlist, htexts]

theorem parts_normalize (p : Path) :
    parts (normalize p) = (if p.isAbsolute then [.root] else []) ++
      List.replicate ((route p).up % 2) .up ++ (route p).names.map .name := by
  have htexts : (pieces (['/'].intercalate (route p).kept.texts)).filterMap part?
      = List.replicate ((route p).up % 2) .up ++ (route p).names.map .name := by
    rw [filterMap_part?_pieces (slash_notMem_of_mem_texts p)]
    exact Route.filterMap_part?_texts (isName_of_mem_route p)
  have hlist := toList_normalize_eq p
  have habsolute := isAbsolute_normalize p
  cases hp : p.isAbsolute with
  | true =>
    rw [hp, if_pos rfl] at hlist
    rw [parts_of_root hlist, htexts]
    rfl
  | false =>
    rw [hp, if_neg Bool.false_ne_true] at hlist
    rw [hp] at habsolute
    have hhead : (pieces (['/'].intercalate (route p).kept.texts)).head? ≠ some ['.'] := by
      rw [pieces_intercalate (slash_notMem_of_mem_texts p)]
      split
      · simp
      · intro hhead
        obtain ⟨ts, hts⟩ := List.head?_eq_some_iff.1 hhead
        have htight := tight_texts p
        rw [hts] at htight
        obtain ⟨q, hq⟩ := htight.isSome_part? _ List.mem_cons_self
        cases hq
    rw [parts_of_relative habsolute, hlist, if_neg hhead, htexts]
    rfl

/-- Paths have one normal form if they lead down by the same names, after climbs that are odd or even
in both. -/
theorem normalize_eq_iff {q : Path} (habsolute : p.isAbsolute = q.isAbsolute) :
    normalize p = normalize q ↔ (route p).kept = (route q).kept := by
  constructor
  · intro h
    rw [← route_normalize, h, route_normalize]
  · intro h
    apply String.toList_inj.1
    rw [toList_normalize_eq, toList_normalize_eq, habsolute, h]

/-! ### Joining -/

theorem toList_of_endsWith_slash (h : d.endsWith "/" = true) : ∃ cs, d.toList = cs ++ ['/'] := by
  rw [← String.endsWith_toSlice, String.Slice.endsWith_string_iff, String.copy_toSlice] at h
  exact h.imp fun cs hcs => hcs.symm

theorem isAbsolute_join_of_relative (hp : p.isAbsolute = false) :
    (join d p).isAbsolute = d.isAbsolute := by
  unfold join
  cases hd : d.isEmpty with
  | true =>
    obtain rfl : d = "" := String.isEmpty_iff.1 hd
    rw [hp, Bool.or_true, if_pos rfl]
    exact hp
  | false =>
    have hne : d.toList ≠ [] := by
      rintro hnil
      rw [String.toList_eq_nil_iff.1 hnil] at hd
      cases hd
    obtain ⟨c, cs, hcs⟩ := List.exists_cons_of_ne_nil hne
    rw [hp]
    simp only [Bool.or_self, Bool.false_eq_true, if_false]
    split <;> simp [isAbsolute, hcs]

/-- A path as seen from a directory leads along the route of the directory and then along its
own. -/
theorem route_join (hp : p.isAbsolute = false) :
    route (join d p) = (route d).andThen (route p) := by
  have hcut (cs : List Char) : (pieces (cs ++ '/' :: p.toList)).foldl Route.walk .stay
      = ((pieces cs).foldl Route.walk .stay).andThen (route p) := by
    rw [pieces_append_cons, List.foldl_append, Route.foldl_walk]
    rfl
  unfold join
  cases hd : d.isEmpty with
  | true =>
    obtain rfl : d = "" := String.isEmpty_iff.1 hd
    simp [hp, Route.andThen, route, pieces, Route.stay, Route.walk, part?]
  | false =>
    rw [hp]
    simp only [Bool.or_self, Bool.false_eq_true, if_false]
    split
    · rename_i hslash
      obtain ⟨cs, hcs⟩ := toList_of_endsWith_slash hslash
      have hpieces : pieces (cs ++ ['/']) = pieces cs ++ [[]] := pieces_append_cons cs []
      have hroute : route d = (pieces cs).foldl Route.walk .stay := by
        rw [route, hcs, hpieces, List.foldl_append]
        rfl
      rw [hroute, ← hcut, route, String.toList_append, hcs]
      simp
    · rw [route, String.toList_append, String.toList_append, show "/".toList = ['/'] from rfl]
      simpa [route] using hcut d.toList

/-! ### Places -/

/-- In a tree of files, walking from a place leads to the names of the route walked. -/
theorem names_foldl_walk {t : FileTree} {place q : Place} {ts : List (List Char)}
    (h : t.walk place ts = .ok q) (k : Nat) : (ts.foldl Route.walk ⟨k, place⟩).names = q := by
  induction ts generalizing place k with
  | nil => exact Except.ok.inj h
  | cons piece ts ih =>
    rw [List.foldl_cons]
    unfold FileTree.walk at h
    split at h
    · cases h
    · cases h
    · rcases part?_cases piece with hnone | ⟨rfl, hup⟩ | hname
      · rw [hnone] at h
        rw [Route.walk_of_none hnone]
        exact ih h k
      · rw [Route.walk_up]
        split
        · rename_i hnil
          have hlast : place.dropLast = place := by rw [show place = [] from hnil]; rfl
          exact ih (hlast ▸ h) (k + 1)
        · exact ih h k
      · rw [show part? piece = _ from hname] at h
        dsimp only at h
        split at h
        · rw [Route.walk_of_isName hname]
          exact ih h k
        · cases h

/-- The place that a path leads to, if it leads to any. -/
theorem eq_names_of_locate {t : FileTree} {a : Place} (h : t.locate p = .ok a) :
    a = (Route.andThen ⟨0, if p.isAbsolute then [] else t.workingDirectory⟩ (route p)).names := by
  unfold FileTree.locate at h
  split at h
  · cases h
  · rename_i cs hcs
    rw [isAbsolute_iff.2 ⟨cs, hcs⟩, route_of_root hcs, if_pos rfl, ← Route.foldl_walk]
    exact (names_foldl_walk h 0).symm
  · rename_i hslash
    have hp : p.isAbsolute = false := by
      rw [Bool.eq_false_iff, Ne, isAbsolute_iff]
      rintro ⟨cs, hcs⟩
      exact hslash cs hcs
    rw [hp, if_neg Bool.false_ne_true, route, ← Route.foldl_walk]
    exact (names_foldl_walk h 0).symm

/-- **Normalizing keeps the names that a path leads down by, and drops its climbs in pairs.** The
normal form has no dots, and two dots only once, in front of all names, if the path climbs an odd
number of times. It does not matter whether a directory is normalized before a path is joined to it
or after. Whether the path is normalized before or after matters exactly if it climbs twice or more
out of a directory that is deep enough, and exactly then the normal form of a relative path leads to
another place than the path. -/
theorem normalizing_drops_climbs_in_pairs (p : Path) :
    parts (normalize p) = (if p.isAbsolute then [.root] else []) ++
      List.replicate ((route p).up % 2) .up ++ (route p).names.map .name ∧
    (∀ d, normalize (join (normalize d) p) = normalize (join d p)) ∧
    (p.isAbsolute = false → ∀ d, (normalize (join d (normalize p)) = normalize (join d p) ↔
      (route p).up ≤ 1 ∨ (route d).names.length ≤ (route p).up % 2)) ∧
    ∀ (t : FileTree) (a b : Place), t.locate p = .ok a →
      t.locate (normalize p) = .ok b → (a = b ↔ p.isAbsolute = true ∨ (route p).up ≤ 1 ∨
        t.workingDirectory.length ≤ (route p).up % 2) := by
  refine ⟨parts_normalize p, ?_, ?_, ?_⟩
  · intro d
    cases hp : p.isAbsolute with
    | true => rw [join_of_isAbsolute hp, join_of_isAbsolute hp]
    | false =>
      rw [normalize_eq_iff (by rw [isAbsolute_join_of_relative hp, isAbsolute_join_of_relative hp,
        isAbsolute_normalize]), route_join hp, route_join hp, route_normalize, Route.kept_andThen]
  · intro hp d
    have hnormal : (normalize p).isAbsolute = false := by rw [isAbsolute_normalize, hp]
    rw [normalize_eq_iff (by rw [isAbsolute_join_of_relative hp,
      isAbsolute_join_of_relative hnormal]), route_join hp, route_join hnormal, route_normalize,
      Route.kept_andThen_kept_iff]
  · intro t a b ha hb
    rw [eq_names_of_locate ha, eq_names_of_locate hb, isAbsolute_normalize, route_normalize,
      eq_comm, Route.names_andThen_kept_iff]
    cases p.isAbsolute <;> simp

/-- A path that climbs once, seen from a directory and in a tree of files. -/
theorem one_climb_is_kept :
    let t : FileTree := {
      entries := [(["a".toList, "y".toList], .file .empty), (["a".toList, "b".toList], .directory)]
      workingDirectory := ["a".toList, "b".toList] }
    isAbsolute "../b/../y" = false ∧ route "../b/../y" = ⟨1, ["y".toList]⟩ ∧
    normalize (join "/a/b/c" (normalize "../b/../y")) = normalize (join "/a/b/c" "../b/../y") ∧
    ∃ a b, t.locate "../b/../y" = .ok a ∧ t.locate (normalize "../b/../y") = .ok b ∧ a = b := by
  intro t
  have hroute : route "../b/../y" = ⟨1, ["y".toList]⟩ := by decide +kernel
  have honce : (route "../b/../y").up ≤ 1 := by simp [hroute]
  have hnormal : normalize "../b/../y" = "../y" := by decide +kernel
  obtain ⟨-, -, hjoin, hplace⟩ := normalizing_drops_climbs_in_pairs "../b/../y"
  refine ⟨by decide, hroute, (hjoin (by decide) "/a/b/c").2 (.inl honce), ?_⟩
  have hfound : t.locate "../b/../y" = .ok ["a".toList, "y".toList] := rfl
  have hagain : t.locate (normalize "../b/../y") = .ok ["a".toList, "y".toList] := by
    rw [hnormal]
    rfl
  exact ⟨_, _, hfound, hagain, (hplace t _ _ hfound hagain).2 (.inr (.inl honce))⟩

/-- Two climbs are forgotten. From a directory the normal form of the path leads back to the
directory, a module is found where its id does not lead, and above the root two dots remain. -/
theorem two_climbs_are_forgotten :
    normalize "../.." = "" ∧ normalize (join "/a/b/c" "../..") = "/a" ∧
    normalize (join "/a/b/c" (normalize "../..")) = "/a/b/c" ∧
    parts (normalize "/..") = [.root, .up] ∧
    Require.resolve (· == "x.js") "../../../../x" "a/b" none = .ok "x.js" ∧
    route (join "a/b" "../../../../x") = ⟨2, ["x".toList]⟩ := by
  decide +kernel

end Path

end ScriptTypes
