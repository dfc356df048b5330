import ScriptTypes.Text.Basic

/-!
# Paths

Paths are texts whose parts are divided by slashes. Only the parts count: repeated slashes and
inner dots mean nothing. Joining and taking parents work on the text, so that what was written
stays as it was; normalizing gives a text in which no part can be left out.
-/

namespace ScriptTypes

/-- A path as it is written. -/
abbrev Path := String

namespace Path

/-- A part of a path. -/
inductive Part where
  /-- The slash at the start of an absolute path. -/
  | root
  /-- The dot at the start of a relative path. -/
  | here
  /-- Two dots: the directory above. -/
  | up
  | name (text : List Char)
  deriving DecidableEq, Repr

/-- The texts between slashes. -/
def pieces (cs : List Char) : List (List Char) := cs.splitOn '/'

/-- The part that a text between slashes stands for, if any. -/
def part? : List Char → Option Part
  | [] => none
  | ['.'] => none
  | ['.', '.'] => some .up
  | text => some (.name text)

/-- The parts of a path. -/
def parts (p : Path) : List Part :=
  match p.toList with
  | '/' :: cs => .root :: (pieces cs).filterMap part?
  | cs =>
    let rest := (pieces cs).filterMap part?
    if (pieces cs).head? = some ['.'] then .here :: rest else rest

def isAbsolute (p : Path) : Bool := p.toList.head? == some '/'

/-- The last part's text, if it is a name. -/
def fileName (p : Path) : String :=
  match (parts p).getLast? with
  | some (.name text) => String.ofList text
  | _ => ""

/-- The file name up to its last dot. A dot in front of all else does not count. -/
def fileStem (p : Path) : String :=
  let name := (fileName p).toList
  match name.reverse.dropWhile (· != '.') with
  | _ :: stem => if stem.isEmpty then String.ofList name else String.ofList stem.reverse
  | [] => String.ofList name

/-- The path `p` as seen from `dir`. -/
def join (dir p : Path) : Path :=
  if p.isAbsolute || dir.isEmpty then p
  else if dir.endsWith "/" then dir ++ p
  else dir ++ "/" ++ p

/-- Drop the slashes and dots that mean nothing at the end of a path, given back to front. -/
def trimEnd : List Char → List Char
  | '/' :: c :: cs => trimEnd (c :: cs)
  | '.' :: '/' :: cs => trimEnd ('/' :: cs)
  | cs => cs

/-- The path without its last part, unless there is nothing but a root. -/
def parent? (p : Path) : Option Path :=
  match trimEnd p.toList.reverse with
  | [] => none
  | ['/'] => none
  | cs => some (String.ofList (trimEnd (cs.dropWhile (· != '/'))).reverse)

theorem length_trimEnd_le (cs : List Char) : (trimEnd cs).length ≤ cs.length := by
  fun_induction trimEnd cs <;> simp_all <;> omega

/-- What is left at the end after trimming is no slash, unless it is the root. -/
theorem eq_nil_of_trimEnd_eq_slash {cs rest : List Char} (h : trimEnd cs = '/' :: rest) :
    rest = [] := by
  fun_induction trimEnd cs with
  | case1 _ _ ih => exact ih h
  | case2 _ ih => exact ih h
  | case3 cs hslash _ =>
    cases rest with
    | nil => rfl
    | cons c rest => exact absurd h (hslash c rest)

/-- A parent is written with fewer characters. -/
theorem length_lt_of_parent? {p q : Path} (h : parent? p = some q) :
    q.toList.length < p.toList.length := by
  unfold parent? at h
  split at h
  · simp at h
  · simp at h
  · rename_i cs hnil hroot
    cases hcs : trimEnd p.toList.reverse with
    | nil => exact absurd hcs hnil
    | cons c rest =>
      have hc : c ≠ '/' := by
        rintro rfl
        exact hroot (by rw [hcs, eq_nil_of_trimEnd_eq_slash hcs])
      have hle := length_trimEnd_le p.toList.reverse
      have hdrop := length_trimEnd_le ((c :: rest).dropWhile (· != '/'))
      have hrest : ((c :: rest).dropWhile (· != '/')).length ≤ rest.length := by
        simpa [List.dropWhile_cons, hc] using (List.dropWhile_suffix _).length_le
      rw [hcs] at h hle
      simp only [Option.some.injEq] at h
      subst h
      simp only [String.toList_ofList, List.length_reverse, List.length_cons] at *
      omega

/-- A path and all paths above it, nearest first. -/
def ancestors (p : Path) : List Path :=
  match _h : parent? p with
  | some q => p :: ancestors q
  | none => [p]
termination_by p.toList.length
decreasing_by exact length_lt_of_parent? _h

/-- Take a part into a list of parts, the last one first. Two dots take the part before them away;
nothing is before the first part, and nothing is above the root. -/
def step : List Part → Part → List Part
  | taken, .here => taken
  | [], .up => [.up]
  | .root :: taken, .up => .up :: .root :: taken
  | _ :: taken, .up => taken
  | taken, p => p :: taken

def Part.text : Part → List Char
  | .root => []
  | .here => ['.']
  | .up => ['.', '.']
  | .name text => text

/-- The text of a path with the given parts. -/
def ofParts : List Part → Path
  | [.root] => "/"
  | ps => String.ofList (Text.joinWith ['/'] (ps.map Part.text))

/-- The path without dots, and with two dots only where nothing is left to take away. -/
def normalize (p : Path) : Path := ofParts ((parts p).foldl step []).reverse

end Path

end ScriptTypes
