import Mathlib
import ScriptTypes.Proofs.TypeName.Cutting

/-!
# What the shape of a name says about its characters

The shape of a name is found by a chain of tests. `Cut` states for each shape what the tests that
led to it found, and `cut_shape` that they always do; later proofs go by its cases and never open
the tests again.
-/

namespace ScriptTypes.TypeName

/-! ### Markers -/

/-- Only markers are dropped. -/
theorem exists_markers (cs : List Char) :
    ∃ l r, cs = l ++ dropMarkers cs ++ r ∧ (∀ c ∈ l, isMarker c = true) ∧ ∀ c ∈ r, c = '=' := by
  refine ⟨cs.takeWhile isMarker, ((cs.dropWhile isMarker).reverse.takeWhile (· == '=')).reverse,
    ?_, ?_, ?_⟩
  · have hright : dropMarkers cs ++ ((cs.dropWhile isMarker).reverse.takeWhile (· == '=')).reverse
        = cs.dropWhile isMarker := by
      rw [dropMarkers, Text.dropRightWhile, ← List.reverse_append, List.takeWhile_append_dropWhile,
        List.reverse_reverse]
    rw [List.append_assoc, hright, List.takeWhile_append_dropWhile]
  · exact fun c hc => List.mem_takeWhile_imp hc
  · intro c hc
    simpa using List.mem_takeWhile_imp (List.mem_reverse.1 hc)

theorem sublist_dropMarkers (cs : List Char) : (dropMarkers cs).Sublist cs := by
  obtain ⟨l, r, heq, -, -⟩ := exists_markers cs
  conv_rhs => rw [heq]
  rw [List.append_assoc]
  exact (List.sublist_append_left _ _).trans (List.sublist_append_right _ _)

theorem net_dropMarkers (cs : List Char) : net (dropMarkers cs) = net cs := by
  obtain ⟨l, r, heq, hl, hr⟩ := exists_markers cs
  have hnet : net l = 0 := net_eq_zero fun c hc => by
    have := hl c hc
    simp only [isMarker, Bool.or_eq_true, beq_iff_eq] at this
    rcases this with (rfl | rfl) | rfl <;> rfl
  have hnet' : net r = 0 := net_eq_zero fun c hc => by
    rw [hr c hc]
    rfl
  conv_rhs => rw [heq]
  rw [net_append, net_append, hnet, hnet', Int.zero_add, Int.add_zero]

/-- A name keeps its characters if neither end has a marker. -/
theorem dropMarkers_eq_self {cs : List Char} (hhead : ∀ c ∈ cs.head?, isMarker c = false)
    (hlast : ∀ c ∈ cs.getLast?, c ≠ '=') : dropMarkers cs = cs := by
  have hleft : cs.dropWhile isMarker = cs := by
    cases cs with
    | nil => rfl
    | cons c cs => simp [hhead c (by simp)]
  have hright : cs.reverse.dropWhile (· == '=') = cs.reverse := by
    cases h : cs.reverse with
    | nil => rfl
    | cons c rest =>
        have hc : c ≠ '=' := hlast c (by rw [← List.head?_reverse, h]; rfl)
        simp [hc]
  rw [dropMarkers, Text.dropRightWhile, hleft, hright, List.reverse_reverse]

theorem head_dropMarkers {cs : List Char} : ∀ c ∈ (dropMarkers cs).head?, isMarker c = false := by
  intro c hc
  obtain ⟨r, hr⟩ : ∃ r, cs.dropWhile isMarker = dropMarkers cs ++ r := by
    refine ⟨((cs.dropWhile isMarker).reverse.takeWhile (· == '=')).reverse, ?_⟩
    rw [dropMarkers, Text.dropRightWhile, ← List.reverse_append, List.takeWhile_append_dropWhile,
      List.reverse_reverse]
  have hhead : (cs.dropWhile isMarker).head? = some c := by
    rw [hr, List.head?_append, hc]
    rfl
  have := List.head?_dropWhile_not isMarker cs
  rw [hhead] at this
  simpa using this

theorem getLast_dropMarkers {cs : List Char} : ∀ c ∈ (dropMarkers cs).getLast?, c ≠ '=' := by
  intro c hc
  rw [dropMarkers, Text.dropRightWhile, List.getLast?_reverse] at hc
  have := List.head?_dropWhile_not (· == '=') (cs.dropWhile isMarker).reverse
  rw [hc] at this
  simpa using this

theorem dropMarkers_dropMarkers (cs : List Char) : dropMarkers (dropMarkers cs) = dropMarkers cs :=
  dropMarkers_eq_self head_dropMarkers getLast_dropMarkers

/-! ### Other spellings -/

/-- The names that stand for another name, or for no type. -/
def spellings : List (List Char) :=
  ["", "void", "string", "number", "int", "integer", "float", "double", "boolean", "bool",
    "object", "any", "mixed", "*", "function", "array", "regexp"].map String.toList

/-- The names that other spellings stand for. -/
def builtins : List (List Char) := [string, number, boolean, object, function, array, regExp]

theorem alias?_cases (name : List Char) : alias? name = some name ∨ name ∈ spellings := by
  have spelled {t : String} (h : String.ofList name = t) (ht : t.toList ∈ spellings) :
      name ∈ spellings := by
    rwa [← h, String.toList_ofList] at ht
  unfold alias?
  split
  all_goals first
    | exact .inl rfl
    | (rename_i h; exact .inr (spelled h (by decide)))

theorem alias?_of_mem_spellings :
    ∀ name ∈ spellings, alias? name = none ∨ ∃ b ∈ builtins, alias? name = some b := by
  decide

theorem alias?_eq_some {name b : List Char} (h : alias? name = some b) :
    b = name ∨ name ∈ spellings ∧ b ∈ builtins := by
  rcases alias?_cases name with hself | hmem
  · rw [hself] at h
    exact .inl (Option.some.inj h).symm
  · rcases alias?_of_mem_spellings name hmem with hnone | ⟨c, hc, hsome⟩
    · rw [hnone] at h
      cases h
    · rw [hsome] at h
      exact .inr ⟨hmem, Option.some.inj h ▸ hc⟩

theorem alias?_nil : alias? [] = none := by decide

/-! ### The parts of a name -/

/-- A group ends with its closing bracket. -/
theorem closeFrom?_eq_some {openC close : Char} {d : Nat} {acc cs inner rest : List Char}
    (h : closeFrom? openC close d acc cs = some (inner, rest)) :
    ∃ text, inner = acc.reverse ++ text ∧ cs = text ++ close :: rest := by
  fun_induction closeFrom? openC close d acc cs with
  | case1 => cases h
  | case2 d acc cs ih =>
      obtain ⟨text, rfl, rfl⟩ := ih h
      exact ⟨openC :: text, by simp, rfl⟩
  | case3 acc cs =>
      simp only [Option.some.injEq, Prod.mk.injEq] at h
      obtain ⟨rfl, rfl⟩ := h
      exact ⟨[], by simp, rfl⟩
  | case4 acc cs hne d ih =>
      obtain ⟨text, rfl, rfl⟩ := ih h
      exact ⟨close :: text, by simp, rfl⟩
  | case5 d acc c cs hopen hclose ih =>
      obtain ⟨text, rfl, rfl⟩ := ih h
      exact ⟨c :: text, by simp, rfl⟩

theorem splitAtClose_eq_some {openC close : Char} {cs inner rest : List Char}
    (h : splitAtClose openC close cs = some (inner, rest)) : cs = inner ++ close :: rest := by
  obtain ⟨text, rfl, rfl⟩ := closeFrom?_eq_some h
  rfl

theorem unwrapGroup?_eq_some {name inner : List Char} (h : unwrapGroup? name = some inner) :
    name = '(' :: inner ++ [')'] := by
  unfold unwrapGroup? at h
  split at h
  · split at h
    · rename_i hclose
      cases h
      rw [splitAtClose_eq_some hclose]
      rfl
    · cases h
  · cases h

theorem dropSuffix?_eq_some_iff {suf cs rest : List Char} :
    Text.dropSuffix? suf cs = some rest ↔ cs = rest ++ suf := by
  unfold Text.dropSuffix?
  rw [Option.map_eq_some_iff]
  constructor
  · rintro ⟨r, hr, rfl⟩
    rw [← List.reverse_reverse cs, Text.dropPrefix?_eq_some_iff.1 hr]
    simp
  · rintro rfl
    exact ⟨rest.reverse, Text.dropPrefix?_eq_some_iff.2 (by simp), by simp⟩

/-- What the characters of a name without markers are, by its shape. -/
inductive Cut (name : List Char) : Shape → Prop
  | nothing (h : name = []) : Cut name .nothing
  | group {inner : List Char} (hunwrap : unwrapGroup? name = some inner) : Cut name (.group inner)
  | array {element : List Char} (h : name = element ++ ['[', ']']) : Cut name (.array element)
  | plain (hplain : ∀ c ∈ name, opensArguments c = false) : Cut name (.plain name)
  | kept {params : Option (List Char)} (hgroup : unwrapGroup? name = none)
      (hparams : ∀ inner ∈ params, ∃ plain base rest, name = plain ++ '(' :: inner ++ ')' :: rest ∧
        (∀ c ∈ plain, opensArguments c = false) ∧ alias? plain = some base) :
      Cut name (.kept name params)
  | generic {plain base inner : List Char} (h : name = plain ++ '<' :: inner ++ ['>'])
      (hplain : ∀ c ∈ plain, opensArguments c = false) (hbase : alias? plain = some base) :
      Cut name (.generic base inner)
  | callable {plain base inner : List Char} {returns : Option (List Char)}
      (h : name = plain ++ '(' :: inner ++ ')' :: returns.elim [] (':' :: ·))
      (hplain : ∀ c ∈ plain, opensArguments c = false) (hbase : alias? plain = some base) :
      Cut name (.callable base inner returns)

theorem cut_compoundShape {name plain tail : List Char} {bracket : Char}
    (h : name = plain ++ bracket :: tail) (hplain : ∀ c ∈ plain, opensArguments c = false)
    (hbracket : opensArguments bracket = true) (hgroup : unwrapGroup? name = none) :
    Cut name (compoundShape name plain bracket tail) := by
  have hbracket : bracket = '<' ∨ bracket = '(' := by
    simpa [opensArguments] using hbracket
  unfold compoundShape
  split
  · rename_i inner rest base hclose hbase
    rw [splitAtClose_eq_some hclose] at h
    rcases hbracket with rfl | rfl
    · split
      · exact .generic (by simpa [closing] using h) hplain hbase
      · rename_i hfalse
        cases hfalse
      · rename_i hfalse
        cases hfalse
      · exact .kept hgroup (by simp)
      · rename_i hfalse
        cases hfalse
    · split
      · rename_i htrue
        cases htrue
      · exact .callable (by simpa [closing] using h) hplain hbase
      · exact .callable (by simpa [closing] using h) hplain hbase
      · rename_i htrue
        cases htrue
      · refine .kept hgroup fun inner' hinner' => ?_
        obtain rfl := Option.mem_some.1 hinner'
        exact ⟨plain, base, _, by simpa [closing] using h, hplain, hbase⟩
  · exact .kept hgroup (by simp)

theorem cut_shapeOf (name : List Char) : Cut name (shapeOf name) := by
  unfold shapeOf
  split
  · rename_i hempty
    exact .nothing (by simpa using hempty)
  · split
    · exact .group ‹_›
    · rename_i hgroup
      have hgroup : unwrapGroup? name = none := by
        cases h : unwrapGroup? name with
        | none => rfl
        | some inner => exact absurd h (hgroup inner)
      split
      · exact .array (dropSuffix?_eq_some_iff.1 ‹_›)
      · have happend := List.takeWhile_append_dropWhile (p := (!opensArguments ·)) (l := name)
        have hplain : ∀ c ∈ name.takeWhile (!opensArguments ·), opensArguments c = false := by
          intro c hc
          simpa using List.mem_takeWhile_imp hc
        rw [List.span_eq_takeWhile_dropWhile]
        split
        · rename_i hspan
          simp only [Prod.mk.injEq] at hspan
          rw [hspan.2, List.append_nil] at happend
          exact .plain (happend ▸ hplain)
        · rename_i plain bracket tail hspan
          simp only [Prod.mk.injEq] at hspan
          have hbracket := List.head?_dropWhile_not (!opensArguments ·) name
          rw [hspan.2] at hbracket
          rw [hspan.1] at hplain
          rw [hspan.1, hspan.2] at happend
          exact cut_compoundShape happend.symm hplain (by simpa using hbracket) hgroup

/-- The texts inside a name whose canonical form is asked for. -/
def Shape.parts : Shape → List (List Char)
  | .nothing | .plain _ => []
  | .kept _ params => params.toList
  | .group inner => [inner]
  | .array element => [element]
  | .generic _ inner => [inner]
  | .callable _ inner returns => inner :: returns.toList

/-- A part stands inside the brackets of a name or beside them. -/
theorem Cut.part {name : List Char} {s : Shape} (h : Cut name s) :
    ∀ p ∈ s.parts, p.Sublist name ∧ p.length < name.length := by
  have inside {l p r : List Char} (hname : name = l ++ p ++ r) (hne : l ++ r ≠ []) :
      p.Sublist name ∧ p.length < name.length := by
    have hpos := List.length_pos_iff.2 hne
    subst hname
    refine ⟨List.IsInfix.sublist ⟨l, r, rfl⟩, ?_⟩
    simp only [List.length_append] at hpos ⊢
    omega
  intro p hp
  cases h with
  | nothing => cases hp
  | plain => cases hp
  | kept _ hparams =>
      obtain ⟨plain, -, rest, hname, -⟩ := hparams p (Option.mem_toList.1 hp)
      exact inside (l := plain ++ ['(']) (r := ')' :: rest) (by rw [hname]; simp) (by simp)
  | group hunwrap =>
      obtain rfl := List.mem_singleton.1 hp
      exact inside (l := ['(']) (r := [')']) (unwrapGroup?_eq_some hunwrap) (by simp)
  | array hname =>
      obtain rfl := List.mem_singleton.1 hp
      exact inside (l := []) hname (by simp)
  | @generic plain _ _ hname =>
      obtain rfl := List.mem_singleton.1 hp
      exact inside (l := plain ++ ['<']) (r := ['>']) (by rw [hname]; simp) (by simp)
  | @callable plain _ inner returns hname =>
      rcases List.mem_cons.1 hp with rfl | hp
      · exact inside (l := plain ++ ['(']) (by rw [hname]; simp; rfl) (by simp)
      · cases returns with
        | none => cases hp
        | some r =>
            obtain rfl := List.mem_singleton.1 hp
            exact inside (l := plain ++ '(' :: inner ++ [')', ':']) (r := []) (by rw [hname]; simp)
              (by simp)

/-- What a name is, by its shape, once its markers are gone. -/
theorem cut_shape (raw : List Char) : Cut (dropMarkers raw) (shape raw) := cut_shapeOf _

end ScriptTypes.TypeName
