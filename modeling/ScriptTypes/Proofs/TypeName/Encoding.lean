import Mathlib
import ScriptTypes.Proofs.TypeName.Settled

/-!
# Encoded types are read back

Array, class and function types are texts built from the texts of other types, to any depth. In
all of them the brackets are nested, so that each scanner passes over a part as if it were one
character: the one that counts both kinds of brackets together, and the ones that look for the
bracket that closes a group of one kind.

`Encoded` collects what an encoded type shows to the scanners, and is kept by every constructor.
From it follows that encoded types are settled and that each constructor can be undone.
-/

namespace ScriptTypes.TypeName

/-! ### Nested brackets -/

/-- A text that is passed over by the search for the bracket that closes a group. -/
def Passed (openC close : Char) (cs : List Char) : Prop :=
  ∀ d inner rest, closeFrom? openC close d inner (cs ++ rest)
    = closeFrom? openC close d (cs.reverse ++ inner) rest

namespace Passed

variable {openC close : Char}

theorem nil : Passed openC close [] := fun _ _ _ => rfl

theorem append {xs ys : List Char} (hx : Passed openC close xs) (hy : Passed openC close ys) :
    Passed openC close (xs ++ ys) := by
  intro d inner rest
  rw [List.append_assoc, hx, hy, List.reverse_append, List.append_assoc]

theorem char {c : Char} (hopen : c ≠ openC) (hclose : c ≠ close) : Passed openC close [c] := by
  intro d inner rest
  simp [closeFrom?, hopen, hclose]

theorem group {cs : List Char} (hne : close ≠ openC) (h : Passed openC close cs) :
    Passed openC close (openC :: cs ++ [close]) := by
  intro d inner rest
  simp [closeFrom?, h _ _ _, hne]

/-- The group ends at the first closing bracket after such a text. -/
theorem splitAtClose {cs : List Char} (hne : close ≠ openC) (h : Passed openC close cs)
    (rest : List Char) : splitAtClose openC close (cs ++ close :: rest) = some (cs, rest) := by
  rw [TypeName.splitAtClose, h, closeFrom?, if_neg hne, if_pos rfl]
  simp

end Passed

/-- The brackets of type names. -/
def brackets : List Char := ['<', '>', '(', ')']

/-- A text whose brackets are nested: it closes what it opens, shows no separator inside of other
brackets, and is passed over by both searches. -/
structure Nested (cs : List Char) : Prop where
  net_eq : net cs = 0
  inside : ∀ d > 0, anyTopFrom isBarOrComma d cs = false
  angles : Passed '<' '>' cs
  parentheses : Passed '(' ')' cs

namespace Nested

theorem nil : Nested [] := ⟨rfl, fun _ _ => rfl, .nil, .nil⟩

theorem append {xs ys : List Char} (hx : Nested xs) (hy : Nested ys) : Nested (xs ++ ys) := by
  refine ⟨?_, ?_, hx.angles.append hy.angles, hx.parentheses.append hy.parentheses⟩
  · rw [net_append, hx.net_eq, hy.net_eq, Int.add_zero]
  · intro d hd
    rw [anyTopFrom_append, hx.inside d hd, hx.net_eq, Int.add_zero, hy.inside d hd]
    rfl

theorem char {c : Char} (hc : c ∉ brackets) : Nested [c] := by
  simp only [brackets, List.mem_cons, List.not_mem_nil, or_false, not_or] at hc
  obtain ⟨h1, h2, h3, h4⟩ := hc
  refine ⟨?_, ?_, .char h1 h2, .char h3 h4⟩
  · simp [delta, depthAfter, h1, h2, h3, h4]
  · intro d hd
    simp [anyTopFrom, hd.ne']

theorem chars {cs : List Char} (h : ∀ c ∈ cs, c ∉ brackets) : Nested cs := by
  induction cs with
  | nil => exact .nil
  | cons c cs ih =>
      exact (char (h c (by simp))).append (ih fun a ha => h a (by simp [ha]))

theorem net_group {o c : Char} {cs : List Char} (ho : delta o = 1) (hc : delta c = -1)
    (h : Nested cs) : net (o :: cs ++ [c]) = 0 := by
  simp [ho, hc, h.net_eq]

/-- No separator inside of a group is at top level. -/
theorem anyTopFrom_group {o c : Char} {cs : List Char} (ho : delta o = 1)
    (hsep : isBarOrComma o = false) (h : Nested cs) {d : Int} (hd : 0 ≤ d) :
    anyTopFrom isBarOrComma d (o :: cs ++ [c]) = false := by
  have hone : d + 1 + net cs ≠ 0 := by
    rw [h.net_eq]
    omega
  simp only [List.cons_append, anyTopFrom, hsep, Bool.and_false, Bool.false_or, depthAfter_eq, ho,
    anyTopFrom_append, h.inside (d + 1) (by omega), Bool.or_false]
  simpa using fun h => absurd h hone

theorem angled {cs : List Char} (h : Nested cs) : Nested ('<' :: cs ++ ['>']) := by
  refine ⟨h.net_group rfl rfl, fun d hd => h.anyTopFrom_group rfl rfl hd.le,
    h.angles.group (by decide), ?_⟩
  exact (Passed.char (c := '<') (by decide) (by decide)).append
    (h.parentheses.append (.char (by decide) (by decide)))

theorem parenthesized {cs : List Char} (h : Nested cs) : Nested ('(' :: cs ++ [')']) := by
  refine ⟨h.net_group rfl rfl, fun d hd => h.anyTopFrom_group rfl rfl hd.le, ?_,
    h.parentheses.group (by decide)⟩
  exact (Passed.char (c := '(') (by decide) (by decide)).append
    (h.angles.append (.char (by decide) (by decide)))

theorem groupMember {m : List Char} (h : Nested m) : Nested (groupMember m) := by
  unfold TypeName.groupMember
  split
  · exact h.parenthesized
  · exact h

theorem joinWith {c : Char} (hc : c ∉ brackets) {ts : List (List Char)}
    (h : ∀ t ∈ ts, Nested t) : Nested (Text.joinWith [c] ts) := by
  induction ts with
  | nil => exact .nil
  | cons t ts ih =>
      cases ts with
      | nil => exact h t (by simp)
      | cons u us =>
          rw [joinWith_cons t (by simp)]
          exact (h t (by simp)).append ((char hc).append (ih fun v hv => h v (by simp [hv])))

theorem union {ms : List (List Char)} (h : ∀ m ∈ ms, Nested m) : Nested (union ms) := by
  refine joinWith (by decide) fun t ht => ?_
  obtain ⟨m, hm, rfl⟩ := List.mem_map.1 ht
  exact (h m hm).groupMember

end Nested

/-! ### The shape of an encoded type -/

theorem anyTopFrom_isBarOrComma (d : Int) (cs : List Char) :
    anyTopFrom isBarOrComma d cs = (anyTopFrom isBar d cs || anyTopFrom isComma d cs) := by
  induction cs generalizing d with
  | nil => rfl
  | cons c cs ih =>
      simp only [anyTopFrom, ih, isBarOrComma]
      cases d == 0 <;> cases isBar c <;> cases isComma c <;> simp

/-- The base names of encoded types. -/
def encodingBases : List (List Char) := [array, class_, function]

theorem encodingBases_spec : ∀ base ∈ encodingBases,
    base ≠ [] ∧ alias? base = some base ∧ base.head?.all (!isMarker ·) = true ∧
      base.all (fun c => decide (c ∉ brackets)) = true ∧
      anyTopFrom isBarOrComma 0 base = false := by
  decide

theorem nested_encodingBase {base : List Char} (h : base ∈ encodingBases) : Nested base := by
  obtain ⟨-, -, -, hall, -⟩ := encodingBases_spec base h
  refine .chars fun c hc => ?_
  simpa using List.all_eq_true.1 hall c hc

theorem opens_encodingBase {base : List Char} (h : base ∈ encodingBases) :
    ∀ c ∈ base, opensArguments c = false := by
  obtain ⟨-, -, -, hall, -⟩ := encodingBases_spec base h
  intro c hc
  have hbracket : c ∉ brackets := by simpa using List.all_eq_true.1 hall c hc
  simp only [brackets, List.mem_cons, not_or] at hbracket
  simp [opensArguments, hbracket]

/-- A name with a known base in front of a bracket is cut at that bracket, unless it is an array. -/
theorem shapeOf_compound {base tail : List Char} {bracket : Char} (hbase : base ∈ encodingBases)
    (hbracket : opensArguments bracket = true)
    (hsuffix : Text.dropSuffix? ['[', ']'] (base ++ bracket :: tail) = none) :
    shapeOf (base ++ bracket :: tail)
      = compoundShape (base ++ bracket :: tail) base bracket tail := by
  obtain ⟨hne, -⟩ := encodingBases_spec base hbase
  have hopens := opens_encodingBase hbase
  have hspan : (base ++ bracket :: tail).span (!opensArguments ·) = (base, bracket :: tail) := by
    rw [List.span_eq_takeWhile_dropWhile, List.takeWhile_append_of_pos (by simpa using hopens),
      List.dropWhile_append_of_pos (by simpa using hopens)]
    simp [hbracket]
  rw [shapeOf, if_neg (by simp), unwrapGroup?_base_append (bracket :: tail) hne hopens, hsuffix,
    hspan]

theorem head_encodingBase_append {base : List Char} (hbase : base ∈ encodingBases)
    (rest : List Char) : ∀ c ∈ (base ++ rest).head?, isMarker c = false := by
  obtain ⟨hne, -, hmarker, -⟩ := encodingBases_spec base hbase
  cases base with
  | nil => exact absurd rfl hne
  | cons b base => simpa using hmarker

theorem shape_compound {base tail : List Char} {bracket : Char} (hbase : base ∈ encodingBases)
    (hbracket : opensArguments bracket = true)
    (hlast : ∀ c ∈ (base ++ bracket :: tail).getLast?, c ≠ '=' ∧ c ≠ ']') :
    shape (base ++ bracket :: tail)
      = compoundShape (base ++ bracket :: tail) base bracket tail := by
  have hmarkers : dropMarkers (base ++ bracket :: tail) = base ++ bracket :: tail :=
    dropMarkers_eq_self (head_encodingBase_append hbase _) fun c hc => (hlast c hc).1
  have hsuffix : Text.dropSuffix? ['[', ']'] (base ++ bracket :: tail) = none := by
    rw [Option.eq_none_iff_forall_not_mem]
    intro element helement
    have hname := dropSuffix?_eq_some_iff.1 helement
    exact (hlast ']' (by rw [hname]; simp)).2 rfl
  rw [shape, hmarkers, shapeOf_compound hbase hbracket hsuffix]

theorem compoundShape_angle (name plain tail : List Char) :
    compoundShape name plain '<' tail = .kept name none ∨ ∃ base arguments,
      alias? plain = some base ∧ compoundShape name plain '<' tail = .generic base arguments := by
  unfold compoundShape
  split
  · rename_i inner rest base _ hbase
    cases rest with
    | nil => exact .inr ⟨base, inner, hbase, rfl⟩
    | cons c rest => exact .inl rfl
  · exact .inl rfl

theorem shape_generic {base inner : List Char} (hbase : base ∈ encodingBases)
    (hinner : Passed '<' '>' inner) : shape (generic base inner) = .generic base inner := by
  obtain ⟨-, halias, -⟩ := encodingBases_spec base hbase
  rw [generic, List.append_assoc, List.cons_append, shape_compound hbase rfl]
  · have hclose : splitAtClose '<' (closing '<') (inner ++ ['>']) = some (inner, []) :=
      hinner.splitAtClose (by decide) []
    simp [compoundShape, hclose, halias]
  · intro c hc
    have hend : base ++ '<' :: (inner ++ ['>']) = (base ++ '<' :: inner) ++ ['>'] := by simp
    rw [hend, List.getLast?_concat, Option.mem_some] at hc
    rw [← hc]
    decide

theorem shape_callable {base inner : List Char} {returns : Option (List Char)}
    (hbase : base ∈ encodingBases) (hinner : Passed '(' ')' inner)
    (hreturns : ∀ r ∈ returns, ∀ c ∈ (':' :: r).getLast?, c ≠ '=' ∧ c ≠ ']') :
    shape (base ++ '(' :: inner ++ ')' :: returns.elim [] (':' :: ·))
      = .callable base inner returns := by
  obtain ⟨-, halias, -⟩ := encodingBases_spec base hbase
  have hclose : splitAtClose '(' (closing '(') (inner ++ ')' :: returns.elim [] (':' :: ·))
      = some (inner, returns.elim [] (':' :: ·)) := hinner.splitAtClose (by decide) _
  rw [List.append_assoc, List.cons_append, shape_compound hbase rfl]
  · cases returns with
    | none => simp [compoundShape, halias] at hclose ⊢; simp [hclose]
    | some r => simp [compoundShape, halias] at hclose ⊢; simp [hclose]
  · intro c hc
    cases returns with
    | none =>
        have hend : base ++ '(' :: (inner ++ [')']) = (base ++ '(' :: inner) ++ [')'] := by simp
        rw [Option.elim_none, hend, List.getLast?_concat, Option.mem_some] at hc
        rw [← hc]
        decide
    | some r =>
        have hend : base ++ '(' :: (inner ++ ')' :: ':' :: r)
            = (base ++ '(' :: inner ++ [')']) ++ ':' :: r := by simp
        rw [Option.elim_some, hend, List.getLast?_append_of_ne_nil _ (by simp)] at hc
        exact hreturns r rfl c hc

/-! ### What the scanners see of an encoded type -/

/-- The characters that end up in no encoded type: blanks, the brackets of the array suffix and the
marker at the end of a name. -/
def isStray (c : Char) : Bool := Text.isBlank c || c == '[' || c == ']' || c == '='

theorem conserved_isStray : Conserved isStray := ⟨by decide, by decide⟩

/-- What an encoded type shows to the scanners. -/
structure Encoded (cs : List Char) : Prop where
  settled : Settled cs
  nested : Nested cs
  comma : anyTopFrom isComma 0 cs = false
  grouped : hasTopUnion cs = true → returnsUnion cs = true
  head : ∀ c ∈ cs.head?, c ≠ '('
  clean : cs.countP isStray = 0

/-- Encoded types that are listed together. -/
structure Choice (ms : List (List Char)) : Prop where
  ne_nil : ms ≠ []
  nodup : ms.Nodup
  encoded : ∀ m ∈ ms, Encoded m

namespace Encoded

variable {m : List Char}

theorem ne_nil (h : Encoded m) : m ≠ [] := by
  rintro rfl
  have := canonicalize?_of_settled h.settled
  rw [canonicalize?_nil] at this
  cases this

theorem anyTopFrom_groupMember (h : Encoded m) : anyTopFrom isBarOrComma 0 (groupMember m) = false := by
  unfold groupMember
  split
  · exact h.nested.anyTopFrom_group rfl rfl le_rfl
  · rename_i htop
    rw [anyTopFrom_isBarOrComma, h.comma, Bool.or_false]
    exact Bool.eq_false_iff.2 htop

theorem unwrapGroup?_groupMember (h : Encoded m) (htop : hasTopUnion m = true) :
    unwrapGroup? (groupMember m) = some m := by
  have hclose : splitAtClose '(' ')' (m ++ [')']) = some (m, []) :=
    h.nested.parentheses.splitAtClose (by decide) []
  rw [groupMember, if_pos htop, List.cons_append, unwrapGroup?, hclose]

end Encoded

theorem anyTopFrom_mono {sep : Char → Bool} (hsep : ∀ c, sep c = true → isBarOrComma c = true)
    {d : Int} {cs : List Char} (h : anyTopFrom isBarOrComma d cs = false) :
    anyTopFrom sep d cs = false := by
  induction cs generalizing d with
  | nil => rfl
  | cons c cs ih =>
      simp only [anyTopFrom, Bool.or_eq_false_iff, Bool.and_eq_false_iff] at h ⊢
      refine ⟨h.1.imp_right fun hc => ?_, ih h.2⟩
      exact Bool.eq_false_iff.2 fun hs => Bool.eq_false_iff.1 hc (hsep c hs)

section Lists

variable {ms : List (List Char)}

theorem net_of_mem_groupMember (h : ∀ m ∈ ms, Encoded m) : ∀ p ∈ ms.map groupMember, net p = 0 := by
  intro p hp
  obtain ⟨m, hm, rfl⟩ := List.mem_map.1 hp
  exact (h m hm).nested.groupMember.net_eq

theorem anyTopFrom_of_mem_groupMember (h : ∀ m ∈ ms, Encoded m) {sep : Char → Bool}
    (hsep : ∀ c, sep c = true → isBarOrComma c = true) :
    ∀ p ∈ ms.map groupMember, anyTopFrom sep 0 p = false := by
  intro p hp
  obtain ⟨m, hm, rfl⟩ := List.mem_map.1 hp
  exact anyTopFrom_mono hsep (h m hm).anyTopFrom_groupMember

/-- A list of encoded types is cut into its members again. -/
theorem splitTop_union (h : ∀ m ∈ ms, Encoded m) (hne : ms ≠ []) {sep : Char → Bool}
    (hsep : ∀ c, sep c = true → isBarOrComma c = true) (hbar : sep '|' = true) :
    splitTop sep (union ms) = ms.map groupMember :=
  splitTop_joinWith hbar (by simpa using hne) (net_of_mem_groupMember h)
    (anyTopFrom_of_mem_groupMember h hsep)

theorem comma_union (h : ∀ m ∈ ms, Encoded m) : anyTopFrom isComma 0 (union ms) = false :=
  anyTopFrom_joinWith rfl rfl (net_of_mem_groupMember h)
    (anyTopFrom_of_mem_groupMember h fun c hc => by simp [isBarOrComma, hc])

theorem clean_union (h : ∀ m ∈ ms, Encoded m) : (union ms).countP isStray = 0 := by
  by_cases hne : ms = []
  · rw [hne]
    rfl
  · have hunion := conserved_isStray.countP_union hne
    have hzero : weight isStray 0 ms = 0 := by
      rw [weight, List.sum_eq_zero_iff]
      intro n hn
      obtain ⟨m, hm, rfl⟩ := List.mem_map.1 hn
      exact (h m hm).clean
    have hbar : (isStray '|').toNat = 0 := by decide
    rw [hbar, hzero] at hunion
    exact hunion

end Lists

namespace Choice

variable {ms : List (List Char)}

theorem nested (h : Choice ms) : Nested (union ms) :=
  .union fun m hm => (h.encoded m hm).nested

theorem listed (h : Choice ms) {sep : Char → Bool}
    (hsep : ∀ c, sep c = true → isBarOrComma c = true) (hbar : sep '|' = true) : Listed sep ms := by
  refine ⟨h.ne_nil, h.nodup, splitTop_union h.encoded h.ne_nil hsep hbar, ?_⟩
  intro m hm htop
  exact ⟨(h.encoded m hm).unwrapGroup?_groupMember htop, (h.encoded m hm).grouped htop⟩

theorem canonicalUnion_eq (h : Choice ms) {sep : Char → Bool}
    (hsep : ∀ c, sep c = true → isBarOrComma c = true) (hbar : sep '|' = true) :
    canonicalUnion sep (union ms) = ms :=
  (h.listed hsep hbar).unionWith_eq fun m hm => canonicalize?_of_settled (h.encoded m hm).settled

theorem comma (h : Choice ms) : anyTopFrom isComma 0 (union ms) = false :=
  comma_union h.encoded

theorem clean (h : Choice ms) : (union ms).countP isStray = 0 := clean_union h.encoded

/-- The last character of a list is no marker. -/
theorem getLast (h : Choice ms) : ∀ c ∈ (':' :: union ms).getLast?, c ≠ '=' ∧ c ≠ ']' := by
  intro c hc
  rcases List.mem_cons.1 (List.mem_of_getLast? hc) with rfl | hmem
  · decide
  · have hstray := List.countP_eq_zero.1 h.clean c hmem
    constructor <;> (rintro rfl; exact hstray rfl)

end Choice

/-! ### Every constructor gives an encoded type -/

/-- A base name with a bracketed text shows no separator. -/
theorem anyTopFrom_base_group {base cs : List Char} {o c : Char} (hbase : base ∈ encodingBases)
    (ho : delta o = 1) (hsep : isBarOrComma o = false) (h : Nested cs) :
    anyTopFrom isBarOrComma 0 (base ++ (o :: cs ++ [c])) = false := by
  obtain ⟨-, -, -, -, htop⟩ := encodingBases_spec base hbase
  rw [anyTopFrom_append, htop, (nested_encodingBase hbase).net_eq,
    h.anyTopFrom_group ho hsep (d := 0 + 0) le_rfl]
  rfl

theorem head_base_append {base : List Char} (hbase : base ∈ encodingBases) (rest : List Char) :
    ∀ c ∈ (base ++ rest).head?, c ≠ '(' := by
  obtain ⟨hne, -⟩ := encodingBases_spec base hbase
  have hopens := opens_encodingBase hbase
  intro c hc
  cases base with
  | nil => exact absurd rfl hne
  | cons b base =>
      obtain rfl : b = c := by simpa using hc
      rintro rfl
      cases hopens '(' (by simp)

theorem clean_encodingBases : ∀ base ∈ encodingBases, base.countP isStray = 0 := by decide

theorem Encoded.generic {base : List Char} {ms : List (List Char)} (hbase : base ∈ encodingBases)
    (h : Choice ms) : Encoded (generic base (union ms)) := by
  have heq : TypeName.generic base (union ms) = base ++ ('<' :: union ms ++ ['>']) :=
    List.append_assoc _ _ _
  have htop : anyTopFrom isBarOrComma 0 (TypeName.generic base (union ms)) = false := by
    rw [heq]
    exact anyTopFrom_base_group hbase rfl rfl h.nested
  rw [anyTopFrom_isBarOrComma, Bool.or_eq_false_iff] at htop
  refine ⟨.generic (shape_generic hbase h.nested.angles) (h.listed (fun _ => id) rfl)
    fun m hm => (h.encoded m hm).settled, ?_, htop.2, ?_, ?_, ?_⟩
  · rw [heq]
    exact (nested_encodingBase hbase).append h.nested.angled
  · intro hunion
    exact absurd hunion (Bool.eq_false_iff.1 htop.1)
  · rw [heq]
    exact head_base_append hbase _
  · rw [conserved_isStray.countP_generic, clean_encodingBases base hbase, h.clean]

/-- The first piece of a text goes on from what precedes the text. -/
theorem exists_splitFrom_eq_cons (sep : Char → Bool) (d : Int) (piece cs : List Char) :
    ∃ x rest, splitFrom sep d piece cs = (piece.reverse ++ x) :: rest := by
  induction cs generalizing d piece with
  | nil => exact ⟨[], [], by simp [splitFrom]⟩
  | cons c cs ih =>
      unfold splitFrom
      split
      · exact ⟨[], _, by rw [List.append_nil]⟩
      · obtain ⟨x, rest, heq⟩ := ih (depthAfter d c) (c :: piece)
        exact ⟨c :: x, rest, by rw [heq]; simp⟩

theorem containsRun_append (needle a b : List Char) :
    Text.containsRun needle (a ++ (needle ++ b)) = true := by
  induction a with
  | nil =>
      cases hneedle : needle ++ b with
      | nil =>
          obtain ⟨rfl, -⟩ := List.append_eq_nil_iff.1 hneedle
          rfl
      | cons c cs =>
          have hprefix : needle.isPrefixOf (c :: cs) = true := by
            rw [← hneedle, List.isPrefixOf_iff_prefix]
            exact List.prefix_append _ _
          simp [Text.containsRun, hprefix]
  | cons c a ih => simp [Text.containsRun, ih]

section Signature

variable {pss : List (List (List Char))} {rs : List (List Char)}

theorem nested_params (hps : ∀ ps ∈ pss, ∀ p ∈ ps, Encoded p) :
    Nested (Text.joinWith [','] (pss.map union)) := by
  refine .joinWith (by decide) fun t ht => ?_
  obtain ⟨ps, hmem, rfl⟩ := List.mem_map.1 ht
  exact .union fun p hp => (hps ps hmem p hp).nested

/-- Parameters are cut apart at the commas between them. -/
theorem splitTop_params (hps : ∀ ps ∈ pss, ∀ p ∈ ps, Encoded p) (hne : pss ≠ []) :
    splitTop isComma (Text.joinWith [','] (pss.map union)) = pss.map union := by
  refine splitTop_joinWith rfl (by simpa using hne) ?_ ?_
  · intro p hp
    obtain ⟨ps, hmem, rfl⟩ := List.mem_map.1 hp
    exact (Nested.union fun p hp => (hps ps hmem p hp).nested).net_eq
  · intro p hp
    obtain ⟨ps, hmem, rfl⟩ := List.mem_map.1 hp
    exact comma_union (hps ps hmem)

theorem clean_params (hps : ∀ ps ∈ pss, ∀ p ∈ ps, Encoded p) :
    (Text.joinWith [','] (pss.map union)).countP isStray = 0 := by
  by_cases hne : pss = []
  · rw [hne]
    rfl
  · have hne' : pss.map union ≠ [] := by simpa using hne
    have hjoin := countP_joinWith (k := isStray) ',' hne'
    have hcomma : (isStray ',').toNat = 0 := by decide
    have hzero : weight isStray 0 (pss.map union) = 0 := by
      rw [weight, List.sum_eq_zero_iff]
      intro n hn
      obtain ⟨t, ht, rfl⟩ := List.mem_map.1 hn
      obtain ⟨ps, hmem, rfl⟩ := List.mem_map.1 ht
      exact clean_union (hps ps hmem)
    rw [hcomma, hzero] at hjoin
    exact hjoin

theorem settled_signature {base : List Char} (hbase : base ∈ encodingBases)
    (hps : ∀ ps ∈ pss, Choice ps) (hrs : rs ≠ [] → Choice rs) :
    Settled (signature base (pss.map union) rs) := by
  refine .callable ?_ (splitTop_params fun ps h => (hps ps h).encoded) (fun ps h => (hps ps h).listed isBarOrComma_of_isBar rfl)
    (fun hne => (hrs hne).listed (fun _ => id) rfl) (fun ps h p hp => ((hps ps h).encoded p hp).settled)
    fun r hr => ((hrs (List.ne_nil_of_mem hr)).encoded r hr).settled
  rw [signature_eq]
  refine shape_callable hbase (nested_params fun ps h => (hps ps h).encoded).parentheses
    fun r hr => ?_
  by_cases hne : rs = []
  · rw [if_pos hne] at hr
    cases hr
  · rw [if_neg hne, Option.mem_some] at hr
    exact hr ▸ (hrs hne).getLast

/-- The return types of a signature follow a colon after its parameters. -/
theorem returnsUnion_signature {base : List Char} (hbase : base ∈ encodingBases)
    (hps : ∀ ps ∈ pss, Choice ps) (hne : rs ≠ []) :
    returnsUnion (signature base (pss.map union) rs) = true := by
  have hfront : anyTopFrom isBar 0
      (base ++ ('(' :: Text.joinWith [','] (pss.map union) ++ [')']) ++ [':']) = false := by
    have hinner := nested_params fun ps h => (hps ps h).encoded
    have htop := anyTopFrom_base_group (c := ')') hbase (o := '(') rfl rfl hinner
    rw [anyTopFrom_append, anyTopFrom_mono isBarOrComma_of_isBar htop]
    simp [anyTopFrom, isBar]
  have heq : signature base (pss.map union) rs
      = base ++ ('(' :: Text.joinWith [','] (pss.map union) ++ [')']) ++ [':'] ++ union rs := by
    simp [signature_eq, hne]
  obtain ⟨x, rest, hsplit⟩ := exists_splitFrom_eq_cons isBar
    (0 + net (base ++ ('(' :: Text.joinWith [','] (pss.map union) ++ [')']) ++ [':']))
    ((base ++ ('(' :: Text.joinWith [','] (pss.map union) ++ [')']) ++ [':']).reverse ++ []) (union rs)
  have hrun := containsRun_append [')', ':'] (base ++ '(' :: Text.joinWith [','] (pss.map union)) x
  rw [returnsUnion, heq, splitTop, splitFrom_append hfront, hsplit]
  simpa using hrun

theorem Encoded.signature (hps : ∀ ps ∈ pss, Choice ps) (hrs : rs ≠ [] → Choice rs) :
    Encoded (functionSignature (pss.map union) rs) := by
  have hbase : function ∈ encodingBases := by decide
  have hinner := nested_params fun ps h => (hps ps h).encoded
  have hhead : Nested (function ++ ('(' :: Text.joinWith [','] (pss.map union) ++ [')'])) :=
    (nested_encodingBase hbase).append hinner.parenthesized
  have htop := anyTopFrom_base_group (c := ')') hbase (o := '(') rfl rfl hinner
  have hclean : (functionSignature (pss.map union) rs).countP isStray = 0 := by
    rw [functionSignature, conserved_isStray.countP_signature, clean_encodingBases _ hbase,
      clean_params fun ps h => (hps ps h).encoded]
    by_cases hne : rs = []
    · rw [if_pos hne]
    · rw [if_neg hne, (hrs hne).clean]
      rfl
  have hstart : ∀ c ∈ (functionSignature (pss.map union) rs).head?, c ≠ '(' := by
    rw [functionSignature, signature_eq, List.append_assoc]
    exact head_base_append hbase _
  by_cases hne : rs = []
  · have heq : functionSignature (pss.map union) rs
        = function ++ ('(' :: Text.joinWith [','] (pss.map union) ++ [')']) := by
      simp [functionSignature, signature_eq, hne]
    rw [anyTopFrom_isBarOrComma, Bool.or_eq_false_iff] at htop
    refine ⟨settled_signature hbase hps hrs, heq ▸ hhead, heq ▸ htop.2, ?_, hstart, hclean⟩
    intro hunion
    rw [heq] at hunion
    exact absurd hunion (Bool.eq_false_iff.1 htop.1)
  · have heq : functionSignature (pss.map union) rs
        = function ++ ('(' :: Text.joinWith [','] (pss.map union) ++ [')']) ++ ([':'] ++ union rs) := by
      simp [functionSignature, signature_eq, hne]
    refine ⟨settled_signature hbase hps hrs, ?_, ?_,
      fun _ => returnsUnion_signature hbase hps hne, hstart, hclean⟩
    · rw [heq]
      exact hhead.append ((Nested.char (by decide)).append (hrs hne).nested)
    · rw [anyTopFrom_isBarOrComma, Bool.or_eq_false_iff] at htop
      rw [heq, anyTopFrom_append, htop.2, hhead.net_eq]
      simpa [anyTopFrom, isComma, depthAfter] using (hrs hne).comma

end Signature

/-- The characters that structure a type name. -/
def structural : List Char := "<>(){}[]|,:=".toList

/-- A name without structure is an encoded type. -/
theorem Encoded.plain {cs : List Char} (hne : cs ≠ [])
    (hchars : ∀ c ∈ cs, Text.isBlank c = false ∧ c ∉ structural)
    (hhead : ∀ c ∈ cs.head?, isMarker c = false) (halias : alias? cs = some cs) : Encoded cs := by
  have hmem {c : Char} (hc : c ∈ structural) : c ∉ cs := fun h => (hchars c h).2 hc
  have hbeq {x : Char} (hx : x ∈ structural) : ∀ c ∈ cs, (c == x) = false := by
    intro c hc
    exact beq_eq_false_iff_ne.2 fun h => hmem hx (h ▸ hc)
  have hopens : ∀ c ∈ cs, opensArguments c = false := by
    intro c hc
    rw [opensArguments, hbeq (by decide) c hc, hbeq (by decide) c hc]
    rfl
  have hseparators : anyTopFrom isBarOrComma 0 cs = false := by
    refine anyTopFrom_eq_false (fun c hc => ?_) 0
    rw [isBarOrComma, isBar, isComma, hbeq (by decide) c hc, hbeq (by decide) c hc]
    rfl
  have hshape : shape cs = .plain cs := by
    have hmarkers : dropMarkers cs = cs := by
      refine dropMarkers_eq_self hhead fun c hc => ?_
      rintro rfl
      exact hmem (by decide) (List.mem_of_getLast? hc)
    have hsuffix : Text.dropSuffix? ['[', ']'] cs = none := by
      rw [Option.eq_none_iff_forall_not_mem]
      intro element helement
      exact hmem (c := '[') (by decide) (by rw [dropSuffix?_eq_some_iff.1 helement]; simp)
    have hspan : cs.span (!opensArguments ·) = (cs, []) := by
      rw [List.span_eq_takeWhile_dropWhile, List.takeWhile_eq_self_iff.2 (by simpa using hopens),
        List.dropWhile_eq_nil_iff.2 (by simpa using hopens)]
    have hgroup : unwrapGroup? cs = none := by
      simpa using unwrapGroup?_base_append [] hne hopens
    rw [shape, hmarkers, shapeOf, if_neg (by simpa using hne), hgroup, hsuffix, hspan]
  rw [anyTopFrom_isBarOrComma, Bool.or_eq_false_iff] at hseparators
  refine ⟨.plain hshape halias, ?_, hseparators.2, ?_, ?_, ?_⟩
  · refine .chars fun c hc hbracket => (hchars c hc).2 ?_
    simp only [brackets, List.mem_cons, List.not_mem_nil, or_false] at hbracket
    rcases hbracket with rfl | rfl | rfl | rfl <;> decide
  · intro hunion
    exact absurd hunion (Bool.eq_false_iff.1 hseparators.1)
  · intro c hc
    rintro rfl
    exact hmem (by decide) (List.mem_of_head? hc)
  · rw [List.countP_eq_zero]
    intro c hc
    rw [isStray, (hchars c hc).1, hbeq (by decide) c hc, hbeq (by decide) c hc,
      hbeq (by decide) c hc]
    exact Bool.false_ne_true

theorem Encoded.function : Encoded function := by
  have hall : TypeName.function.all (fun c => !Text.isBlank c && decide (c ∉ structural)) = true := by
    decide
  refine .plain (by decide) ?_ ?_ (by decide)
  · intro c hc
    simpa using List.all_eq_true.1 hall c hc
  · intro c hc
    obtain rfl : 'F' = c := Option.some.inj hc
    rfl

/-! ### Undoing a constructor -/

theorem genericArgument?_generic (base : List Char) {argument : List Char} (hne : argument ≠ []) :
    genericArgument? base (generic base argument) = some argument := by
  have hbase : Text.dropPrefix? base (generic base argument) = some ('<' :: (argument ++ ['>'])) :=
    Text.dropPrefix?_eq_some_iff.2 (List.append_assoc _ _ _)
  have hopen : Text.dropPrefix? ['<'] ('<' :: (argument ++ ['>'])) = some (argument ++ ['>']) :=
    Text.dropPrefix?_eq_some_iff.2 rfl
  have hclose : Text.dropSuffix? ['>'] (argument ++ ['>']) = some argument :=
    dropSuffix?_eq_some_iff.2 rfl
  simp [genericArgument?, hbase, hopen, hclose, hne]

theorem Encoded.groupMember_ne_nil {m : List Char} (h : Encoded m) : groupMember m ≠ [] := by
  intro hnil
  have hsub := sublist_groupMember m
  rw [hnil, List.sublist_nil] at hsub
  exact h.ne_nil hsub

theorem Encoded.ungroup_groupMember {m : List Char} (h : Encoded m) : ungroup (groupMember m) = m := by
  by_cases htop : hasTopUnion m = true
  · rw [ungroup, h.unwrapGroup?_groupMember htop, Option.getD_some]
  · have hself := canonicalize?_of_settled h.settled
    rw [groupMember, if_neg htop, ungroup, unwrapGroup?_canonicalize hself, Option.getD_none]

theorem Choice.union_ne_nil {ms : List (List Char)} (h : Choice ms) : union ms ≠ [] := by
  obtain ⟨m, hm⟩ := List.exists_mem_of_ne_nil ms h.ne_nil
  intro hnil
  have hsub := sublist_union hm
  rw [hnil, List.sublist_nil] at hsub
  exact (h.encoded m hm).ne_nil hsub

theorem returnTypes_functionOf {ms : List (List Char)} (h : ms ≠ [] → Choice ms) :
    returnTypes (functionOf ms) = ms := by
  cases ms with
  | nil => decide
  | cons m ms =>
      have hms := h (by simp)
      rw [functionOf, if_neg (by simp), returnTypes,
        genericArgument?_generic function hms.union_ne_nil]
      exact hms.canonicalUnion_eq isBarOrComma_of_isBar rfl

theorem returnTypes_functionSignature {pss : List (List (List Char))} {rs : List (List Char)}
    (hps : ∀ ps ∈ pss, Choice ps) (hrs : rs ≠ [] → Choice rs) :
    returnTypes (functionSignature (pss.map union) rs) = rs := by
  have hname : functionSignature (pss.map union) rs = function ++ '(' ::
      (Text.joinWith [','] (pss.map union)
        ++ ')' :: (if rs = [] then none else some (union rs)).elim [] (':' :: ·)) := by
    rw [functionSignature, signature_eq, List.append_assoc, List.cons_append]
  have hcall := Text.dropPrefix?_eq_some_iff.2 hname
  have hgeneric : genericArgument? function (functionSignature (pss.map union) rs) = none := by
    simp [genericArgument?, hcall, Text.dropPrefix?]
  have hclose := (nested_params fun ps h => (hps ps h).encoded).parentheses.splitAtClose (by decide)
    ((if rs = [] then none else some (union rs)).elim [] (':' :: ·))
  rw [returnTypes, hgeneric]
  simp only [hcall, hclose]
  by_cases hne : rs = []
  · simp [hne]
  · simp only [hne, if_false, Option.elim_some]
    exact (hrs hne).canonicalUnion_eq isBarOrComma_of_isBar rfl

/-- Parentheses at the start of a list belong to its first member. -/
theorem unwrapGroup?_union {m m' : List Char} {ms : List (List Char)} (h : Encoded m) :
    unwrapGroup? (union (m :: m' :: ms)) = none := by
  have hjoin : union (m :: m' :: ms) = groupMember m ++ '|' :: union (m' :: ms) :=
    joinWith_cons _ (by simp)
  by_cases htop : hasTopUnion m = true
  · have hclose := h.nested.parentheses.splitAtClose (by decide) ('|' :: union (m' :: ms))
    rw [hjoin, groupMember, if_pos htop, List.append_assoc, List.cons_append, unwrapGroup?]
    simp [hclose]
  · rw [hjoin, groupMember, if_neg htop]
    cases m with
    | nil => exact absurd rfl h.ne_nil
    | cons c m =>
        have hc : c ≠ '(' := h.head c rfl
        simp [unwrapGroup?, hc]

/-! ### Types as strings -/

/-- A name without structure: no blanks, none of the characters that structure a name, no marker in
front, and no other spelling. -/
structure Atom (name : TypeName) : Prop where
  ne_empty : name ≠ ""
  chars : ∀ c ∈ name.toList, Text.isBlank c = false ∧ c ∉ structural
  head : ∀ c ∈ name.toList.head?, isMarker c = false
  self : alias? name.toList = some name.toList

instance (name : TypeName) : Decidable (Atom name) :=
  decidable_of_iff (name ≠ "" ∧
      name.toList.all (fun c => !Text.isBlank c && decide (c ∉ structural)) = true ∧
      name.toList.head?.all (!isMarker ·) = true ∧ alias? name.toList = some name.toList)
    ⟨fun ⟨hne, hchars, hhead, hself⟩ =>
      ⟨hne, by simpa using hchars, by simpa [Option.all_eq_true] using hhead, hself⟩,
      fun h => ⟨h.ne_empty, by simpa using h.chars, by simpa [Option.all_eq_true] using h.head,
        h.self⟩⟩

/-- The types that are built from atoms by the four encodings. -/
inductive Encoding : TypeName → Prop
  | atom {name : TypeName} (h : Atom name) : Encoding name
  | array {t : TypeName} (h : Encoding t) : Encoding (arrayTypeOf t)
  | classOf {t : TypeName} (h : Encoding t) : Encoding (classTypeOf t)
  | function {ts : List TypeName} (hnodup : ts.Nodup) (h : ∀ t ∈ ts, Encoding t) :
      Encoding (functionType ts)
  | signature {pss : List (List TypeName)} {rs : List TypeName}
      (hparams : ∀ ps ∈ pss, ps ≠ [] ∧ ps.Nodup) (hps : ∀ ps ∈ pss, ∀ p ∈ ps, Encoding p)
      (hnodup : rs.Nodup) (hrs : ∀ r ∈ rs, Encoding r) :
      Encoding (functionSignatureType (pss.map unionType) rs)

theorem Choice.of_names {ts : List TypeName} (hne : ts ≠ []) (hnodup : ts.Nodup)
    (h : ∀ t ∈ ts, Encoded t.toList) : Choice (chars ts) := by
  refine ⟨by simpa [chars] using hne, hnodup.map fun _ _ => String.toList_injective, ?_⟩
  intro m hm
  obtain ⟨t, ht, rfl⟩ := List.mem_map.1 hm
  exact h t ht

theorem Choice.of_params {pss : List (List TypeName)} (hparams : ∀ ps ∈ pss, ps ≠ [] ∧ ps.Nodup)
    (h : ∀ ps ∈ pss, ∀ p ∈ ps, Encoded p.toList) : ∀ ps ∈ pss.map chars, Choice ps := by
  intro cs hcs
  obtain ⟨ps, hps, rfl⟩ := List.mem_map.1 hcs
  exact .of_names (hparams ps hps).1 (hparams ps hps).2 (h ps hps)

theorem chars_map_unionType (pss : List (List TypeName)) :
    chars (pss.map unionType) = (pss.map chars).map union := by
  simp [chars, unionType, Function.comp_def]

theorem Choice.singleton {m : List Char} (h : Encoded m) : Choice [m] :=
  ⟨by simp, by simp, by simpa using h⟩

/-- The invariant of the constructors. -/
theorem Encoding.encoded {w : TypeName} (h : Encoding w) : Encoded w.toList := by
  induction h with
  | atom h =>
      refine .plain ?_ h.chars h.head h.self
      exact fun hnil => h.ne_empty (String.toList_injective hnil)
  | array _ ih =>
      rw [arrayTypeOf, String.toList_ofList]
      exact .generic (by decide) (.singleton ih)
  | classOf _ ih =>
      rw [classTypeOf, String.toList_ofList]
      exact .generic (by decide) (.singleton ih)
  | @function ts hnodup _ ih =>
      rw [functionType, String.toList_ofList]
      cases ts with
      | nil => exact .function
      | cons t ts => exact .generic (by decide) (.of_names (by simp) hnodup ih)
  | @signature pss rs hparams _ hnodup _ ihps ihrs =>
      rw [functionSignatureType, String.toList_ofList, chars_map_unionType]
      refine .signature (Choice.of_params hparams ihps) fun hne => .of_names ?_ hnodup ihrs
      rintro rfl
      exact hne rfl

theorem compact_eq_self {cs : List Char} (h : cs.countP isStray = 0) : compact cs = cs := by
  rw [compact, List.filter_eq_self]
  intro c hc
  have hstray := List.countP_eq_zero.1 h c hc
  simp only [isStray, Bool.or_eq_true, not_or, Bool.not_eq_true] at hstray
  simp [hstray]

theorem canonicalTypeName?_of_encoded {w : TypeName} (h : Encoded w.toList) :
    canonicalTypeName? w = some w := by
  exact (canonicalTypeName?_eq_self_iff (compact_eq_self h.clean)).2 h.settled

theorem elementType?_of_encoded {t : TypeName} (h : Encoded t.toList) :
    elementType? (arrayTypeOf t) = some t := by
  have harg := genericArgument?_generic array h.groupMember_ne_nil
  rw [elementType?, arrayTypeOf, String.toList_ofList, arrayElement?, arrayOf, harg]
  simp [h.ungroup_groupMember]

theorem map_ofList_chars (ts : List TypeName) : (chars ts).map String.ofList = ts := by
  simp [chars, Function.comp_def]

theorem splitTypeUnion_unionType {ts : List TypeName} (hlength : 2 ≤ ts.length) (hnodup : ts.Nodup)
    (h : ∀ t ∈ ts, Encoded t.toList) : splitTypeUnion (unionType ts) = ts := by
  match ts with
  | [] | [_] => simp at hlength
  | t :: t' :: ts =>
      have hchoice : Choice (chars (t :: t' :: ts)) := .of_names (by simp) hnodup h
      have hunwrap : ∀ n, unwrapGroups n (union (chars (t :: t' :: ts)))
          = union (chars (t :: t' :: ts)) := by
        intro n
        cases n with
        | zero => rfl
        | succ n =>
            have hnone : unwrapGroup? (union (chars (t :: t' :: ts))) = none :=
              unwrapGroup?_union (h t (by simp))
            rw [unwrapGroups, hnone]
      rw [splitTypeUnion, unionType, String.toList_ofList]
      simp only [compact_eq_self hchoice.clean, hunwrap]
      rw [hchoice.canonicalUnion_eq (fun _ => id) rfl, map_ofList_chars]

/-- Encoded types are canonical, and every encoding can be undone. -/
theorem encodings_round_trip :
    (∀ w, Encoding w → canonicalTypeName? w = some w) ∧
      (∀ t, Encoding t → elementType? (arrayTypeOf t) = some t) ∧
      (∀ t, Encoding t → classBaseType? (classTypeOf t) = some t) ∧
      (∀ ts : List TypeName, ts.Nodup → (∀ t ∈ ts, Encoding t) →
        functionReturnTypes (functionType ts) = ts) ∧
      (∀ (pss : List (List TypeName)) (rs : List TypeName),
        (∀ ps ∈ pss, ps ≠ [] ∧ ps.Nodup) → (∀ ps ∈ pss, ∀ p ∈ ps, Encoding p) →
        rs.Nodup → (∀ r ∈ rs, Encoding r) →
        functionReturnTypes (functionSignatureType (pss.map unionType) rs) = rs) ∧
      (∀ ts : List TypeName, ts.Nodup → (∀ t ∈ ts, Encoding t) → 2 ≤ ts.length →
        splitTypeUnion (unionType ts) = ts) := by
  refine ⟨?_, ?_, ?_, ?_, ?_, ?_⟩
  · exact fun w h => canonicalTypeName?_of_encoded h.encoded
  · exact fun t h => elementType?_of_encoded h.encoded
  · intro t h
    have harg := genericArgument?_generic class_ h.encoded.groupMember_ne_nil
    rw [classBaseType?, classTypeOf, String.toList_ofList, classBase?, classOf, harg]
    simp [h.encoded.ungroup_groupMember]
  · intro ts hnodup h
    rw [functionReturnTypes, functionType, String.toList_ofList, returnTypes_functionOf,
      map_ofList_chars]
    intro hne
    exact .of_names (by rintro rfl; exact hne rfl) hnodup fun t ht => (h t ht).encoded
  · intro pss rs hparams hps hnodup hrs
    rw [functionReturnTypes, functionSignatureType, String.toList_ofList, chars_map_unionType,
      returnTypes_functionSignature (Choice.of_params hparams fun ps h p hp => (hps ps h p hp).encoded),
      map_ofList_chars]
    intro hne
    exact .of_names (by rintro rfl; exact hne rfl) hnodup fun r hr => (hrs r hr).encoded
  · intro ts hnodup h hlength
    exact splitTypeUnion_unionType hlength hnodup fun t ht => (h t ht).encoded

/-- A signature that returns a union, as a parameter, as an element and beside another type. -/
theorem encodings_round_trip_signature :
    Encoding "Function(A|B,C):X|Y" ∧
      canonicalTypeName? "Function((Function(A|B,C):X|Y)|Z):Array<(Function(A|B,C):X|Y)>"
        = some "Function((Function(A|B,C):X|Y)|Z):Array<(Function(A|B,C):X|Y)>" ∧
      elementType? "Array<(Function(A|B,C):X|Y)>" = some "Function(A|B,C):X|Y" ∧
      splitTypeUnion "(Function(A|B,C):X|Y)|Z" = ["Function(A|B,C):X|Y", "Z"] := by
  have hatom {t : TypeName} (h : Atom t) : Encoding t := .atom h
  have hcall : Encoding "Function(A|B,C):X|Y" := by
    have htext : "Function(A|B,C):X|Y"
        = functionSignatureType ([["A", "B"], ["C"]].map unionType) ["X", "Y"] := by decide
    rw [htext]
    refine .signature (by decide) ?_ (by decide) ?_
    · simp [hatom (by decide : Atom "A"), hatom (by decide : Atom "B"), hatom (by decide : Atom "C")]
    · simp [hatom (by decide : Atom "X"), hatom (by decide : Atom "Y")]
  have hboth : ∀ t ∈ ["Function(A|B,C):X|Y", "Z"], Encoding t := by
    simp [hcall, hatom (by decide : Atom "Z")]
  have helement : "Array<(Function(A|B,C):X|Y)>" = arrayTypeOf "Function(A|B,C):X|Y" := by decide
  have hunion : "(Function(A|B,C):X|Y)|Z" = unionType ["Function(A|B,C):X|Y", "Z"] := by decide
  have houter : Encoding "Function((Function(A|B,C):X|Y)|Z):Array<(Function(A|B,C):X|Y)>" := by
    have htext : "Function((Function(A|B,C):X|Y)|Z):Array<(Function(A|B,C):X|Y)>"
        = functionSignatureType ([["Function(A|B,C):X|Y", "Z"]].map unionType)
          ["Array<(Function(A|B,C):X|Y)>"] := by decide
    rw [htext]
    refine .signature (by decide) (by simpa using hboth) (by decide) ?_
    simpa [helement] using .array hcall
  refine ⟨hcall, encodings_round_trip.1 _ houter, ?_, ?_⟩
  · rw [helement]
    exact encodings_round_trip.2.1 _ hcall
  · rw [hunion]
    exact encodings_round_trip.2.2.2.2.2 _ (by decide) hboth (by decide)

end ScriptTypes.TypeName
