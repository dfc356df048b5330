import ScriptTypes.Proofs.Doc.Segments
import ScriptTypes.Proofs.TypeName.Braced

/-!
# Written comments are read back

A comment in its usual form has one line for each line of the description and for each tag, with a
star in front of it. Stripping gives these lines back. The description ends in front of the first
tag, since no line of it starts with an `@`; braces close where the types end, since type names have
none; and every tag ends with its line.

Main statement: `written_comments_are_read_back`.
-/

namespace ScriptTypes.Doc

open Grammar (Lexeme)
open ScriptTypes.TypeName (Encoding unionType)

/-! ### Comments as they are written -/

/-- A text on one line, without blanks around it. -/
structure IsLine (text : String) : Prop where
  line : ∀ c ∈ text.toList, isNewline c = false
  trimmed : Text.trim text.toList = text.toList

instance (text : String) : Decidable (IsLine text) :=
  decidable_of_iff (text.toList.all (!isNewline ·) = true ∧ Text.trim text.toList = text.toList)
    ⟨fun ⟨hline, htrimmed⟩ => ⟨by simpa using hline, htrimmed⟩,
      fun h => ⟨by simpa using h.line, h.trimmed⟩⟩

/-- A line of a description. -/
structure IsDescription (text : String) : Prop extends IsLine text where
  ne_empty : text ≠ ""
  noTag : text.toList.head? ≠ some '@'

instance (text : String) : Decidable (IsDescription text) :=
  decidable_of_iff (IsLine text ∧ text ≠ "" ∧ text.toList.head? ≠ some '@')
    ⟨fun ⟨hline, hne, hhead⟩ => ⟨hline, hne, hhead⟩, fun h => ⟨h.toIsLine, h.ne_empty, h.noTag⟩⟩

/-- Types that braces can hold: different names that are built by the encodings. A single one has no
alternatives at top level, since it would be taken for several types. -/
structure AreTypes (types : List TypeName) : Prop where
  ne_nil : types ≠ []
  nodup : types.Nodup
  encoding : ∀ t ∈ types, Encoding t
  several : 2 ≤ types.length ∨ ∀ t ∈ types, TypeName.hasTopUnion t.toList = false

/-- The name of a parameter: letters, digits, `_` and `$`. -/
structure IsParamName (name : String) : Prop where
  ne_empty : name ≠ ""
  chars : ∀ c ∈ name.toList, isNameChar c = true ∧ c ≠ '.'

instance (name : String) : Decidable (IsParamName name) :=
  decidable_of_iff (name ≠ "" ∧ name.toList.all (fun c => isNameChar c && c != '.') = true)
    ⟨fun ⟨hne, hchars⟩ => ⟨hne, by simpa using hchars⟩,
      fun h => ⟨h.ne_empty, by simpa using h.chars⟩⟩

/-- The name of a tag that stands for nothing else. -/
structure IsOtherName (name : String) : Prop where
  ne_empty : name ≠ ""
  chars : ∀ c ∈ name.toList, isTagChar c = true
  other : name ∉ ["param", "return", "returns", "type"]

instance (name : String) : Decidable (IsOtherName name) :=
  decidable_of_iff (name ≠ "" ∧ name.toList.all isTagChar = true ∧
      name ∉ ["param", "return", "returns", "type"])
    ⟨fun ⟨hne, hchars, hother⟩ => ⟨hne, List.all_eq_true.1 hchars, hother⟩,
      fun h => ⟨h.ne_empty, List.all_eq_true.2 h.chars, h.other⟩⟩

namespace Tag

/-- A tag with all its parts in their usual form. -/
inductive Standard : Tag → Prop
  | param {name : String} {types : List TypeName} {text : String} (hname : IsParamName name)
      (htypes : AreTypes types) (htext : IsLine text) : Standard (.param name types .required text)
  | result {types : List TypeName} {text : String} (htypes : AreTypes types)
      (htext : IsLine text) : Standard (.result types text)
  | type {types : List TypeName} {text : String} (htypes : AreTypes types) (htext : IsLine text) :
      Standard (.type types text)
  | other {name : String} {text : String} (hname : IsOtherName name) (htext : IsLine text) :
      Standard (.other name text)

/-- The name that a tag is written with. -/
def word : Tag → String
  | param .. => "param"
  | result .. => "return"
  | type .. => "type"
  | other name _ => name

/-- What stands between the name of a tag and its text. -/
def arguments : Tag → String
  | param name types _ _ => " \x7b" ++ unionType types ++ "\x7d " ++ name
  | result types _ | type types _ => " \x7b" ++ unionType types ++ "\x7d"
  | other .. => ""

def text : Tag → String
  | param _ _ _ text | result _ text | type _ text | other _ text => text

def head (t : Tag) : String := "@" ++ t.word ++ t.arguments

/-- The line of a tag. -/
def written (t : Tag) : String := t.head ++ " " ++ t.text

end Tag

/-- A comment in its usual form, each line with a star in front of it. -/
def starred (lines : List String) : String :=
  "/**\n" ++ String.join (lines.map fun line => " * " ++ line ++ "\n") ++ " */"

/-- The comment of a description and tags. -/
def written (description : List String) (tags : List Tag) : String :=
  starred (description ++ tags.map Tag.written)

/-! ### Blanks around texts -/

/-- A text that starts and ends with characters that are not blank. -/
structure Solid (cs : List Char) : Prop where
  head : ∃ c, cs.head? = some c ∧ Text.isBlank c = false
  last : ∃ c, cs.getLast? = some c ∧ Text.isBlank c = false

theorem trim_cons {c : Char} (h : Text.isBlank c = true) (cs : List Char) :
    Text.trim (c :: cs) = Text.trim cs := by
  rw [Text.trim, Text.trim, List.dropWhile_cons_of_pos h]

theorem Solid.trim {cs : List Char} (h : Solid cs) : Text.trim cs = cs := by
  obtain ⟨⟨c, hhead, hc⟩, d, hlast, hd⟩ := h
  have hleft : cs.dropWhile Text.isBlank = cs := by
    cases cs with
    | nil => rfl
    | cons c' cs =>
      cases hhead
      exact List.dropWhile_cons_of_neg (by simp [hc])
  have hright : List.rdropWhile Text.isBlank cs = cs := by
    rw [List.rdropWhile_eq_self_iff]
    intro hne
    rw [List.getLast?_eq_some_getLast hne, Option.some.injEq] at hlast
    simp [hlast, hd]
  rw [Text.trim, hleft]
  exact hright

/-- A trimmed text is solid or empty. -/
theorem solid_of_trim {cs : List Char} (h : Text.trim cs = cs) (hne : cs ≠ []) : Solid cs := by
  have hleft : cs.dropWhile Text.isBlank = cs := by
    have hsuffix : cs.dropWhile Text.isBlank <:+ cs := List.dropWhile_suffix _
    have hfront : Text.trim cs <+: cs.dropWhile Text.isBlank := List.rdropWhile_prefix _ _
    rw [h] at hfront
    exact hsuffix.eq_of_length_le hfront.length_le
  have hright : List.rdropWhile Text.isBlank cs = cs := by
    rw [Text.trim, hleft] at h
    exact h
  constructor
  · refine ⟨cs.head hne, List.head?_eq_some_head hne, ?_⟩
    rw [Bool.eq_false_iff]
    intro hblank
    obtain ⟨c, cs, rfl⟩ := List.exists_cons_of_ne_nil hne
    rw [List.head_cons] at hblank
    rw [List.dropWhile_cons_of_pos hblank] at hleft
    have hshort := (List.dropWhile_suffix (l := cs) Text.isBlank).length_le
    rw [hleft, List.length_cons] at hshort
    omega
  · refine ⟨cs.getLast hne, List.getLast?_eq_some_getLast hne, ?_⟩
    simpa using List.rdropWhile_eq_self_iff.1 hright hne

theorem Solid.append {as bs : List Char} (ha : Solid as) (hb : Solid bs) (mid : List Char) :
    Solid (as ++ mid ++ bs) := by
  obtain ⟨c, hhead, hc⟩ := ha.head
  obtain ⟨d, hlast, hd⟩ := hb.last
  refine ⟨⟨c, ?_, hc⟩, d, ?_, hd⟩
  · rw [List.append_assoc, List.head?_append, hhead, Option.some_or]
  · rw [List.getLast?_append, hlast, Option.some_or]

theorem Solid.joinWith {lines : List (List Char)} (hne : lines ≠ []) (h : ∀ l ∈ lines, Solid l) :
    Solid (Text.joinWith ['\n'] lines) := by
  induction lines with
  | nil => exact absurd rfl hne
  | cons l lines ih =>
    obtain ⟨hl, hlines⟩ := List.forall_mem_cons.1 h
    by_cases hnil : lines = []
    · subst hnil
      exact hl
    · rw [TypeName.joinWith_cons l hnil]
      simpa using hl.append (ih hnil hlines) ['\n']

/-- A text with a blank in front of it, nothing if there is no text. -/
def gapped (text : List Char) : List Char := if text = [] then [] else ' ' :: text

theorem kept_gapped {text : String} (h : IsLine text) : kept (gapped text.toList) = text := by
  rw [kept, gapped]
  split
  · rename_i hnil
    exact String.toList_injective (by rw [hnil]; rfl)
  · rw [trim_cons rfl, h.trimmed, String.ofList_toList]

theorem Solid.append_gapped {cs text : List Char} (hcs : Solid cs)
    (htext : Text.trim text = text) : Solid (cs ++ gapped text) := by
  rw [gapped]
  split
  · rwa [List.append_nil]
  · rename_i hne
    have hsolid := hcs.append (solid_of_trim htext hne) [' ']
    rwa [List.append_assoc, List.singleton_append] at hsolid

/-- Of a blank and a text behind a solid beginning, the blank stays only in front of a text. -/
theorem trim_append_gap {cs text : List Char} (hcs : Solid cs) (htext : Text.trim text = text) :
    Text.trim (cs ++ ' ' :: text) = cs ++ gapped text := by
  by_cases hnil : text = []
  · subst hnil
    rw [trim_append (by simp [Text.isBlank]), hcs.trim, gapped, if_pos rfl, List.append_nil]
  · have hsolid := hcs.append_gapped htext
    rw [gapped, if_neg hnil] at hsolid ⊢
    exact hsolid.trim

/-! ### Stripping -/

/-- The star of a line and the blanks around it are stripped off. -/
theorem stripLine_starred (cs : List Char) :
    stripLine (' ' :: '*' :: ' ' :: cs) = Text.trim cs := by
  have hstar : Text.trim (' ' :: '*' :: ' ' :: cs)
      = '*' :: List.rdropWhile Text.isBlank (' ' :: cs) := by
    rw [trim_cons rfl, Text.trim, List.dropWhile_cons_of_neg (by decide), Text.dropRightWhile,
      List.rdropWhile, List.reverse_cons, List.dropWhile_append]
    split
    · rename_i hnil
      rw [List.isEmpty_iff.1 hnil]
      rfl
    · rw [List.reverse_append]
      rfl
  have hkept : Text.trim (List.rdropWhile Text.isBlank (' ' :: cs)) = Text.trim cs := by
    have hblanks : ∀ c ∈ List.rtakeWhile Text.isBlank (' ' :: cs), Text.isBlank c = true :=
      fun c hc => List.mem_rtakeWhile_imp hc
    rw [← trim_append hblanks, List.rdropWhile_append_rtakeWhile, trim_cons rfl]
  have hdrop : Text.dropPrefix? ['*'] ('*' :: List.rdropWhile Text.isBlank (' ' :: cs))
      = some (List.rdropWhile Text.isBlank (' ' :: cs)) := Text.dropPrefix?_eq_some_iff.2 rfl
  rw [stripLine, hstar, hdrop, Option.getD_some, hkept]

theorem dropSuffix?_return {line : List Char} (h : '\r' ∉ line) :
    (Text.dropSuffix? ['\r'] line).getD line = line := by
  cases hdrop : Text.dropSuffix? ['\r'] line with
  | none => rfl
  | some front =>
    obtain ⟨rest, hrest, -⟩ := Option.map_eq_some_iff.1 hdrop
    have hmem : '\r' ∈ line.reverse := by
      rw [Text.dropPrefix?_eq_some_iff.1 hrest]
      exact List.mem_cons_self
    exact absurd (List.mem_reverse.1 hmem) h

/-- The lines of a text whose last line has no line end. -/
theorem lines_flatMap {lines : List (List Char)} {last : List Char}
    (h : ∀ l ∈ lines, ∀ c ∈ l, isNewline c = false) (hlast : last ≠ []) (hfeed : '\n' ∉ last) :
    Text.lines (lines.flatMap (fun l => l ++ ['\n']) ++ last) = lines ++ [last] := by
  have hsplit : (lines.flatMap (fun l => l ++ ['\n']) ++ last).splitOn '\n' = lines ++ [last] := by
    induction lines with
    | nil => exact List.splitOn_eq_singleton hfeed
    | cons l lines ih =>
      obtain ⟨hl, hlines⟩ := List.forall_mem_cons.1 h
      have hl' : '\n' ∉ l := fun hmem => absurd (hl _ hmem) (by decide)
      rw [List.flatMap_cons, List.append_assoc, List.append_assoc, List.singleton_append,
        List.splitOn_append_cons_self, List.splitOn_eq_singleton hl', ih hlines]
      rfl
  have hended : lines.map (fun line => (Text.dropSuffix? ['\r'] line).getD line) = lines := by
    refine (List.map_congr_left fun l hl => ?_).trans (List.map_id lines)
    exact dropSuffix?_return fun hmem => absurd (h l hl _ hmem) (by decide)
  have hlines : Text.lines (lines.flatMap (fun l => l ++ ['\n']) ++ last)
      = (lines ++ [last]).dropLast.map (fun line => (Text.dropSuffix? ['\r'] line).getD line)
        ++ [last] := by
    cases hcs : lines.flatMap (fun l => l ++ ['\n']) ++ last with
    | nil => exact absurd (List.append_eq_nil_iff.1 hcs).2 hlast
    | cons c cs =>
      obtain ⟨d, last, rfl⟩ := List.exists_cons_of_ne_nil hlast
      rw [Text.lines, ← hcs, hsplit, List.getLast?_concat]
      simp
  rw [hlines, List.dropLast_concat, hended]

/-- What stands between the delimiters of a comment. -/
def inner (lines : List String) : List Char :=
  ([] :: lines.map fun l => ' ' :: '*' :: ' ' :: l.toList).flatMap (· ++ ['\n']) ++ [' ']

theorem toList_starred (lines : List String) :
    (starred lines).toList = "/**".toList ++ inner lines ++ "*/".toList := by
  simp [starred, inner, String.toList_join, List.flatMap_map]

theorem lines_inner {lines : List String} (h : ∀ l ∈ lines, ∀ c ∈ l.toList, isNewline c = false) :
    Text.lines (inner lines)
      = ([] :: lines.map fun l => ' ' :: '*' :: ' ' :: l.toList) ++ [[' ']] := by
  refine lines_flatMap ?_ (by simp) (by simp)
  intro l hl c hc
  rcases List.mem_cons.1 hl with rfl | hl
  · cases hc
  · obtain ⟨text, htext, rfl⟩ := List.mem_map.1 hl
    simp only [List.mem_cons] at hc
    obtain rfl | rfl | rfl | hc := hc
    · rfl
    · rfl
    · rfl
    · exact h text htext c hc

/-- The delimiters are gone, with the line behind the one and the line in front of the other. -/
theorem strip_starred {lines : List String}
    (h : ∀ l ∈ lines, ∀ c ∈ l.toList, isNewline c = false) :
    strip (starred lines).toList
      = Text.trim (Text.joinWith ['\n'] (lines.map fun l => Text.trim l.toList)) := by
  have htrim : Text.trim (starred lines).toList = "/**".toList ++ inner lines ++ "*/".toList := by
    rw [toList_starred]
    exact Solid.trim ⟨⟨'/', rfl, rfl⟩, '/', List.getLast?_append.trans rfl, rfl⟩
  have hfront : Text.dropPrefix? ['/', '*', '*'] ("/**".toList ++ inner lines ++ "*/".toList)
      = some (inner lines ++ "*/".toList) := by
    rw [Text.dropPrefix?_eq_some_iff, List.append_assoc]
    rfl
  have hsuffix : Text.dropSuffix? ['*', '/'] (inner lines ++ "*/".toList) = some (inner lines) :=
    TypeName.dropSuffix?_eq_some_iff.2 rfl
  have hstripped : (Text.lines (inner lines)).map stripLine
      = [] :: ((lines.map fun l => Text.trim l.toList) ++ [[]]) := by
    simp only [lines_inner h, List.map_append, List.map_cons, List.map_map, Function.comp_def,
      stripLine_starred]
    rfl
  rw [strip, htrim]
  simp only [hfront, Option.getD_some, hsuffix, hstripped]
  rw [TypeName.joinWith_cons _ (by simp), List.nil_append, trim_cons rfl]
  by_cases hne : (lines.map fun l => Text.trim l.toList) = []
  · rw [hne]
    rfl
  · rw [TypeName.joinWith_append hne (by simp)]
    exact trim_append (by simp [Text.joinWith, Text.isBlank])

/-! ### Where names and texts end -/

theorem takeText_of_ends {cs : List Char} (h : Ends cs) : takeText cs = ([], cs) := by
  cases cs with
  | nil => rfl
  | cons c cs =>
    have hbreak : startsBreak (c :: cs) = true := h.resolve_left (by simp)
    rw [takeText, if_pos hbreak]

/-- A text has all of a line that it starts in. -/
theorem takeText_line_append {line : List Char} (h : ∀ c ∈ line, isNewline c = false)
    (cs : List Char) : takeText (line ++ cs) = (line ++ (takeText cs).1, (takeText cs).2) := by
  induction line with
  | nil => rfl
  | cons c line ih =>
    obtain ⟨hc, hline⟩ := List.forall_mem_cons.1 h
    have hbreak : startsBreak (c :: (line ++ cs)) = false := by
      rw [startsBreak, hc, Bool.false_and]
    rw [List.cons_append, takeText, if_neg (by simp [hbreak]), ih hline]
    rfl

theorem takeText_line {line next : List Char} (h : ∀ c ∈ line, isNewline c = false)
    (hnext : Ends next) : takeText (line ++ next) = (line, next) := by
  rw [takeText_line_append h, takeText_of_ends hnext, List.append_nil]

theorem isNewline_iff {c : Char} : isNewline c = true ↔ c = '\n' ∨ c = '\r' := by
  simp [isNewline]

theorem Ends.head {next : List Char} (h : Ends next) : ∀ c ∈ next.head?, isNewline c = true := by
  intro c hc
  rcases h with rfl | hbreak
  · cases hc
  · obtain ⟨⟨d, rest, rfl, hd⟩, -⟩ := startsBreak_iff.1 hbreak
    cases hc
    exact hd

/-- Names end in front of a text and at the end of a line. -/
theorem head_gapped_append {p : Char → Bool} (hblank : p ' ' = false) (hfeed : p '\n' = false)
    (hreturn : p '\r' = false) (text : List Char) {next : List Char} (hnext : Ends next) :
    ∀ c ∈ (gapped text ++ next).head?, p c = false := by
  intro c hc
  rw [gapped] at hc
  split at hc
  · obtain rfl | rfl := isNewline_iff.1 (hnext.head c hc)
    · exact hfeed
    · exact hreturn
  · cases hc
    exact hblank

theorem run1_append {p : Char → Bool} {taken rest : List Char} (hne : taken ≠ [])
    (htaken : ∀ c ∈ taken, p c = true) (hrest : ∀ c ∈ rest.head?, p c = false) :
    Lexeme.run1 p (taken ++ rest) = some (taken, rest) := by
  obtain ⟨c, taken, rfl⟩ := List.exists_cons_of_ne_nil hne
  obtain ⟨hc, htaken⟩ := List.forall_mem_cons.1 htaken
  have hstop : rest.takeWhile p = [] ∧ rest.dropWhile p = rest := by
    cases rest with
    | nil => exact ⟨rfl, rfl⟩
    | cons d rest =>
      have hd : ¬ p d = true := by simp [hrest d rfl]
      exact ⟨List.takeWhile_cons_of_neg hd, List.dropWhile_cons_of_neg hd⟩
  rw [Lexeme.run1, Lexeme.andThen, List.cons_append, Lexeme.one, if_pos hc]
  simp only [Lexeme.run]
  rw [List.takeWhile_append_of_pos htaken, List.dropWhile_append_of_pos htaken, hstop.1, hstop.2]
  simp

/-- Letters, digits and the signs of names are not blank. -/
theorem isBlank_of_isNameChar {c : Char} (h : isNameChar c = true) : Text.isBlank c = false := by
  have hrange : 36 ≤ c.toNat ∧ c.toNat ≤ 122 := by
    simp only [isNameChar, Char.isAlphanum, Char.isAlpha, Char.isUpper, Char.isLower, Char.isDigit,
      Bool.or_eq_true, Bool.and_eq_true, decide_eq_true_eq, beq_iff_eq, ge_iff_le,
      UInt32.le_iff_toNat_le] at h
    rcases h with (((((⟨hlow, hhigh⟩ | ⟨hlow, hhigh⟩) | ⟨hlow, hhigh⟩) | rfl) | rfl) | rfl)
    · exact ⟨Nat.le_trans (by decide) hlow, Nat.le_trans hhigh (by decide)⟩
    · exact ⟨Nat.le_trans (by decide) hlow, Nat.le_trans hhigh (by decide)⟩
    · exact ⟨Nat.le_trans (by decide) hlow, Nat.le_trans hhigh (by decide)⟩
    all_goals decide
  simp only [Text.isBlank, Bool.or_eq_false_iff, Bool.and_eq_false_iff, decide_eq_false_iff_not,
    beq_eq_false_iff_ne]
  omega

theorem isNameChar_of_isTagChar {c : Char} (h : isTagChar c = true) : isNameChar c = true := by
  rw [isTagChar] at h
  rw [isNameChar, h]
  rfl

theorem isNewline_of_isBlank {c : Char} (h : Text.isBlank c = false) : isNewline c = false := by
  rw [Bool.eq_false_iff]
  intro hnewline
  rw [isBlank_of_isNewline hnewline] at h
  cases h

/-! ### Tags -/

namespace AreTypes

variable {types : List TypeName}

theorem choice (h : AreTypes types) : TypeName.Choice (TypeName.chars types) :=
  .of_names h.ne_nil h.nodup fun t ht => (h.encoding t ht).encoded

theorem isBlank_eq_false (h : AreTypes types) :
    ∀ c ∈ (unionType types).toList, Text.isBlank c = false := by
  intro c hc
  rw [unionType, String.toList_ofList] at hc
  have hstray := List.countP_eq_zero.1 h.choice.clean c hc
  simp only [TypeName.isStray, Bool.or_eq_true, not_or, Bool.not_eq_true] at hstray
  exact hstray.1.1.1

theorem splitTypeUnion_eq (h : AreTypes types) : splitTypeUnion (unionType types) = types := by
  by_cases hlength : 2 ≤ types.length
  · exact TypeName.splitTypeUnion_unionType hlength h.nodup fun t ht => (h.encoding t ht).encoded
  · obtain ⟨t, rfl⟩ : ∃ t, types = [t] := by
      rw [← List.length_eq_one_iff]
      have := List.length_pos_of_ne_nil h.ne_nil
      omega
    have ht : t ∈ [t] := List.mem_singleton_self t
    exact TypeName.splitTypeUnion_unionType_singleton (h.encoding t ht).encoded
      (h.several.resolve_left hlength t ht)

/-- Types are found between their braces. -/
theorem types?_eq (h : AreTypes types) (rest : List Char) :
    types? ('{' :: ((unionType types).toList ++ '}' :: rest)) = some (types, rest) := by
  have hbraced : TypeName.Passed '{' '}' (unionType types).toList := by
    rw [unionType, String.toList_ofList]
    exact TypeName.Braced.chars_union fun t ht => (h.encoding t ht).braced
  rw [types?, hbraced.splitAtClose (by decide), Option.map_some]
  simp only [String.ofList_toList, h.splitTypeUnion_eq]

end AreTypes

theorem afterName?_gap (name : String) (rest : List Char) :
    afterName? name (name.toList ++ ' ' :: rest) = some (rest.dropWhile isGap) := by
  have hdrop : Text.dropPrefix? name.toList (name.toList ++ ' ' :: rest) = some (' ' :: rest) :=
    Text.dropPrefix?_eq_some_iff.2 rfl
  rw [afterName?, hdrop]
  rfl

theorem afterName?_eq_none {name word : String} (hname : Spells name word) {cs : List Char}
    (h : tagName cs ≠ word) : afterName? name cs = none := by
  rw [Option.eq_none_iff_forall_not_mem]
  intro rest hrest
  exact h (afterName_of_afterName? hname hrest).tagName

theorem paramTag?_eq_none {cs : List Char} (h : tagName cs ≠ "param") : paramTag? cs = none := by
  rw [paramTag?, afterName?_eq_none spells_param h]
  rfl

theorem resultTag?_eq_none {cs : List Char} (h : tagName cs ≠ "return")
    (h' : tagName cs ≠ "returns") : resultTag? cs = none := by
  rw [resultTag?, afterName?_eq_none spells_return h, afterName?_eq_none spells_returns h']
  rfl

theorem typeTag?_eq_none {cs : List Char} (h : tagName cs ≠ "type") : typeTag? cs = none := by
  rw [typeTag?, afterName?_eq_none spells_type h]
  rfl

theorem ne_nil_of_ne_empty {text : String} (h : text ≠ "") : text.toList ≠ [] :=
  fun hnil => h (String.toList_injective hnil)

/-- A name with nothing around it is that of a parameter that has to be given. -/
theorem IsParamName.paramName?_eq {name : String} (h : IsParamName name) {rest : List Char}
    (hrest : ∀ c ∈ rest.head?, isNameChar c = false) :
    paramName? (name.toList ++ rest) = some ((.required, name), rest) := by
  have hname : name? (name.toList ++ rest) = some (name, rest) := by
    rw [name?, run1_append (ne_nil_of_ne_empty h.ne_empty) (fun c hc => (h.chars c hc).1) hrest]
    simp
  obtain ⟨c, cs, hcs⟩ := List.exists_cons_of_ne_nil (ne_nil_of_ne_empty h.ne_empty)
  obtain ⟨hc, hdot⟩ := h.chars c (hcs ▸ List.mem_cons_self)
  have hoptional : optionalName? (name.toList ++ rest) = none := by
    have hbracket : c ≠ '[' := by
      rintro rfl
      exact absurd hc (by decide)
    rw [hcs, List.cons_append, optionalName?]
    simp [hbracket]
  have hdots : Text.dropPrefix? ['.', '.', '.'] (name.toList ++ rest) = none := by
    rw [hcs, List.cons_append, Text.dropPrefix?, if_neg (Ne.symm hdot)]
  rw [paramName?, hoptional, hdots, Option.bind_none, hname]
  rfl

theorem takeText_gapped {text : String} (h : IsLine text) {next : List Char} (hnext : Ends next) :
    takeText (gapped text.toList ++ next) = (gapped text.toList, next) := by
  refine takeText_line ?_ hnext
  intro c hc
  rw [gapped] at hc
  split at hc
  · cases hc
  · rcases List.mem_cons.1 hc with rfl | hc
    · rfl
    · exact h.line c hc

section Lines

variable {types : List TypeName} {text : String} {next : List Char}

theorem paramTag?_line {name : String} (hname : IsParamName name) (htypes : AreTypes types)
    (htext : IsLine text) (hnext : Ends next) :
    paramTag? ("@param".toList ++ ' ' :: '{' :: ((unionType types).toList ++ '}' ::
        ' ' :: (name.toList ++ (gapped text.toList ++ next))))
      = some (.param name types .required text, next) := by
  have hgap : (name.toList ++ (gapped text.toList ++ next)).dropWhile isGap
      = name.toList ++ (gapped text.toList ++ next) := by
    obtain ⟨c, cs, hcs⟩ := List.exists_cons_of_ne_nil (ne_nil_of_ne_empty hname.ne_empty)
    have hc : ¬ isGap c = true := by
      intro hgap
      have hblank := isBlank_of_isNameChar (hname.chars c (hcs ▸ List.mem_cons_self)).1
      simp only [isGap, Bool.or_eq_true, beq_iff_eq] at hgap
      rcases hgap with rfl | rfl
      · exact absurd hblank (by decide)
      · exact absurd hblank (by decide)
    rw [hcs, List.cons_append, List.dropWhile_cons_of_neg hc]
  have hrest := head_gapped_append (p := isNameChar) rfl rfl rfl text.toList hnext
  rw [paramTag?, afterName?_gap, List.dropWhile_cons_of_neg (by decide)]
  simp only [Option.bind_eq_bind, Option.bind_some, htypes.types?_eq]
  rw [List.dropWhile_cons_of_pos (by decide), hgap, hname.paramName?_eq hrest, Option.bind_some,
    takeText_gapped htext hnext, kept_gapped htext]

theorem resultTag?_line (htypes : AreTypes types) (htext : IsLine text) (hnext : Ends next) :
    resultTag? ("@return".toList ++ ' ' :: '{' :: ((unionType types).toList ++ '}' ::
        (gapped text.toList ++ next))) = some (.result types text, next) := by
  have hreturns (cs : List Char) : afterName? "@returns" ("@return".toList ++ ' ' :: cs) = none :=
    rfl
  rw [resultTag?, afterName?_gap, List.dropWhile_cons_of_neg (by decide), hreturns, Option.none_or]
  simp only [Option.bind_eq_bind, Option.bind_some, htypes.types?_eq, Option.getD_some]
  rw [takeText_gapped htext hnext, kept_gapped htext]

theorem typeTag?_line (htypes : AreTypes types) (htext : IsLine text) (hnext : Ends next) :
    typeTag? ("@type".toList ++ ' ' :: '{' :: ((unionType types).toList ++ '}' ::
        (gapped text.toList ++ next))) = some (.type types text, next) := by
  rw [typeTag?, afterName?_gap, List.dropWhile_cons_of_neg (by decide)]
  simp only [Option.bind_eq_bind, Option.bind_some, htypes.types?_eq, Option.some_or]
  rw [takeText_gapped htext hnext, kept_gapped htext]

theorem otherTag?_line {name : String} (hname : IsOtherName name) (htext : IsLine text)
    (hnext : Ends next) :
    otherTag? ('@' :: (name.toList ++ (gapped text.toList ++ next)))
      = some (.other name text, next) := by
  have hrest := head_gapped_append (p := isTagChar) rfl rfl rfl text.toList hnext
  rw [otherTag?, run1_append (ne_nil_of_ne_empty hname.ne_empty) hname.chars hrest, Option.map_some]
  simp only [takeText_gapped htext hnext, kept_gapped htext, String.ofList_toList]

end Lines

namespace Tag

/-- The line of a tag as it is read, without a blank at its end. -/
def line (t : Tag) : List Char :=
  '@' :: t.word.toList ++ (t.arguments.toList ++ gapped t.text.toList)

namespace Standard

variable {t : Tag} {next : List Char}

theorem text (h : Standard t) : IsLine t.text := by
  cases h with
  | param _ _ htext | result _ htext | type _ htext | other _ htext => exact htext

theorem word (h : Standard t) : t.word.toList ≠ [] ∧ ∀ c ∈ t.word.toList, isTagChar c = true := by
  cases h with
  | param => exact ⟨spells_param.ne_nil, spells_param.chars⟩
  | result => exact ⟨spells_return.ne_nil, spells_return.chars⟩
  | type => exact ⟨spells_type.ne_nil, spells_type.chars⟩
  | other hname => exact ⟨ne_nil_of_ne_empty hname.ne_empty, hname.chars⟩

/-- The name of a tag ends where its arguments start, or else its text. -/
theorem tagName_line (h : Standard t) (hnext : Ends next) : tagName (t.line ++ next) = t.word := by
  rw [line, List.append_assoc, tagName_append h.word.2, String.ofList_toList]
  intro c hc
  cases h with
  | param | result | type =>
    simp only [arguments, String.toList_append, List.append_assoc] at hc
    cases hc
    rfl
  | @other name text =>
    exact head_gapped_append (p := isTagChar) rfl rfl rfl text.toList hnext c hc

/-- A tag is read from its line. The readers of other tags refuse its name. -/
theorem tag?_line (h : Standard t) (hnext : Ends next) :
    tag? (t.line ++ next) = some (t, next) := by
  have hword := h.tagName_line hnext
  cases h with
  | @param name types text hname htypes htext =>
    have hline : line (.param name types .required text) ++ next = "@param".toList ++ ' ' ::
        '{' :: ((unionType types).toList ++ '}' ::
          ' ' :: (name.toList ++ (gapped text.toList ++ next))) := by
      simp [line, arguments, Tag.word, Tag.text]
    rw [tag?, hline, paramTag?_line hname htypes htext hnext, Option.some_or]
  | @result types text htypes htext =>
    have hline : line (.result types text) ++ next = "@return".toList ++ ' ' ::
        '{' :: ((unionType types).toList ++ '}' :: (gapped text.toList ++ next)) := by
      simp [line, arguments, Tag.word, Tag.text]
    have hparam : tagName (line (.result types text) ++ next) ≠ "param" := by
      rw [hword]
      simp [Tag.word]
    rw [tag?, paramTag?_eq_none hparam, Option.none_or, hline,
      resultTag?_line htypes htext hnext, Option.some_or]
  | @type types text htypes htext =>
    have hline : line (.type types text) ++ next = "@type".toList ++ ' ' ::
        '{' :: ((unionType types).toList ++ '}' :: (gapped text.toList ++ next)) := by
      simp [line, arguments, Tag.word, Tag.text]
    have hnames : tagName (line (.type types text) ++ next) ∉ ["param", "return", "returns"] := by
      rw [hword]
      simp [Tag.word]
    simp only [List.mem_cons, List.not_mem_nil, or_false, not_or] at hnames
    obtain ⟨hparam, hreturn, hreturns⟩ := hnames
    rw [tag?, paramTag?_eq_none hparam, resultTag?_eq_none hreturn hreturns, Option.none_or,
      Option.none_or, hline, typeTag?_line htypes htext hnext, Option.some_or]
  | @other name text hname htext =>
    have hline : line (.other name text) ++ next
        = '@' :: (name.toList ++ (gapped text.toList ++ next)) := by
      simp [line, arguments, Tag.word, Tag.text]
    have hnames : tagName (line (.other name text) ++ next)
        ∉ ["param", "return", "returns", "type"] := by
      rw [hword]
      exact hname.other
    simp only [List.mem_cons, List.not_mem_nil, or_false, not_or] at hnames
    obtain ⟨hparam, hreturn, hreturns, htype⟩ := hnames
    rw [tag?, paramTag?_eq_none hparam, resultTag?_eq_none hreturn hreturns,
      typeTag?_eq_none htype, Option.none_or, Option.none_or, Option.none_or, hline,
      otherTag?_line hname htext hnext]

theorem isNewline_arguments (h : Standard t) : ∀ c ∈ t.arguments.toList, isNewline c = false := by
  have htypes {types : List TypeName} (h : AreTypes types) :
      ∀ c ∈ (unionType types).toList, isNewline c = false :=
    fun c hc => isNewline_of_isBlank (h.isBlank_eq_false c hc)
  cases h with
  | @param name types _ hname h =>
    have hname : ∀ c ∈ name.toList, isNewline c = false :=
      fun c hc => isNewline_of_isBlank (isBlank_of_isNameChar (hname.chars c hc).1)
    simp only [arguments, String.toList_append, List.forall_mem_append]
    exact ⟨⟨⟨by simp [isNewline], htypes h⟩, by simp [isNewline]⟩, hname⟩
  | result h | type h =>
    simp only [arguments, String.toList_append, List.forall_mem_append]
    exact ⟨⟨by simp [isNewline], htypes h⟩, by simp [isNewline]⟩
  | other => simp [arguments]

theorem isNewline_written (h : Standard t) : ∀ c ∈ t.written.toList, isNewline c = false := by
  have hword : ∀ c ∈ t.word.toList, isNewline c = false :=
    fun c hc => isNewline_eq_false_of (by decide) (by decide) c (h.word.2 c hc)
  simp only [written, head, String.toList_append, List.forall_mem_append]
  exact ⟨⟨⟨⟨by simp [isNewline], hword⟩, h.isNewline_arguments⟩, by simp [isNewline]⟩, h.text.line⟩

/-- What a tag says besides its text starts with an `@` and ends with a brace or a name. -/
theorem solid_head (h : Standard t) : Solid t.head.toList := by
  have hname {name : String} (hne : name ≠ "") (hchars : ∀ c ∈ name.toList, isNameChar c = true) :
      ∃ c, name.toList.getLast? = some c ∧ Text.isBlank c = false := by
    have hnil := ne_nil_of_ne_empty hne
    exact ⟨_, List.getLast?_eq_some_getLast hnil,
      isBlank_of_isNameChar (hchars _ (List.getLast_mem hnil))⟩
  refine ⟨⟨'@', by simp [head], rfl⟩, ?_⟩
  cases h with
  | param h =>
    obtain ⟨c, hlast, hc⟩ := hname h.ne_empty fun c hc => (h.chars c hc).1
    refine ⟨c, ?_, hc⟩
    simp only [head, arguments, String.toList_append, List.getLast?_append, hlast, Option.some_or]
  | result | type =>
    refine ⟨'}', ?_, rfl⟩
    simp only [head, arguments, String.toList_append, List.getLast?_append]
    rfl
  | other h =>
    obtain ⟨c, hlast, hc⟩ := hname h.ne_empty fun c hc => isNameChar_of_isTagChar (h.chars c hc)
    refine ⟨c, ?_, hc⟩
    simp only [head, arguments, Tag.word, String.toList_append, List.getLast?_append, hlast,
      Option.some_or]
    rfl

theorem trim_written (h : Standard t) : Text.trim t.written.toList = t.line := by
  have hsplit : t.written.toList = t.head.toList ++ ' ' :: t.text.toList := by
    simp [written]
  rw [hsplit, trim_append_gap h.solid_head h.text.trimmed]
  simp [line, head]

theorem solid_line (h : Standard t) : Solid t.line := by
  have hline : t.line = t.head.toList ++ gapped t.text.toList := by
    simp [line, head]
  rw [hline]
  exact h.solid_head.append_gapped h.text.trimmed

theorem startsTag_line (h : Standard t) (cs : List Char) : startsTag (t.line ++ cs) = true := by
  obtain ⟨c, w, hw⟩ := List.exists_cons_of_ne_nil h.word.1
  refine startsTag_iff.2 ⟨c, w ++ (t.arguments.toList ++ gapped t.text.toList) ++ cs, ?_, ?_⟩
  · rw [line, hw]
    rfl
  · exact h.word.2 c (hw ▸ List.mem_cons_self)

end Standard

end Tag

/-! ### The whole comment -/

/-- Tags on lines of their own, each behind a line end. -/
def following (tags : List Tag) : List Char := tags.flatMap fun t => '\n' :: t.line

theorem joinWith_lines {ts : List (List Char)} (hne : ts ≠ []) (tags : List Tag) :
    Text.joinWith ['\n'] (ts ++ tags.map Tag.line) = Text.joinWith ['\n'] ts ++ following tags := by
  induction tags generalizing ts with
  | nil => simp [following]
  | cons t tags ih =>
    have hsplit : ts ++ (t :: tags).map Tag.line = (ts ++ [t.line]) ++ tags.map Tag.line := by simp
    rw [hsplit, ih (by simp), TypeName.joinWith_append hne (by simp), following, following,
      List.flatMap_cons]
    simp [Text.joinWith]

theorem dropWhile_of_startsTag {cs : List Char} (h : startsTag cs = true) :
    cs.dropWhile isNewline = cs := by
  obtain ⟨c, rest, rfl, -⟩ := startsTag_iff.1 h
  exact List.dropWhile_cons_of_neg (by decide)

theorem ends_following {tags : List Tag} (h : ∀ t ∈ tags, t.Standard) : Ends (following tags) := by
  cases tags with
  | nil => exact .inl rfl
  | cons t tags =>
    have hstarts := (h t List.mem_cons_self).startsTag_line (following tags)
    refine .inr (startsBreak_iff.2 ⟨⟨'\n', t.line ++ following tags, rfl, rfl⟩, ?_⟩)
    have hdrop : (following (t :: tags)).dropWhile isNewline
        = (t.line ++ following tags).dropWhile isNewline := rfl
    rw [hdrop, dropWhile_of_startsTag hstarts]
    exact hstarts

theorem tagsWithin_following {tags : List Tag} (h : ∀ t ∈ tags, t.Standard) {n : Nat}
    (hn : tags.length ≤ n) : tagsWithin n (following tags) = (tags, []) := by
  induction tags generalizing n with
  | nil =>
    cases n with
    | zero => rfl
    | succ n => rfl
  | cons t tags ih =>
    obtain ⟨ht, htags⟩ := List.forall_mem_cons.1 h
    obtain ⟨n, rfl⟩ : ∃ m, n = m + 1 := ⟨n - 1, by rw [List.length_cons] at hn; omega⟩
    have hnext : nextTag? (following (t :: tags)) = some (t, following tags) := by
      have hline : following (t :: tags) = '\n' :: (t.line ++ following tags) := rfl
      rw [hline, nextTag?, if_pos (by decide), dropWhile_of_startsTag (ht.startsTag_line _),
        ht.tag?_line (ends_following htags)]
    rw [tagsWithin, hnext]
    simp only [ih htags (Nat.le_of_succ_le_succ hn)]

theorem length_le_following (tags : List Tag) : tags.length ≤ (following tags).length := by
  induction tags with
  | nil => exact Nat.le_refl _
  | cons t tags ih =>
    rw [following, List.flatMap_cons, List.length_append, List.length_cons, List.length_cons]
    rw [following] at ih
    omega

/-- Behind what it begins with, all tags of a comment are read. -/
theorem readStripped?_following {cs : List Char} {b : Block} {tags : List Tag}
    (hopening : opening cs = (b, following tags)) (h : ∀ t ∈ tags, t.Standard) :
    readStripped? cs = some { b with tags := b.tags ++ tags } := by
  rw [readStripped?, hopening]
  simp only [tagsWithin_following h (length_le_following tags), List.all_nil, if_true]

namespace IsDescription

variable {text : String}

theorem solid (h : IsDescription text) : Solid text.toList :=
  solid_of_trim h.trimmed (ne_nil_of_ne_empty h.ne_empty)

theorem startsTag_eq_false (h : IsDescription text) (cs : List Char) :
    startsTag (text.toList ++ cs) = false := by
  rw [Bool.eq_false_iff]
  intro htag
  obtain ⟨c, rest, heq, -⟩ := startsTag_iff.1 htag
  obtain ⟨d, ds, hds⟩ := List.exists_cons_of_ne_nil (ne_nil_of_ne_empty h.ne_empty)
  rw [hds] at heq
  apply h.noTag
  rw [hds, List.head?_cons, (List.cons.inj heq).1]

theorem startsBreak_eq_false (h : IsDescription text) (cs : List Char) :
    startsBreak ('\n' :: (text.toList ++ cs)) = false := by
  obtain ⟨d, ds, hds⟩ := List.exists_cons_of_ne_nil (ne_nil_of_ne_empty h.ne_empty)
  have hd : isNewline d = false := h.line d (hds ▸ List.mem_cons_self)
  have hdrop : ('\n' :: (text.toList ++ cs)).dropWhile isNewline = text.toList ++ cs := by
    rw [List.dropWhile_cons_of_pos (by decide), hds, List.cons_append,
      List.dropWhile_cons_of_neg (by simp [hd])]
  rw [startsBreak, hdrop, h.startsTag_eq_false, Bool.and_false]

end IsDescription

theorem exists_joinWith_cons (sep t : List Char) (ts : List (List Char)) :
    ∃ rest, Text.joinWith sep (t :: ts) = t ++ rest := by
  cases ts with
  | nil => exact ⟨[], (List.append_nil t).symm⟩
  | cons u us => exact ⟨sep ++ Text.joinWith sep (u :: us), List.append_assoc ..⟩

/-- No line of a description is taken for a tag. -/
theorem takeText_description {lines : List String} (hne : lines ≠ [])
    (h : ∀ l ∈ lines, IsDescription l) {next : List Char} (hnext : Ends next) :
    takeText (Text.joinWith ['\n'] (lines.map String.toList) ++ next)
      = (Text.joinWith ['\n'] (lines.map String.toList), next) := by
  induction lines with
  | nil => exact absurd rfl hne
  | cons l lines ih =>
    obtain ⟨hl, hlines⟩ := List.forall_mem_cons.1 h
    cases lines with
    | nil => exact takeText_line hl.line hnext
    | cons l' lines =>
      have hbreak : startsBreak ('\n' ::
          (Text.joinWith ['\n'] ((l' :: lines).map String.toList) ++ next)) = false := by
        obtain ⟨rest, hrest⟩ := exists_joinWith_cons ['\n'] l'.toList (lines.map String.toList)
        rw [List.map_cons, hrest, List.append_assoc]
        exact (hlines l' List.mem_cons_self).startsBreak_eq_false (rest ++ next)
      rw [List.map_cons, TypeName.joinWith_cons _ (by simp), List.append_assoc,
        takeText_line_append hl.line, List.cons_append, takeText, hbreak,
        ih (by simp) hlines]
      rfl

section Comment

variable {description : List String} {tags : List Tag}

/-- Stripping leaves the lines of the description and those of the tags. -/
theorem strip_written (hdescription : ∀ l ∈ description, IsDescription l)
    (htags : ∀ t ∈ tags, t.Standard) :
    strip (written description tags).toList
      = Text.joinWith ['\n'] (description.map String.toList ++ tags.map Tag.line) := by
  have hlines : ∀ l ∈ description ++ tags.map Tag.written, ∀ c ∈ l.toList, isNewline c = false := by
    intro l hl
    rcases List.mem_append.1 hl with hl | hl
    · exact (hdescription l hl).line
    · obtain ⟨t, ht, rfl⟩ := List.mem_map.1 hl
      exact (htags t ht).isNewline_written
  have htrim : (description ++ tags.map Tag.written).map (fun l => Text.trim l.toList)
      = description.map String.toList ++ tags.map Tag.line := by
    have hleft : description.map (fun l => Text.trim l.toList) = description.map String.toList :=
      List.map_congr_left fun l hl => (hdescription l hl).trimmed
    have hright : (tags.map Tag.written).map (fun l => Text.trim l.toList) = tags.map Tag.line := by
      rw [List.map_map]
      refine List.map_congr_left fun t ht => ?_
      rw [Function.comp_apply, (htags t ht).trim_written]
    rw [List.map_append, hleft, hright]
  have hsolid : ∀ l ∈ description.map String.toList ++ tags.map Tag.line, Solid l := by
    intro l hl
    rcases List.mem_append.1 hl with hl | hl
    · obtain ⟨text, htext, rfl⟩ := List.mem_map.1 hl
      exact (hdescription text htext).solid
    · obtain ⟨t, ht, rfl⟩ := List.mem_map.1 hl
      exact (htags t ht).solid_line
  rw [written, strip_starred hlines, htrim]
  by_cases hnil : description.map String.toList ++ tags.map Tag.line = []
  · rw [hnil]
    rfl
  · exact (Solid.joinWith hnil hsolid).trim

/-- A comment without a description begins with its first tag. -/
theorem readStripped?_tags (htags : ∀ t ∈ tags, t.Standard) :
    readStripped? (Text.joinWith ['\n'] (tags.map Tag.line)) = some { tags := tags } := by
  cases tags with
  | nil => rfl
  | cons t tags =>
    obtain ⟨ht, htags⟩ := List.forall_mem_cons.1 htags
    have hlines : Text.joinWith ['\n'] ((t :: tags).map Tag.line) = t.line ++ following tags :=
      joinWith_lines (List.cons_ne_nil t.line []) tags
    have hopening : opening (t.line ++ following tags) = ({ tags := [t] }, following tags) := by
      rw [opening, ht.tag?_line (ends_following htags)]
    rw [hlines, readStripped?_following hopening htags]
    rfl

/-- A description ends in front of the first tag. -/
theorem readStripped?_description (hne : description ≠ [])
    (hdescription : ∀ l ∈ description, IsDescription l) (htags : ∀ t ∈ tags, t.Standard) :
    readStripped? (Text.joinWith ['\n'] (description.map String.toList ++ tags.map Tag.line))
      = some { text := "\n".intercalate description, tags := tags } := by
  have hmap : description.map String.toList ≠ [] := by simpa using hne
  have htext := takeText_description hne hdescription (ends_following htags)
  have htag :
      tag? (Text.joinWith ['\n'] (description.map String.toList) ++ following tags) = none := by
    rw [Option.eq_none_iff_forall_not_mem]
    intro ⟨t, rest⟩ hread
    obtain ⟨l, ls, rfl⟩ := List.exists_cons_of_ne_nil hne
    obtain ⟨behind, hbehind⟩ := exists_joinWith_cons ['\n'] l.toList (ls.map String.toList)
    have hstarts := (reads_tag? hread).starts
    rw [List.map_cons, hbehind, List.append_assoc,
      (hdescription l List.mem_cons_self).startsTag_eq_false] at hstarts
    cases hstarts
  have hkept : kept (Text.joinWith ['\n'] (description.map String.toList))
      = "\n".intercalate description := by
    have hsolid : Solid (Text.joinWith ['\n'] (description.map String.toList)) := by
      refine .joinWith hmap fun l hl => ?_
      obtain ⟨text, htext, rfl⟩ := List.mem_map.1 hl
      exact (hdescription text htext).solid
    apply String.toList_injective
    rw [kept, hsolid.trim, String.toList_ofList, Text.joinWith_eq_intercalate,
      String.toList_intercalate]
    rfl
  rw [joinWith_lines hmap]
  refine readStripped?_following (b := { text := "\n".intercalate description }) ?_ htags
  rw [opening, htag]
  simp only [htext, hkept]

end Comment

/-- A comment in its usual form is read back: its text is the lines of the description, and its tags
are those that were written. -/
theorem written_comments_are_read_back (description : List String) (tags : List Tag)
    (hdescription : ∀ line ∈ description, IsDescription line) (htags : ∀ t ∈ tags, t.Standard) :
    read? (written description tags)
      = some { text := "\n".intercalate description, tags := tags } := by
  rw [read?, strip_written hdescription htags]
  by_cases hnil : description = []
  · subst hnil
    exact readStripped?_tags htags
  · exact readStripped?_description hnil hdescription htags

/-- A comment with a line that starts with a star itself, a function type that returns one of two
types beside another type, and tags without a text. -/
theorem comment_of_repeat_is_read_back :
    let description := ["Repeats an action.", "* not more than ten times"]
    let tags := [.param "$action" ["Function():Number|String", "Null"] .required "what to do",
      .result ["Array<Number>"] "", .type ["Function"] "", .other "since" "2.1"]
    (∀ line ∈ description, IsDescription line) ∧ (∀ t ∈ tags, t.Standard) ∧
      read? (written description tags)
        = some { text := "Repeats an action.\n* not more than ten times", tags := tags } := by
  intro description tags
  have hdescription : ∀ line ∈ description, IsDescription line := by decide +kernel
  have hnumber : Encoding "Number" := .atom (by decide)
  have hstring : Encoding "String" := .atom (by decide)
  have haction : AreTypes ["Function():Number|String", "Null"] := by
    refine ⟨by simp, by simp, ?_, .inl (by simp)⟩
    have hsignature : Encoding "Function():Number|String" :=
      @Encoding.signature [] ["Number", "String"] (by simp) (by simp) (by simp)
        (by simpa using ⟨hnumber, hstring⟩)
    simpa using ⟨hsignature, .atom (by decide)⟩
  have hnumbers : AreTypes ["Array<Number>"] := by
    refine ⟨by simp, by simp, ?_, .inr (by decide)⟩
    have harray : TypeName.arrayTypeOf "Number" = "Array<Number>" := by decide +kernel
    rw [← harray]
    simpa using Encoding.array hnumber
  have hfunction : AreTypes ["Function"] := by
    refine ⟨by simp, by simp, ?_, .inr (by decide)⟩
    have hatom : Encoding "Function" := .atom (by decide)
    simpa using hatom
  have htags : ∀ t ∈ tags, t.Standard := by
    simp only [tags, List.forall_mem_cons, List.not_mem_nil, false_implies, implies_true, and_true]
    exact ⟨.param (by decide) haction (by decide), .result hnumbers (by decide),
      .type hfunction (by decide), .other (by decide) (by decide)⟩
  exact ⟨hdescription, htags, written_comments_are_read_back description tags hdescription htags⟩

end ScriptTypes.Doc
