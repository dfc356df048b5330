import ScriptTypes.Proofs.Grammar.Yields
import ScriptTypes.Proofs.TypeName.Shape
import ScriptTypes.Script.DocComments

/-!
# Comments are cut at their tag lines

A text ends where the comment ends or where line ends stand in front of the next tag. Every tag ends
with a text, and whatever starts like a tag can be read as a tag of some kind. So each tag ends
where the next one is due, nothing is left behind the last one, and every comment can be read.

A tag starts at an `@` with a character of names behind it, at the beginning of the comment or right
after a line end. Only braces and brackets take line ends into a tag in front of its text. In a
comment without them the tags are therefore those that start at these places.

Main statement: `comments_are_cut_at_tag_lines`.
-/

namespace ScriptTypes.Doc

open Grammar (Lexeme)

/-! ### Trimming -/

theorem isBlank_of_isNewline {c : Char} (h : isNewline c = true) : Text.isBlank c = true := by
  simp only [isNewline, Bool.or_eq_true, beq_iff_eq] at h
  obtain rfl | rfl := h <;> rfl

/-- Blanks at the end make no difference. -/
theorem trim_append {cs blanks : List Char} (h : ∀ c ∈ blanks, Text.isBlank c = true) :
    Text.trim (cs ++ blanks) = Text.trim cs := by
  have hright (as : List Char) :
      Text.dropRightWhile Text.isBlank (as ++ blanks) = Text.dropRightWhile Text.isBlank as := by
    rw [Text.dropRightWhile, Text.dropRightWhile, List.reverse_append, List.dropWhile_append_of_pos]
    simpa using h
  rw [Text.trim, Text.trim, List.dropWhile_append]
  split
  · rename_i hnil
    have hcs : cs.dropWhile Text.isBlank = [] := by simpa using hnil
    have hblanks : blanks.dropWhile Text.isBlank = [] := List.dropWhile_eq_nil_iff.2 h
    rw [hcs, hblanks]
  · exact hright _

/-! ### Where texts end -/

/-- A text ends here: at the end of the comment, or in front of the next tag. -/
def Ends (cs : List Char) : Prop := cs = [] ∨ startsBreak cs = true

theorem takeText_append (cs : List Char) : (takeText cs).1 ++ (takeText cs).2 = cs := by
  fun_induction takeText cs with
  | case1 => rfl
  | case2 => rfl
  | case3 c cs h text rest heq ih =>
    rw [heq] at ih
    exact congrArg (c :: ·) ih

theorem ends_takeText (cs : List Char) : Ends (takeText cs).2 := by
  fun_induction takeText cs with
  | case1 => exact .inl rfl
  | case2 c cs h => exact .inr h
  | case3 c cs h text rest heq ih =>
    rw [heq] at ih
    exact ih

theorem startsTag_iff {cs : List Char} :
    startsTag cs = true ↔ ∃ c rest, cs = '@' :: c :: rest ∧ isTagChar c = true := by
  match cs with
  | [] => simp [startsTag]
  | [a] => simp [startsTag]
  | a :: c :: rest =>
    by_cases ha : a = '@'
    · simp [ha, startsTag]
    · simp [ha, startsTag]

theorem startsBreak_iff {cs : List Char} :
    startsBreak cs = true ↔ (∃ c rest, cs = c :: rest ∧ isNewline c = true) ∧
      startsTag (cs.dropWhile isNewline) = true := by
  cases cs with
  | nil => simp [startsBreak]
  | cons c cs => simp [startsBreak]

theorem startsTag_eq_false_of_isNewline {c : Char} (h : isNewline c = true) (cs : List Char) :
    startsTag (c :: cs) = false := by
  rw [Bool.eq_false_iff]
  intro htag
  obtain ⟨_, _, heq, -⟩ := startsTag_iff.1 htag
  cases heq
  exact absurd h (by decide)

/-! ### What the readers pass over -/

/-- `rest` is an ending of `cs`, and what stands in front of it has no line ends unless `cs` has
braces or brackets. -/
def Passes (cs rest : List Char) : Prop :=
  ∃ taken, taken ++ rest = cs ∧
    ('{' ∉ cs → '[' ∉ cs → ∀ c ∈ taken, isNewline c = false)

namespace Passes

variable {cs mid rest : List Char}

theorem refl (cs : List Char) : Passes cs cs := ⟨[], rfl, by simp⟩

theorem trans (h : Passes cs mid) (h' : Passes mid rest) : Passes cs rest := by
  obtain ⟨taken, rfl, hline⟩ := h
  obtain ⟨taken', rfl, hline'⟩ := h'
  refine ⟨taken ++ taken', by simp, ?_⟩
  intro hbrace hbracket c hc
  rcases List.mem_append.1 hc with hc | hc
  · exact hline hbrace hbracket c hc
  · exact hline' (fun h => hbrace (List.mem_append_right _ h))
      (fun h => hbracket (List.mem_append_right _ h)) c hc

theorem of_append (taken rest : List Char) (h : ∀ c ∈ taken, isNewline c = false) :
    Passes (taken ++ rest) rest := ⟨taken, rfl, fun _ _ => h⟩

theorem dropWhile {p : Char → Bool} (hp : ∀ c, p c = true → isNewline c = false)
    (cs : List Char) : Passes cs (cs.dropWhile p) := by
  refine ⟨cs.takeWhile p, List.takeWhile_append_dropWhile, ?_⟩
  intro _ _ c hc
  exact hp c (List.mem_takeWhile_imp hc)

theorem run1 {p : Char → Bool} (hp : ∀ c, p c = true → isNewline c = false) {taken : List Char}
    (h : Lexeme.run1 p cs = some (taken, rest)) : Passes cs rest := by
  obtain ⟨x, mid, y, hx, hy, -⟩ := Grammar.Lexeme.of_andThen h
  obtain ⟨c, hc, -, rfl⟩ := Grammar.Lexeme.of_one hx
  cases hy
  exact (of_append [c] mid (by simpa using hp c hc)).trans (dropWhile hp mid)

/-- What follows an opening brace or bracket may stand on other lines. -/
theorem of_opening {c : Char} (hc : c = '{' ∨ c = '[') (h : rest <:+ cs) :
    Passes (c :: cs) rest := by
  obtain ⟨taken, rfl⟩ := h
  refine ⟨c :: taken, rfl, ?_⟩
  intro hbrace hbracket
  rcases hc with rfl | rfl
  · exact absurd List.mem_cons_self hbrace
  · exact absurd List.mem_cons_self hbracket

theorem length_le (h : Passes cs rest) : rest.length ≤ cs.length := by
  obtain ⟨taken, rfl, -⟩ := h
  simp

end Passes

theorem isGap_not_newline (c : Char) (h : isGap c = true) : isNewline c = false := by
  simp only [isGap, Bool.or_eq_true, beq_iff_eq] at h
  obtain rfl | rfl := h <;> rfl

theorem isNewline_eq_false_of {p : Char → Bool} (hfeed : p '\n' = false) (hreturn : p '\r' = false)
    (c : Char) (h : p c = true) : isNewline c = false := by
  rw [Bool.eq_false_iff]
  intro hc
  simp only [isNewline, Bool.or_eq_true, beq_iff_eq] at hc
  obtain rfl | rfl := hc
  · rw [hfeed] at h
    cases h
  · rw [hreturn] at h
    cases h

theorem passes_types? {cs rest : List Char} {types : List TypeName}
    (h : types? cs = some (types, rest)) : Passes cs rest := by
  match cs with
  | [] => cases h
  | c :: cs =>
    by_cases hc : c = '{'
    · subst hc
      obtain ⟨⟨inner, rest'⟩, hclose, heq⟩ := Option.map_eq_some_iff.1 h
      cases heq
      refine .of_opening (.inl rfl) ⟨inner ++ ['}'], ?_⟩
      rw [TypeName.splitAtClose_eq_some hclose, List.append_assoc]
      rfl
    · simp [types?, hc] at h

theorem passes_name? {cs rest : List Char} {name : String} (h : name? cs = some (name, rest)) :
    Passes cs rest := by
  obtain ⟨⟨taken, rest'⟩, hrun, heq⟩ := Option.map_eq_some_iff.1 h
  cases heq
  exact .run1 (isNewline_eq_false_of (by decide) (by decide)) hrun

theorem suffix_of_optionalName? {cs rest : List Char} {name : String}
    (h : optionalName? ('[' :: cs) = some (name, rest)) : rest <:+ cs := by
  have hsuffix {p : Char → Bool} {as bs : List Char} {c : Char} (h : as.dropWhile p = c :: bs) :
      bs <:+ as := ⟨as.takeWhile p ++ [c], by
    rw [List.append_assoc, List.singleton_append, ← h, List.takeWhile_append_dropWhile]⟩
  simp only [optionalName?, Option.bind_eq_bind, Option.bind_eq_some_iff] at h
  obtain ⟨⟨found, behind⟩, hname, h⟩ := h
  obtain ⟨taken, hbehind, -⟩ := passes_name? hname
  have hgap : behind <:+ cs := by
    have hmid : behind <:+ cs.dropWhile isGap := ⟨taken, hbehind⟩
    exact hmid.trans (List.dropWhile_suffix isGap)
  dsimp only at h
  split at h
  · rename_i rest' hclose
    cases h
    exact (hsuffix hclose).trans hgap
  · rename_i rest' hdefault
    split at h
    · rename_i rest'' hclose
      cases h
      exact (hsuffix hclose).trans ((hsuffix hdefault).trans hgap)
    · cases h
  · cases h

theorem passes_paramName? {cs rest : List Char} {use : Usage × String}
    (h : paramName? cs = some (use, rest)) : Passes cs rest := by
  rw [paramName?] at h
  split at h
  · rename_i name rest' hoptional
    cases h
    match cs with
    | [] => cases hoptional
    | c :: cs =>
      by_cases hc : c = '['
      · subst hc
        exact .of_opening (.inr rfl) (suffix_of_optionalName? hoptional)
      · simp [optionalName?, hc] at hoptional
  · split at h
    · rename_i name rest' hrest
      cases h
      obtain ⟨mid, hdots, hname⟩ := Option.bind_eq_some_iff.1 hrest
      rw [Text.dropPrefix?_eq_some_iff.1 hdots]
      exact (Passes.of_append _ mid (by simp [isNewline])).trans (passes_name? hname)
    · obtain ⟨⟨name, rest'⟩, hname, heq⟩ := Option.map_eq_some_iff.1 h
      cases heq
      exact passes_name? hname

/-! ### The name of a tag -/

/-- The name of the tag that starts here. -/
def tagName (cs : List Char) : String := String.ofList ((cs.drop 1).takeWhile isTagChar)

theorem tagName_append {name rest : List Char} (hname : ∀ c ∈ name, isTagChar c = true)
    (hrest : ∀ c ∈ rest.head?, isTagChar c = false) :
    tagName ('@' :: name ++ rest) = String.ofList name := by
  rw [tagName, List.cons_append, List.drop_one, List.tail_cons, List.takeWhile_append_of_pos hname]
  cases rest with
  | nil => simp
  | cons c rest => simp [hrest c rfl]

/-- How the name of a tag is written. -/
structure Spells (name word : String) : Prop where
  toList : name.toList = '@' :: word.toList
  ne_nil : word.toList ≠ []
  chars : ∀ c ∈ word.toList, isTagChar c = true

theorem spells_param : Spells "@param" "param" := ⟨rfl, by simp, List.all_eq_true.1 rfl⟩

theorem spells_return : Spells "@return" "return" := ⟨rfl, by simp, List.all_eq_true.1 rfl⟩

theorem spells_returns : Spells "@returns" "returns" := ⟨rfl, by simp, List.all_eq_true.1 rfl⟩

theorem spells_type : Spells "@type" "type" := ⟨rfl, by simp, List.all_eq_true.1 rfl⟩

/-- Behind its name, the beginning of a tag is passed over. -/
structure AfterName (word : String) (cs rest : List Char) : Prop where
  starts : startsTag cs = true
  tagName : tagName cs = word
  passes : Passes cs rest
  length_lt : rest.length < cs.length

theorem afterName_of_afterName? {name word : String} (hname : Spells name word)
    {cs rest : List Char} (h : afterName? name cs = some rest) : AfterName word cs rest := by
  have hstarts (tail : List Char) : startsTag ('@' :: word.toList ++ tail) = true := by
    obtain ⟨c, w, hw⟩ := List.exists_cons_of_ne_nil hname.ne_nil
    refine startsTag_iff.2 ⟨c, w ++ tail, ?_, hname.chars c (hw ▸ List.mem_cons_self)⟩
    rw [hw]
    rfl
  have hline : ∀ c ∈ '@' :: word.toList, isNewline c = false := by
    intro c hc
    rcases List.mem_cons.1 hc with rfl | hc
    · rfl
    · exact isNewline_eq_false_of (by decide) (by decide) c (hname.chars c hc)
  rw [afterName?, hname.toList] at h
  split at h
  · rename_i hdrop
    cases h
    rw [Text.dropPrefix?_eq_some_iff.1 hdrop]
    refine ⟨hstarts [], ?_, .of_append _ [] hline, by simp⟩
    rw [tagName_append hname.chars (by simp), String.ofList_toList]
  · rename_i c tail hdrop
    split at h
    · cases h
    · rename_i hc
      cases h
      rw [Text.dropPrefix?_eq_some_iff.1 hdrop]
      have hgap := Passes.dropWhile isGap_not_newline (c :: tail)
      refine ⟨hstarts _, ?_, (Passes.of_append _ _ hline).trans hgap, ?_⟩
      · rw [tagName_append hname.chars (by simpa using hc), String.ofList_toList]
      · have := hgap.length_le
        simp only [List.length_append, List.length_cons] at this ⊢
        omega
  · cases h

/-! ### Tags -/

/-- A tag was read from `cs` and ended with a text that left `rest`. -/
structure Reads (cs : List Char) (t : Tag) (rest : List Char) : Prop where
  starts : startsTag cs = true
  answers : t.answersTo (tagName cs) = true
  text : ∃ mid, Passes cs mid ∧ mid.length < cs.length ∧ (takeText mid).2 = rest

namespace Reads

variable {cs rest : List Char} {t : Tag}

theorem ends (h : Reads cs t rest) : Ends rest := by
  obtain ⟨-, -, mid, -, -, rfl⟩ := h
  exact ends_takeText mid

theorem suffix (h : Reads cs t rest) : rest <:+ cs := by
  obtain ⟨-, -, mid, ⟨taken, rfl, -⟩, -, rfl⟩ := h
  refine ⟨taken ++ (takeText mid).1, ?_⟩
  rw [List.append_assoc, takeText_append]

theorem length_lt (h : Reads cs t rest) : rest.length < cs.length := by
  obtain ⟨-, -, mid, -, hlt, rfl⟩ := h
  have happend := congrArg List.length (takeText_append mid)
  rw [List.length_append] at happend
  omega

theorem of_afterName {word : String} {after mid : List Char} (h : AfterName word cs after)
    (hmid : Passes after mid) (hanswers : t.answersTo word = true) :
    Reads cs t (takeText mid).2 := by
  refine ⟨h.starts, h.tagName ▸ hanswers, mid, h.passes.trans hmid, ?_, rfl⟩
  have := hmid.length_le
  have := h.length_lt
  omega

end Reads

theorem reads_paramTag? {cs rest : List Char} {t : Tag} (h : paramTag? cs = some (t, rest)) :
    Reads cs t rest := by
  simp only [paramTag?, Option.bind_eq_bind, Option.bind_eq_some_iff] at h
  obtain ⟨after, hafter, ⟨⟨usage, name⟩, mid⟩, hname, heq⟩ := h
  cases heq
  have hmid : Passes after mid := by
    cases htypes : types? after with
    | none =>
      rw [htypes] at hname
      exact passes_paramName? hname
    | some found =>
      obtain ⟨types, braced⟩ := found
      rw [htypes] at hname
      have hgap : Passes after (braced.dropWhile isGap) :=
        (passes_types? htypes).trans (.dropWhile isGap_not_newline braced)
      exact hgap.trans (passes_paramName? hname)
  exact .of_afterName (afterName_of_afterName? spells_param hafter) hmid rfl

theorem reads_resultTag? {cs rest : List Char} {t : Tag} (h : resultTag? cs = some (t, rest)) :
    Reads cs t rest := by
  simp only [resultTag?, Option.bind_eq_bind, Option.bind_eq_some_iff] at h
  obtain ⟨after, hafter, heq⟩ := h
  cases heq
  have htypes : Passes after ((types? after).getD ([], after)).2 := by
    cases htypes : types? after with
    | none => exact .refl after
    | some found => exact passes_types? htypes
  rw [Option.or_eq_some_iff] at hafter
  rcases hafter with hafter | ⟨-, hafter⟩
  · exact .of_afterName (afterName_of_afterName? spells_returns hafter) htypes rfl
  · exact .of_afterName (afterName_of_afterName? spells_return hafter) htypes rfl

theorem reads_typeTag? {cs rest : List Char} {t : Tag} (h : typeTag? cs = some (t, rest)) :
    Reads cs t rest := by
  simp only [typeTag?, Option.bind_eq_bind, Option.bind_eq_some_iff] at h
  obtain ⟨after, hafter, ⟨types, mid⟩, htypes, heq⟩ := h
  cases heq
  have hmid : Passes after mid := by
    rw [Option.or_eq_some_iff] at htypes
    rcases htypes with htypes | ⟨-, hbare⟩
    · exact passes_types? htypes
    · obtain ⟨⟨taken, rest'⟩, hrun, heq⟩ := Option.map_eq_some_iff.1 hbare
      cases heq
      exact .run1 (isNewline_eq_false_of (by decide) (by decide)) hrun
  exact .of_afterName (afterName_of_afterName? spells_type hafter) hmid rfl

theorem otherTag?_of_startsTag {cs : List Char} (h : startsTag cs = true) :
    ∃ t rest, otherTag? cs = some (t, rest) ∧ Reads cs t rest := by
  obtain ⟨c, tail, rfl, hc⟩ := startsTag_iff.1 h
  refine ⟨.other (String.ofList (c :: tail.takeWhile isTagChar))
    (kept (takeText (tail.dropWhile isTagChar)).1), (takeText (tail.dropWhile isTagChar)).2, ?_,
    h, ?_, tail.dropWhile isTagChar, ?_, ?_, rfl⟩
  · simp [otherTag?, Grammar.Lexeme.run1, Grammar.Lexeme.andThen, Grammar.Lexeme.one,
      Grammar.Lexeme.run, hc]
  · simp [Tag.answersTo, tagName, hc]
  · have hline := isNewline_eq_false_of (p := isTagChar) (by decide) (by decide)
    have hpair : Passes ('@' :: c :: tail) tail :=
      .of_append ['@', c] tail (by simpa using ⟨by decide, hline c hc⟩)
    exact hpair.trans (.dropWhile hline tail)
  · have := (List.dropWhile_suffix (l := tail) isTagChar).length_le
    simp only [List.length_cons]
    omega

theorem reads_otherTag? {cs rest : List Char} {t : Tag} (h : otherTag? cs = some (t, rest)) :
    Reads cs t rest := by
  have htag : startsTag cs = true := by
    match cs with
    | [] => cases h
    | a :: cs =>
      by_cases ha : a = '@'
      · subst ha
        obtain ⟨⟨name, behind⟩, hrun, -⟩ := Option.map_eq_some_iff.1 h
        obtain ⟨x, mid, y, hx, -, -⟩ := Grammar.Lexeme.of_andThen hrun
        obtain ⟨c, hc, -, rfl⟩ := Grammar.Lexeme.of_one hx
        exact startsTag_iff.2 ⟨c, mid, rfl, hc⟩
      · simp [otherTag?, ha] at h
  obtain ⟨t', rest', h', hreads⟩ := otherTag?_of_startsTag htag
  rw [h'] at h
  cases h
  exact hreads

theorem reads_tag? {cs rest : List Char} {t : Tag} (h : tag? cs = some (t, rest)) :
    Reads cs t rest := by
  rw [tag?, Option.or_eq_some_iff, Option.or_eq_some_iff, Option.or_eq_some_iff] at h
  rcases h with h | ⟨-, h | ⟨-, h | ⟨-, h⟩⟩⟩
  · exact reads_paramTag? h
  · exact reads_resultTag? h
  · exact reads_typeTag? h
  · exact reads_otherTag? h

/-- What starts like a tag can be read as one. -/
theorem exists_tag? {cs : List Char} (h : startsTag cs = true) :
    ∃ t rest, tag? cs = some (t, rest) := by
  obtain ⟨t, rest, hother, -⟩ := otherTag?_of_startsTag h
  have hsome : (tag? cs).isSome = true := by
    rw [tag?, hother]
    simp
  obtain ⟨⟨t, rest⟩, htag⟩ := Option.isSome_iff_exists.1 hsome
  exact ⟨t, rest, htag⟩

theorem exists_nextTag? {cs : List Char} (h : startsBreak cs = true) :
    ∃ t rest, nextTag? cs = some (t, rest) ∧ Reads (cs.dropWhile isNewline) t rest := by
  obtain ⟨⟨c, tail, rfl, hc⟩, htag⟩ := startsBreak_iff.1 h
  obtain ⟨t, rest, hread⟩ := exists_tag? htag
  refine ⟨t, rest, ?_, reads_tag? hread⟩
  rw [nextTag?, if_pos hc, ← hread, List.dropWhile_cons_of_pos hc]

/-! ### Where tags start -/

/-- Does a tag start at a position: at the beginning, or right after a line end? -/
def isTagStart (cs : List Char) (i : Nat) : Bool :=
  (i == 0 || cs[i - 1]?.any isNewline) && startsTag (cs.drop i)

/-- The positions at which tags start. -/
def tagStarts (cs : List Char) : List Nat := (List.range cs.length).filter (isTagStart cs)

/-- What stands in front of the first tag. -/
def textPart (cs : List Char) : List Char := cs.take ((tagStarts cs).headD cs.length)

/-- The same places as endings of the text. A tag may start right here if `fresh` says so. -/
def tagEndings : (fresh : Bool) → List Char → List (List Char)
  | _, [] => []
  | fresh, c :: cs =>
    if fresh && startsTag (c :: cs) then (c :: cs) :: tagEndings (isNewline c) cs
    else tagEndings (isNewline c) cs

theorem map_drop_filter_isTagStart (before cs : List Char) :
    (((List.range cs.length).filter fun j => isTagStart (before ++ cs) (before.length + j)).map
      fun j => cs.drop j) = tagEndings (before.getLast?.all isNewline) cs := by
  induction cs generalizing before with
  | nil => rfl
  | cons c cs ih =>
    have hhere : isTagStart (before ++ c :: cs) before.length
        = (before.getLast?.all isNewline && startsTag (c :: cs)) := by
      rw [isTagStart, List.drop_left]
      congr 1
      cases before using List.reverseRecOn with
      | nil => rfl
      | append_singleton before b => simp
    have hlater (j : Nat) : isTagStart (before ++ c :: cs) (before.length + (j + 1))
        = isTagStart ((before ++ [c]) ++ cs) ((before ++ [c]).length + j) := by
      rw [List.append_assoc, List.singleton_append, List.length_append, List.length_singleton]
      congr 1
      omega
    have hrest : (((List.range cs.length).filter fun j =>
        isTagStart (before ++ c :: cs) (before.length + (j + 1))).map fun j => cs.drop j)
        = tagEndings (isNewline c) cs := by
      simp only [hlater]
      rw [ih]
      simp
    rw [List.length_cons, List.range_succ_eq_map, List.filter_cons, Nat.add_zero, hhere, tagEndings,
      List.filter_map, ← hrest]
    split
    · simp [Function.comp_def]
    · simp [Function.comp_def]

theorem map_drop_tagStarts (cs : List Char) :
    (tagStarts cs).map (fun i => cs.drop i) = tagEndings true cs := by
  have h := map_drop_filter_isTagStart [] cs
  simpa [tagStarts] using h

theorem tagEndings_of_not_startsTag {cs : List Char} (h : startsTag cs = false) :
    tagEndings true cs = tagEndings false cs := by
  cases cs with
  | nil => rfl
  | cons c cs => simp [tagEndings, h]

theorem tagEndings_of_startsTag {cs : List Char} (h : startsTag cs = true) :
    tagEndings true cs = cs :: tagEndings false cs := by
  cases cs with
  | nil => cases h
  | cons c cs => simp [tagEndings, h]

/-- No tag starts inside of a line. -/
theorem tagEndings_append {taken : List Char} (h : ∀ c ∈ taken, isNewline c = false)
    (cs : List Char) : tagEndings false (taken ++ cs) = tagEndings false cs := by
  induction taken with
  | nil => rfl
  | cons c taken ih =>
    obtain ⟨hc, htaken⟩ := List.forall_mem_cons.1 h
    rw [List.cons_append, tagEndings, hc, Bool.false_and, if_neg Bool.false_ne_true, ih htaken]

/-- No tag starts inside of a text. -/
theorem tagEndings_takeText (cs : List Char) :
    tagEndings false (takeText cs).2 = tagEndings false cs := by
  fun_induction takeText cs with
  | case1 => rfl
  | case2 => rfl
  | case3 c cs h text rest heq ih =>
    rw [heq] at ih
    rw [ih, tagEndings, Bool.false_and, if_neg Bool.false_ne_true]
    cases hc : isNewline c with
    | false => rfl
    | true =>
      refine (tagEndings_of_not_startsTag ?_).symm
      -- a tag behind the line end would have ended the text
      rw [Bool.eq_false_iff]
      intro htag
      refine h (startsBreak_iff.2 ⟨⟨c, cs, rfl, hc⟩, ?_⟩)
      obtain ⟨_, _, rfl, -⟩ := startsTag_iff.1 htag
      rw [List.dropWhile_cons_of_pos hc]
      exact htag

theorem tagEndings_dropWhile {cs : List Char} (h : ∀ c ∈ cs.head?, isNewline c = true) :
    tagEndings false cs = tagEndings true (cs.dropWhile isNewline) := by
  induction cs with
  | nil => rfl
  | cons c cs ih =>
    have hc : isNewline c = true := h c rfl
    rw [List.dropWhile_cons_of_pos hc, tagEndings, Bool.false_and, if_neg Bool.false_ne_true, hc]
    cases cs with
    | nil => rfl
    | cons d cs =>
      cases hd : isNewline d with
      | false => rw [List.dropWhile_cons_of_neg (by simp [hd])]
      | true =>
        rw [tagEndings_of_not_startsTag (startsTag_eq_false_of_isNewline hd cs)]
        exact ih (by simpa using hd)

theorem tagEndings_of_startsBreak {cs : List Char} (h : startsBreak cs = true) :
    tagEndings false cs = cs.dropWhile isNewline :: tagEndings false (cs.dropWhile isNewline) := by
  obtain ⟨⟨c, tail, rfl, hc⟩, htag⟩ := startsBreak_iff.1 h
  rw [tagEndings_dropWhile (by simpa using hc), tagEndings_of_startsTag htag]

/-- A tag reaches to where the next one starts. -/
theorem Reads.tagEndings_eq {cs rest : List Char} {t : Tag} (h : Reads cs t rest)
    (hbrace : '{' ∉ cs) (hbracket : '[' ∉ cs) : tagEndings false cs = tagEndings false rest := by
  obtain ⟨-, -, mid, ⟨taken, rfl, hline⟩, -, rfl⟩ := h
  rw [tagEndings_takeText, tagEndings_append (hline hbrace hbracket)]

/-! ### The whole comment -/

/-- The tag answers to the name that stands behind the `@` here. -/
def Named (here : List Char) (t : Tag) : Prop := t.answersTo (tagName here) = true

theorem tagsWithin_spec {n : Nat} {cs : List Char} (hn : cs.length ≤ n) (h : Ends cs) :
    (tagsWithin n cs).2 = [] ∧ ('{' ∉ cs → '[' ∉ cs →
      List.Forall₂ Named (tagEndings false cs) (tagsWithin n cs).1) := by
  induction n generalizing cs with
  | zero =>
    obtain rfl := List.eq_nil_of_length_eq_zero (Nat.le_zero.1 hn)
    exact ⟨rfl, fun _ _ => .nil⟩
  | succ n ih =>
    rcases h with rfl | hbreak
    · exact ⟨rfl, fun _ _ => .nil⟩
    · obtain ⟨t, rest, hnext, hreads⟩ := exists_nextTag? hbreak
      have hsuffix : cs.dropWhile isNewline <:+ cs := List.dropWhile_suffix isNewline
      have hlength : rest.length ≤ n := by
        have := hreads.length_lt
        have := hsuffix.length_le
        omega
      obtain ⟨hnil, htags⟩ := ih hlength hreads.ends
      have hstep : tagsWithin (n + 1) cs
          = (t :: (tagsWithin n rest).1, (tagsWithin n rest).2) := by
        rw [tagsWithin, hnext]
      rw [hstep]
      refine ⟨hnil, ?_⟩
      intro hbrace hbracket
      have hbrace' : '{' ∉ cs.dropWhile isNewline := fun hmem => hbrace (hsuffix.mem hmem)
      have hbracket' : '[' ∉ cs.dropWhile isNewline := fun hmem => hbracket (hsuffix.mem hmem)
      rw [tagEndings_of_startsBreak hbreak, hreads.tagEndings_eq hbrace' hbracket']
      exact .cons hreads.answers (htags (fun hmem => hbrace' (hreads.suffix.mem hmem))
        fun hmem => hbracket' (hreads.suffix.mem hmem))

/-- The part in front of the first tag is what stands in front of the first ending with a tag. -/
theorem textPart_eq {cs before behind : List Char} {endings : List (List Char)}
    (happend : before ++ behind = cs) (h : tagEndings true cs = behind :: endings) :
    textPart cs = before := by
  rw [← map_drop_tagStarts] at h
  cases hstarts : tagStarts cs with
  | nil =>
    rw [hstarts] at h
    cases h
  | cons i starts =>
    rw [hstarts, List.map_cons, List.cons.injEq] at h
    have htake : cs.take i ++ behind = before ++ behind := by
      rw [happend, ← h.1, List.take_append_drop]
    rw [textPart, hstarts, List.headD_cons]
    exact List.append_cancel_right htake

theorem textPart_eq_self {cs : List Char} (h : tagEndings true cs = []) : textPart cs = cs := by
  rw [← map_drop_tagStarts, List.map_eq_nil_iff] at h
  rw [textPart, h, List.headD_nil, List.take_length]

/-- A comment opens with a tag that starts there, or else with the text in front of the first. -/
theorem opening_spec (cs : List Char) :
    Ends (opening cs).2 ∧ (opening cs).1.text = kept (textPart cs) ∧ (opening cs).2 <:+ cs ∧
      ('{' ∉ cs → '[' ∉ cs → ∃ here, tagEndings true cs = here ++ tagEndings false (opening cs).2 ∧
        List.Forall₂ Named here (opening cs).1.tags) := by
  rw [opening]
  split
  · rename_i t rest htag
    have hreads := reads_tag? htag
    have hendings := tagEndings_of_startsTag hreads.starts
    refine ⟨hreads.ends, ?_, hreads.suffix, ?_⟩
    · rw [textPart_eq (List.nil_append cs) hendings]
      rfl
    · intro hbrace hbracket
      refine ⟨[cs], ?_, .cons hreads.answers .nil⟩
      rw [hendings, hreads.tagEndings_eq hbrace hbracket, List.singleton_append]
  · rename_i hnone
    have hstarts : startsTag cs = false := by
      rw [Bool.eq_false_iff]
      intro hstarts
      obtain ⟨t, rest, htag⟩ := exists_tag? hstarts
      rw [hnone] at htag
      cases htag
    have hendings : tagEndings true cs = tagEndings false (takeText cs).2 := by
      rw [tagEndings_of_not_startsTag hstarts, tagEndings_takeText]
    have happend := takeText_append cs
    refine ⟨ends_takeText cs, ?_, ⟨(takeText cs).1, happend⟩, fun _ _ => ⟨[], hendings, .nil⟩⟩
    rcases ends_takeText cs with hnil | hbreak
    · rw [hnil] at hendings happend
      rw [textPart_eq_self hendings]
      exact congrArg kept ((List.append_nil _).symm.trans happend)
    · -- the line ends in front of the tag are trimmed off
      have hsplit : ((takeText cs).1 ++ (takeText cs).2.takeWhile isNewline)
          ++ (takeText cs).2.dropWhile isNewline = cs := by
        rw [List.append_assoc, List.takeWhile_append_dropWhile, happend]
      rw [tagEndings_of_startsBreak hbreak] at hendings
      have hblank : ∀ c ∈ (takeText cs).2.takeWhile isNewline, Text.isBlank c = true :=
        fun c hc => isBlank_of_isNewline (List.mem_takeWhile_imp hc)
      rw [textPart_eq hsplit hendings]
      exact congrArg String.ofList (trim_append hblank).symm

theorem readStripped?_spec (cs : List Char) :
    ∃ b, readStripped? cs = some b ∧ b.text = kept (textPart cs) ∧
      ('{' ∉ cs → '[' ∉ cs → List.Forall₂ Named (tagEndings true cs) b.tags) := by
  obtain ⟨hends, htext, hsuffix, htags⟩ := opening_spec cs
  obtain ⟨hnil, hfurther⟩ := tagsWithin_spec (Nat.le_refl _) hends
  refine ⟨{ (opening cs).1 with
    tags := (opening cs).1.tags ++ (tagsWithin (opening cs).2.length (opening cs).2).1 },
    ?_, htext, ?_⟩
  · simp only [readStripped?, hnil]
    rfl
  · intro hbrace hbracket
    obtain ⟨here, hendings, hhere⟩ := htags hbrace hbracket
    rw [hendings]
    exact List.rel_append hhere (hfurther (fun hmem => hbrace (hsuffix.mem hmem))
      fun hmem => hbracket (hsuffix.mem hmem))

/-- Every comment can be read, so that none of those found in a script is left out. Its text is what
stands in front of the first tag; in a comment without braces and brackets the tags are those that
start at the places of tags, in their order, each answering to the name that is written there. -/
theorem comments_are_cut_at_tag_lines :
    (∀ comment : String, ∃ b, read? comment = some b ∧
      b.text = kept (textPart (strip comment.toList)) ∧
      ('{' ∉ strip comment.toList → '[' ∉ strip comment.toList →
        List.Forall₂ (fun i t => Tag.answersTo (tagName ((strip comment.toList).drop i)) t = true)
          (tagStarts (strip comment.toList)) b.tags)) ∧
    ∀ comments target, (Script.DocComments.blockAt? comments target).isSome
      = (Script.DocComments.at? comments target).isSome := by
  constructor
  · intro comment
    obtain ⟨b, hread, htext, htags⟩ := readStripped?_spec (strip comment.toList)
    refine ⟨b, hread, htext, fun hbrace hbracket => ?_⟩
    have hnamed := htags hbrace hbracket
    rw [← map_drop_tagStarts, List.forall₂_map_left_iff] at hnamed
    exact hnamed
  · intro comments target
    rw [Script.DocComments.blockAt?]
    cases Script.DocComments.at? comments target with
    | none => rfl
    | some c =>
      obtain ⟨b, hread, -⟩ := readStripped?_spec (strip c.text.toList)
      rw [Option.bind_some, read?, hread, Option.isSome_some, Option.isSome_some]

/-- Two tags without what they ask for, and two at signs that start no tag. -/
theorem malformed_tags_are_cut : ∃ b,
    read? "/** a@b\n * @param\n * @ x\n * @type */" = some b ∧ b.text = "a@b" ∧
    List.Forall₂ (fun name t => Tag.answersTo name t = true) ["param", "type"] b.tags := by
  obtain ⟨b, hread, htext, htags⟩ :=
    comments_are_cut_at_tag_lines.1 "/** a@b\n * @param\n * @ x\n * @type */"
  have hstrip : strip "/** a@b\n * @param\n * @ x\n * @type */".toList
      = "a@b\n@param\n@ x\n@type".toList := by decide +kernel
  rw [hstrip] at htext htags
  refine ⟨b, hread, htext.trans (by decide +kernel), ?_⟩
  have hnamed := htags (by decide) (by decide)
  have hstarts : tagStarts "a@b\n@param\n@ x\n@type".toList = [4, 15] := by decide +kernel
  have hnames : ["param", "type"]
      = [4, 15].map fun i => tagName ("a@b\n@param\n@ x\n@type".toList.drop i) := by decide +kernel
  rw [hstarts] at hnamed
  rw [hnames, List.forall₂_map_left_iff]
  exact hnamed

end ScriptTypes.Doc
