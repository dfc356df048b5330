import ScriptTypes.Proofs.Duplicates
import ScriptTypes.Proofs.Script.Opening
import ScriptTypes.Proofs.Script.Spelled
import ScriptTypes.Script.DocComments

/-!
# The documentation comments of a script

Documentation comments are found by a scan that knows comments, strings and templates, but not the
grammar. Over the pieces of a script it stays in step with the parse, as long as no regular
expression misleads it: one in which a comment begins, or a string or template that ends outside of
it.

Main statement: `scan_finds_skipped_comments`. Without regular expressions that mislead, the scan
finds exactly the documentation comments that the parse skips.
-/

namespace ScriptTypes.Script

open Grammar (Piece Spells)

namespace Lexeme

/-- Is a comment one for documentation? -/
def isDoc (w : List Char) : Bool :=
  ['/', '*', '*'].isPrefixOf w && w != ['/', '*', '*', '/']

/-- The closing mark of a comment is part of it. -/
theorem subset_of_through {stop cs taken rest : List Char}
    (h : Grammar.Lexeme.through stop cs = some (taken, rest)) : stop ⊆ taken := by
  induction cs generalizing taken with
  | nil =>
    rw [Grammar.Lexeme.through] at h
    split at h
    · rename_i hstop
      rw [List.isEmpty_iff.1 hstop]
      exact List.nil_subset _
    · cases h
  | cons c cs ih =>
    rw [Grammar.Lexeme.through] at h
    split at h
    · cases h
      exact List.Subset.refl _
    · obtain ⟨⟨x, rest'⟩, hx, heq⟩ := Option.map_eq_some_iff.1 h
      cases heq
      exact List.subset_cons_of_subset _ (ih hx)

theorem comment_block (cs : List Char) :
    comment ('/' :: '*' :: cs) = (Grammar.Lexeme.through ['*', '/'] cs).map
      fun (x, rest) => ('/' :: '*' :: x, rest) := by
  have hblock : blockComment ('/' :: '*' :: cs) = (Grammar.Lexeme.through ['*', '/'] cs).map
      fun (x, rest) => ('/' :: '*' :: x, rest) := rfl
  rw [comment, Grammar.Lexeme.orElse, hblock]
  cases Grammar.Lexeme.through ['*', '/'] cs <;> rfl

theorem docComment_block {c : Char} (hc : c ≠ '/') (cs : List Char) :
    docComment ('/' :: '*' :: '*' :: c :: cs) = (Grammar.Lexeme.through ['*', '/'] (c :: cs)).map
      fun (x, rest) => ('/' :: '*' :: '*' :: x, rest) := by
  have hmark : Grammar.Lexeme.unlessNext (Grammar.Lexeme.exactly ['/', '*', '*']) (· == '/')
      ('/' :: '*' :: '*' :: c :: cs) = some (['/', '*', '*'], c :: cs) := by
    simp [Grammar.Lexeme.unlessNext, Grammar.Lexeme.exactly, Text.dropPrefix?, hc]
  rw [docComment, Grammar.Lexeme.andThen, hmark]
  rfl

theorem through_star {c : Char} (hc : c ≠ '/') (cs : List Char) :
    Grammar.Lexeme.through ['*', '/'] ('*' :: c :: cs)
      = (Grammar.Lexeme.through ['*', '/'] (c :: cs)).map fun (x, rest) => ('*' :: x, rest) := by
  rw [Grammar.Lexeme.through]
  simp [Text.dropPrefix?, hc.symm]

theorem isDoc_of_mem {w : List Char} (h : '*' ∈ w) : isDoc ('/' :: '*' :: '*' :: w) = true := by
  have hne : w ≠ ['/'] := by
    rintro rfl
    simp at h
  simp [isDoc, hne]

/-- The comments for documentation are those comments that start with two stars and are not
empty. -/
theorem docComment_eq (cs : List Char) :
    docComment cs = (comment cs).filter (isDoc ·.1) := by
  by_cases h : ['/', '*', '*'] <+: cs
  · obtain ⟨cs, rfl⟩ := h
    match cs with
    | [] => rfl
    | c :: cs =>
      by_cases hc : c = '/'
      · rw [hc]
        rfl
      · rw [List.cons_append, List.cons_append, List.cons_append, List.nil_append,
          docComment_block hc, comment_block, through_star hc]
        cases hx : Grammar.Lexeme.through ['*', '/'] (c :: cs) with
        | none => rfl
        | some x =>
          have hdoc := isDoc_of_mem (subset_of_through hx List.mem_cons_self)
          simp [Option.filter, hdoc]
  · have hnone : docComment cs = none := by
      refine Option.eq_none_iff_forall_ne_some.2 fun ⟨w, rest⟩ hw => h ?_
      obtain ⟨x, mid, y, hx, -, -⟩ := Grammar.Lexeme.of_andThen hw
      obtain ⟨-, rfl⟩ := Grammar.Lexeme.of_exactly (Grammar.Lexeme.of_unlessNext hx)
      exact List.prefix_append _ _
    rw [hnone, eq_comm, Option.filter_eq_none_iff]
    intro ⟨w, rest⟩ hw hdoc
    have hstars : ['/', '*', '*'] <+: w :=
      List.isPrefixOf_iff_prefix.1 (Bool.and_eq_true_iff.1 hdoc).1
    rw [← Takes.comment.splits cs w rest hw] at h
    exact h (hstars.trans (List.prefix_append w rest))

end Lexeme

/-! ### Steps of the scan -/

/-- The offset of the first character of a text that is not blank. -/
def targetOf (offset : Nat) (cs : List Char) : Nat :=
  offset + Text.byteSize (cs.takeWhile Text.isBlank)

/-- The comment `w` at an offset and in front of `rest`, if it is one for documentation. -/
def noted (offset : Nat) (w rest : List Char) : List DocComment :=
  if Lexeme.isDoc w then [⟨targetOf (offset + Text.byteSize w) rest, String.ofList w⟩] else []

namespace DocComments

variable {offset : Nat} {cs w rest : List Char}

theorem scanFrom_succ (passed offset : Nat) (c : Char) (cs : List Char) :
    scanFrom (passed + 1) offset (c :: cs) = scanFrom passed (offset + c.utf8Size) cs := rfl

theorem scanFrom_zero (offset : Nat) (c : Char) (cs : List Char) :
    scanFrom 0 offset (c :: cs)
      = match Lexeme.docComment (c :: cs) with
        | some (taken, rest) => ⟨targetOf (offset + Text.byteSize taken) rest, String.ofList taken⟩
            :: scanFrom (taken.length - 1) (offset + c.utf8Size) cs
        | none =>
          match skipped (c :: cs) with
          | some (taken, _) => scanFrom (taken.length - 1) (offset + c.utf8Size) cs
          | none => scanFrom 0 (offset + c.utf8Size) cs := rfl

/-- Characters of something that was passed over. -/
theorem scanFrom_length (offset : Nat) (w rest : List Char) :
    scanFrom w.length offset (w ++ rest) = scanFrom 0 (offset + Text.byteSize w) rest := by
  induction w generalizing offset with
  | nil => rfl
  | cons c w ih =>
    rw [List.cons_append, List.length_cons, scanFrom_succ, ih, Text.byteSize_cons, Nat.add_assoc]

theorem scanFrom_passed {lex : Grammar.Lexeme} (hlex : Takes lex) {c : Char}
    (h : lex (c :: cs) = some (w, rest)) (offset : Nat) :
    scanFrom (w.length - 1) (offset + c.utf8Size) cs
      = scanFrom 0 (offset + Text.byteSize w) rest := by
  obtain ⟨d, w, rfl⟩ := List.exists_cons_of_ne_nil (hlex.ne_nil _ _ _ h)
  obtain ⟨rfl, rfl⟩ := List.cons.inj (hlex.splits _ _ _ h)
  rw [Text.byteSize_cons, ← Nat.add_assoc]
  exact scanFrom_length (offset + d.utf8Size) w rest

theorem scanFrom_comment (offset : Nat) (h : Lexeme.comment cs = some (w, rest)) :
    scanFrom 0 offset cs = noted offset w rest ++ scanFrom 0 (offset + Text.byteSize w) rest := by
  obtain ⟨c, cs, rfl⟩ := Takes.comment.exists_cons h
  have hskipped : skipped (c :: cs) = some (w, rest) := Lexeme.orElse_of_eq_some h
  rw [scanFrom_zero, Lexeme.docComment_eq, h, hskipped, ← scanFrom_passed Takes.comment h, noted]
  by_cases hw : Lexeme.isDoc w = true <;> simp [Option.filter_some, hw]

theorem scanFrom_marked (offset : Nat) (hcomment : Lexeme.comment cs = none)
    (h : Lexeme.marked cs = some (w, rest)) :
    scanFrom 0 offset cs = scanFrom 0 (offset + Text.byteSize w) rest := by
  obtain ⟨c, cs, rfl⟩ := Takes.marked.exists_cons h
  have hskipped : skipped (c :: cs) = some (w, rest) :=
    (Lexeme.orElse_of_eq_none hcomment).trans h
  rw [scanFrom_zero, Lexeme.docComment_eq, hcomment, hskipped]
  exact scanFrom_passed Takes.marked h offset

theorem scanFrom_cons {c : Char} (offset : Nat) (hcomment : Lexeme.comment (c :: cs) = none)
    (h : Lexeme.marked (c :: cs) = none) :
    scanFrom 0 offset (c :: cs) = scanFrom 0 (offset + c.utf8Size) cs := by
  have hskipped : skipped (c :: cs) = none := (Lexeme.orElse_of_eq_none hcomment).trans h
  rw [scanFrom_zero, Lexeme.docComment_eq, hcomment, hskipped]
  rfl

/-! ### Pieces -/

/-- A contained text is passed over, and the scan goes on with what follows. -/
theorem scanFrom_append {w : List Char} (offset : Nat) (h : Lexeme.isContained w rest = true) :
    scanFrom 0 offset (w ++ rest) = scanFrom 0 (offset + Text.byteSize w) rest := by
  match w with
  | [] => rfl
  | c :: w =>
    obtain ⟨hcomment, hends, hw⟩ := Lexeme.of_isContained_cons h
    cases hmarked : Lexeme.marked (c :: w ++ rest) with
    | none =>
      rw [Text.byteSize_cons, ← Nat.add_assoc, ← scanFrom_append _ hw]
      exact scanFrom_cons offset hcomment hmarked
    | some x =>
      obtain ⟨taken, rest'⟩ := x
      have happend := Takes.marked.splits _ _ _ hmarked
      obtain ⟨w', hw'⟩ : taken <+: c :: w :=
        List.prefix_of_prefix_length_le ⟨rest', happend⟩ (List.prefix_append _ _) (hends hmarked)
      rw [← hw', List.append_assoc] at happend
      have hmeasure : w'.length ≤ w.length := by
        have htaken := List.length_pos_iff.2 (Takes.marked.ne_nil _ _ _ hmarked)
        have hlength := congrArg List.length hw'
        rw [List.length_append, List.length_cons] at hlength
        omega
      rw [scanFrom_marked offset hcomment hmarked, List.append_cancel_left happend, ← hw',
        Text.byteSize_append, ← Nat.add_assoc]
      exact scanFrom_append _ (Lexeme.isContained_of_append (hw' ▸ h))
termination_by w.length

end DocComments

/-- The documentation comments among pieces of which the first starts at `offset`. -/
def docs : (offset : Nat) → List Piece → List DocComment
  | _, [] => []
  | offset, .comment w :: ps =>
    noted offset w (Piece.join ps) ++ docs (offset + Text.byteSize w) ps
  | offset, .word w :: ps | offset, .space w :: ps => docs (offset + Text.byteSize w) ps

/-- No regular expression among the pieces misleads the scan: each is contained. -/
def isTame : List Piece → Bool
  | [] => true
  | .word w :: ps => (!Lexeme.isRegex w || Lexeme.isContained w (Piece.join ps)) && isTame ps
  | .space _ :: ps | .comment _ :: ps => isTame ps

/-- Over tame pieces that fit, the scan finds the documentation comments among them. -/
theorem scanFrom_eq_docs {cs : List Char} {ps : List Piece} (h : Spells FitsBefore cs ps [])
    (htame : isTame ps = true) (offset : Nat) :
    DocComments.scanFrom 0 offset cs = docs offset ps := by
  induction ps generalizing cs offset with
  | nil =>
    cases h
    rfl
  | cons p ps ih =>
    cases h with
    | cons hfits h =>
      obtain rfl := h.join_append.symm.trans (List.append_nil _)
      cases hfits with
      | space hspace =>
        have hquiet c (hc : c ∈ _) := Quiet.isSpace c (hspace c hc)
        rw [docs, ← ih h htame]
        exact DocComments.scanFrom_append offset (Lexeme.isContained_of_isQuiet hquiet _)
      | comment hcomment =>
        rw [docs, ← ih h htame]
        exact DocComments.scanFrom_comment offset hcomment
      | contained hcontained =>
        rw [docs, ← ih h (Bool.and_eq_true_iff.1 htame).2]
        exact DocComments.scanFrom_append offset hcontained
      | marked hmarked =>
        rw [docs, ← ih h (Bool.and_eq_true_iff.1 htame).2]
        exact DocComments.scanFrom_marked offset (Lexeme.comment_eq_none_of_marked hmarked) hmarked
      | regex hregex =>
        rw [isTame, hregex] at htame
        obtain ⟨hcontained, htame⟩ := Bool.and_eq_true_iff.1 htame
        rw [docs, ← ih h htame]
        exact DocComments.scanFrom_append offset hcontained

/-! ### Targets -/

namespace DocComments

theorem targetOf_eq_self {cs : List Char} (h : Lexeme.comment cs ≠ none ∨ Lexeme.marked cs ≠ none)
    (offset : Nat) : targetOf offset cs = offset := by
  match cs with
  | [] => rfl
  | c :: cs =>
    have hc : Text.isBlank c = false := by
      by_contra hc
      have hquiet := Quiet.of_not (by decide) c (Bool.not_eq_false _ ▸ hc)
      obtain ⟨hcomment, hmarked⟩ := Lexeme.refuse_of_isQuiet hquiet cs
      rcases h with h | h
      · exact h hcomment
      · exact h hmarked
    rw [targetOf, List.takeWhile_cons, hc]
    rfl

theorem targetOf_cons_le (offset : Nat) (c : Char) (cs : List Char) :
    targetOf offset (c :: cs) ≤ targetOf (offset + c.utf8Size) cs := by
  rw [targetOf, targetOf, List.takeWhile_cons]
  split
  · rw [Text.byteSize_cons, Nat.add_assoc]
  · rw [Text.byteSize_nil]
    omega

/-- Every comment has a target after those before it. -/
theorem isChain_targets (offset : Nat) (cs : List Char) :
    List.IsChain (· < ·) (targetOf offset cs :: (scanFrom 0 offset cs).map DocComment.target) := by
  match cs with
  | [] => exact .singleton _
  | c :: cs =>
    cases hcomment : Lexeme.comment (c :: cs) with
    | some x =>
      obtain ⟨w, rest⟩ := x
      have hmeasure := Nat.le_of_lt_succ (Takes.comment.length_lt hcomment)
      have hrest := isChain_targets (offset + Text.byteSize w) rest
      have hlt : targetOf offset (c :: cs) < targetOf (offset + Text.byteSize w) rest := by
        rw [targetOf_eq_self (.inl (by simp [hcomment])), targetOf]
        have := byteSize_pos (Takes.comment.ne_nil _ _ _ hcomment)
        omega
      rw [scanFrom_comment offset hcomment, noted]
      split
      · exact .cons_cons hlt hrest
      · exact hrest.imp_head fun h => hlt.trans h
    | none =>
      cases hmarked : Lexeme.marked (c :: cs) with
      | some x =>
        obtain ⟨w, rest⟩ := x
        have hmeasure := Nat.le_of_lt_succ (Takes.marked.length_lt hmarked)
        have hrest := isChain_targets (offset + Text.byteSize w) rest
        rw [scanFrom_marked offset hcomment hmarked]
        refine hrest.imp_head fun h => Nat.lt_of_le_of_lt ?_ h
        rw [targetOf_eq_self (.inr (by simp [hmarked])), targetOf]
        omega
      | none =>
        rw [scanFrom_cons offset hcomment hmarked]
        have hrest := isChain_targets (offset + c.utf8Size) cs
        exact hrest.imp_head fun h => Nat.lt_of_le_of_lt (targetOf_cons_le offset c cs) h
termination_by cs.length

theorem at?_eq_some {comments : List DocComment} (h : (comments.map DocComment.target).Nodup)
    {d : DocComment} (hd : d ∈ comments) : at? comments d.target = some d := by
  have hsome : (at? comments d.target).isSome := by
    rw [at?, List.find?_isSome]
    exact ⟨d, List.mem_reverse.2 hd, beq_self_eq_true _⟩
  obtain ⟨e, he⟩ := Option.isSome_iff_exists.1 hsome
  have htarget : e.target = d.target := by simpa using List.find?_some he
  have hmem := List.mem_reverse.1 (List.mem_of_find?_eq_some he)
  rw [he, List.inj_on_of_nodup_map h hmem hd htarget]

/-- All comments of a text count, in their order. -/
theorem byTarget_scan (cs : List Char) : byTarget (scan cs) = scan cs := by
  have hsorted : ((scan cs).map DocComment.target).Pairwise (· < ·) :=
    (List.pairwise_cons.1 (List.isChain_iff_pairwise.1 (isChain_targets 0 cs))).2
  have hnodup : ((scan cs).map DocComment.target).Nodup := hsorted.imp Nat.ne_of_lt
  have hsort : ((scan cs).map DocComment.target).mergeSort (· ≤ ·)
      = (scan cs).map DocComment.target :=
    List.mergeSort_eq_self (· ≤ ·) (hsorted.imp Nat.le_of_lt)
  rw [byTarget, eraseDups_eq_self hnodup, hsort, List.filterMap_map]
  calc (scan cs).filterMap (at? (scan cs) ∘ DocComment.target)
      = (scan cs).filterMap some := List.filterMap_congr fun d hd => at?_eq_some hnodup hd
    _ = scan cs := List.filterMap_some

end DocComments

/-! ### Whole scripts -/

/-- The text of a script falls into the pieces of its parse. If no regular expression among them
misleads, the scan finds the documentation comments that the parse skips, and no others. -/
theorem scan_finds_skipped_comments {cs : List Char} {t : Tree} (h : parse cs = .ok t) :
    ∃ ps, parsePieces? cs = some (t, ps) ∧ Piece.join ps = cs ∧
      (isTame ps = true → DocComments.byTarget (DocComments.scan cs) = docs 0 ps) := by
  obtain ⟨ps, hps, hspells⟩ := exists_pieces h
  refine ⟨ps, hps, (List.append_nil _).symm.trans hspells.join_append, fun htame => ?_⟩
  rw [DocComments.byTarget_scan]
  exact scanFrom_eq_docs hspells htame 0

/-- Comments in a string, in a template and after two slashes do not count, and neither a division
nor a regular expression with quotes misleads. -/
theorem scan_finds_skipped_comments_mixed :
    ∃ cs, cs = ("/** first */ a = \"/** no */\" / 2; // /** no */\n" ++
        "/**/ b = /[\"']/g;\n/** second */ c = `/** no */`;").toList ∧
      ∃ t ps, parse cs = .ok t ∧ parsePieces? cs = some (t, ps) ∧ isTame ps = true ∧
        DocComments.byTarget (DocComments.scan cs) = docs 0 ps ∧
        docs 0 ps = [⟨13, "/** first */"⟩, ⟨79, "/** second */"⟩] := by
  refine ⟨_, rfl, ?_⟩
  generalize hcs : ("/** first */ a = \"/** no */\" / 2; // /** no */\n" ++
    "/**/ b = /[\"']/g;\n/** second */ c = `/** no */`;").toList = cs
  have hok : (parse cs).isOk = true := by
    rw [← hcs]
    decide +kernel
  have hdocs : (parsePieces? cs).map (fun x => (isTame x.2, docs 0 x.2))
      = some (true, [⟨13, "/** first */"⟩, ⟨79, "/** second */"⟩]) := by
    rw [← hcs]
    decide +kernel
  cases ht : parse cs with
  | error e =>
    rw [ht] at hok
    cases hok
  | ok t =>
    obtain ⟨ps, hps, -, hscan⟩ := scan_finds_skipped_comments ht
    rw [hps] at hdocs
    obtain ⟨htame, hdocs⟩ := Prod.mk.inj (Option.some.inj hdocs)
    exact ⟨t, ps, rfl, hps, htame, hscan htame, hdocs⟩

/-- A quote in a regular expression hides the comment after it, and a class of characters may look
like a comment. -/
theorem scan_misled_by_regex :
    (∃ cs, cs = "x = /\"/; /** doc */ var y = \"a\";".toList ∧ (parse cs).isOk = true ∧
      (parsePieces? cs).map (docs 0 ·.2) = some [⟨20, "/** doc */"⟩] ∧
      DocComments.byTarget (DocComments.scan cs) = []) ∧
    ∃ cs, cs = "/[/**]*/.test(x)".toList ∧ (parse cs).isOk = true ∧
      (parsePieces? cs).map (docs 0 ·.2) = some [] ∧
      DocComments.byTarget (DocComments.scan cs) = [⟨8, "/**]*/"⟩] := by
  refine ⟨⟨_, rfl, by decide +kernel, by decide +kernel, ?_⟩, _, rfl, by decide +kernel,
    by decide +kernel, ?_⟩
  all_goals
    rw [DocComments.byTarget_scan]
    decide +kernel

end ScriptTypes.Script
