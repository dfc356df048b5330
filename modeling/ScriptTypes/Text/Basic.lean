/-!
# Texts as lists of characters

Every reader of the library walks a list of characters from the left. This module holds the few
operations they share: the blank characters that trimming removes, removal of a fixed beginning or
ending, and the size of a text in UTF-8 bytes, which is the unit of every offset.
-/

namespace ScriptTypes.Text

/-- The blank characters: exactly those of the Unicode property `White_Space`. The zero width
space and the byte order mark are not among them. -/
def isBlank (c : Char) : Bool :=
  let n := c.toNat
  (0x09 ≤ n && n ≤ 0x0D) || n == 0x20 || n == 0x85 || n == 0xA0 || n == 0x1680
    || (0x2000 ≤ n && n ≤ 0x200A) || n == 0x2028 || n == 0x2029 || n == 0x202F
    || n == 0x205F || n == 0x3000

/-- The text without its longest ending of characters that satisfy `p`. -/
def dropRightWhile (p : Char → Bool) (cs : List Char) : List Char :=
  (cs.reverse.dropWhile p).reverse

theorem dropRightWhile_append_cons {p : Char → Bool} {c : Char} (h : p c = false)
    (as bs : List Char) :
    dropRightWhile p (as ++ c :: bs) = as ++ c :: dropRightWhile p bs := by
  simp only [dropRightWhile, List.reverse_append, List.reverse_cons, List.append_assoc,
    List.singleton_append]
  rw [List.dropWhile_append]
  split
  · rename_i hempty
    simp [List.isEmpty_iff.1 hempty, h]
  · simp

/-- The text without the blanks at both ends. -/
def trim (cs : List Char) : List Char :=
  dropRightWhile isBlank (cs.dropWhile isBlank)

/-- What follows `pre` in a text that starts with it. -/
def dropPrefix? : (pre : List Char) → List Char → Option (List Char)
  | [], cs => some cs
  | _ :: _, [] => none
  | p :: ps, c :: cs => if p = c then dropPrefix? ps cs else none

/-- What precedes `suf` in a text that ends with it. -/
def dropSuffix? (suf cs : List Char) : Option (List Char) :=
  (dropPrefix? suf.reverse cs.reverse).map List.reverse

/-- The number of UTF-8 bytes of a text. -/
def byteSize : List Char → Nat
  | [] => 0
  | c :: cs => c.utf8Size + byteSize cs

@[simp] theorem byteSize_nil : byteSize [] = 0 := rfl

@[simp] theorem byteSize_cons (c : Char) (cs : List Char) :
    byteSize (c :: cs) = c.utf8Size + byteSize cs := rfl

@[simp] theorem byteSize_append (as bs : List Char) :
    byteSize (as ++ bs) = byteSize as + byteSize bs := by
  induction as with
  | nil => simp
  | cons c cs ih => simp [ih, Nat.add_assoc]

theorem dropPrefix?_eq_some_iff {pre cs rest : List Char} :
    dropPrefix? pre cs = some rest ↔ cs = pre ++ rest := by
  induction pre generalizing cs with
  | nil => simp [dropPrefix?]
  | cons p ps ih =>
    cases cs with
    | nil => simp [dropPrefix?]
    | cons c cs =>
      by_cases h : p = c
      · simp [dropPrefix?, h, ih]
      · simp [dropPrefix?, h, Ne.symm h]

/-- Does `needle` occur as a run of consecutive characters? -/
def containsRun (needle : List Char) : List Char → Bool
  | [] => needle.isEmpty
  | c :: cs => needle.isPrefixOf (c :: cs) || containsRun needle cs

/-- The lines of a text: a line ends with a line feed, and one carriage return before that line
feed belongs to the line end. A line feed at the very end starts no further line. -/
def lines (cs : List Char) : List (List Char) :=
  match cs with
  | [] => []
  | _ =>
    let parts := cs.splitOn '\n'
    let ended := parts.dropLast.map fun line => (dropSuffix? ['\r'] line).getD line
    match parts.getLast? with
    | some [] | none => ended
    | some last => ended ++ [last]

/-- Texts joined with a separator between each two neighbours. -/
def joinWith (sep : List Char) : List (List Char) → List Char
  | [] => []
  | [t] => t
  | t :: ts => t ++ sep ++ joinWith sep ts

theorem joinWith_eq_intercalate (sep : List Char) (ts : List (List Char)) :
    joinWith sep ts = sep.intercalate ts := by
  fun_induction joinWith sep ts with
  | case1 => rfl
  | case2 t => simp
  | case3 t ts hts ih => rw [ih, List.intercalate_cons_of_ne_nil hts, List.append_assoc]

end ScriptTypes.Text
