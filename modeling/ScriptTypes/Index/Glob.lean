/-!
# Glob patterns

A pattern is matched against a whole word, byte by byte. `?` stands for any byte and `*` for any
bytes; `[...]` is a class of bytes, `{...}` a choice between alternatives, and a backslash takes the
next character literally. `**` as a whole component of a path stands for any number of components.
-/

namespace ScriptTypes

namespace Glob

/-- One part of a pattern. -/
inductive Item where
  | literal (c : Char)
  /-- Any one byte. -/
  | any
  /-- Any bytes. -/
  | run
  /-- `**` in front: nothing, or anything up to a slash. -/
  | leading
  /-- `/**` at the end: a slash and anything after it. -/
  | trailing
  /-- `/**/` between: a slash, or anything between two slashes. -/
  | between
  | bytes (negated : Bool) (ranges : List (Char × Char))
  | choice (alternatives : List (List Item))

/-! ### Reading a pattern -/

/-- A class that is being read: its ranges so far, last one first. -/
structure OpenClass where
  negated : Bool
  ranges : List (Char × Char) := []
  /-- A hyphen waits for the end of its range. -/
  inRange : Bool := false

/-- A choice that is being read: its finished alternatives, last one first, and what stands before
it, last one first. -/
structure OpenChoice where
  finished : List (List Item) := []
  before : List Item

/-- What has been read so far. -/
structure Reading where
  /-- The open choices, innermost first. -/
  choices : List OpenChoice := []
  /-- The current alternative, last part first. -/
  items : List Item := []
  /-- The last character read. -/
  last : Option Char := none
  openClass : Option OpenClass := none

namespace Reading

def push (r : Reading) (items : List Item) (last : Char) : Reading :=
  { r with items := items.reverse ++ r.items, last := some last }

/-- Replace the last part, unless it stands for any number of components at one end already. -/
def replaceLast (r : Reading) (item : Item) (last : Char) : Reading :=
  let items := match r.items with
    | .leading :: rest => .leading :: rest
    | .trailing :: rest => .trailing :: rest
    | _ :: rest => item :: rest
    | [] => [item]
  { r with items, last := some last }

/-- One more character of an open class. A class needs at least one member, so a bracket or hyphen
in front is a member. -/
def inClass (r : Reading) (k : OpenClass) (c : Char) : Option Reading :=
  let continued (k : OpenClass) : Option Reading :=
    some { r with openClass := some k, last := some c }
  if c = ']' ∧ ¬ k.ranges.isEmpty then
    let ranges := if k.inRange then ('-', '-') :: k.ranges else k.ranges
    some { r with
      items := .bytes k.negated ranges.reverse :: r.items, last := some c, openClass := none }
  else if c = '-' ∧ ¬ k.ranges.isEmpty ∧ ¬ k.inRange then continued { k with inRange := true }
  else if k.inRange then
    match k.ranges with
    | (lo, _) :: rest =>
      if c < lo then none else continued { k with ranges := (lo, c) :: rest, inRange := false }
    | [] => none
  else continued { k with ranges := (c, c) :: k.ranges }

/-- Two stars, with `next` after them. They stand for components of a path only where a component
starts and ends; elsewhere they are two single stars. -/
def stars (r : Reading) (next : Option Char) : Reading × Bool :=
  let plain := (r.push [.run, .run] '*', false)
  if r.items.isEmpty then
    match next with
    | none => (r.push [.leading] '*', false)
    | some '/' => (r.push [.leading] '/', true)
    | some _ => plain
  else if r.last = some '/' ∨ (¬ r.choices.isEmpty ∧ (r.last = some ',' ∨ r.last = some '{')) then
    match next with
    | none => (r.replaceLast .trailing '*', false)
    | some '/' => (r.replaceLast .between '/', true)
    | some c =>
      if ¬ r.choices.isEmpty ∧ (c = ',' ∨ c = '}') then (r.replaceLast .trailing '*', false)
      else plain
  else plain

/-- The parts of the pattern once it is read, unless something is still open. -/
def finish (r : Reading) : Option (List Item) :=
  match r.choices, r.openClass with
  | [], none => some r.items.reverse
  | _, _ => none

end Reading

/-- Read the rest of a pattern. -/
def readFrom (r : Reading) : List Char → Option (List Item)
  | [] => r.finish
  | c :: cs =>
    match r.openClass with
    | some k =>
      match r.inClass k c with
      | some r => readFrom r cs
      | none => none
    | none =>
      match c, cs with
      | '*', '*' :: '/' :: rest =>
        match r.stars (some '/') with
        | (r, true) => readFrom r rest
        | (r, false) => readFrom r ('/' :: rest)
      | '*', '*' :: rest => readFrom (r.stars rest.head?).1 rest
      | '*', rest => readFrom (r.push [.run] '*') rest
      | '?', rest => readFrom (r.push [.any] '?') rest
      | '[', '!' :: rest =>
        readFrom { r with openClass := some ⟨true, [], false⟩, last := some '!' } rest
      | '[', '^' :: rest =>
        readFrom { r with openClass := some ⟨true, [], false⟩, last := some '^' } rest
      | '[', rest => readFrom { r with openClass := some ⟨false, [], false⟩, last := some '[' } rest
      | '{', rest =>
        readFrom { r with
          choices := ⟨[], r.items⟩ :: r.choices, items := [], last := some '{' } rest
      | '}', rest =>
        match r.choices with
        | [] => none
        | ⟨finished, before⟩ :: choices =>
          let alternatives := (r.items.reverse :: finished).reverse
          readFrom { r with
            choices, items := .choice alternatives :: before, last := some '}' } rest
      | ',', rest =>
        match r.choices with
        | [] => readFrom (r.push [.literal ','] ',') rest
        | ⟨finished, before⟩ :: choices =>
          readFrom { r with
            choices := ⟨r.items.reverse :: finished, before⟩ :: choices
            items := [], last := some ',' } rest
      | '\\', c :: rest => readFrom (r.push [.literal c] c) rest
      | '\\', [] => none
      | c, rest => readFrom (r.push [.literal c] c) rest

/-! ### Matching a word

Matching keeps the places of the word that the parts so far can end at. A part moves all places at
once, so the work is bounded by the size of the pattern times that of the word. -/

/-- For each place of a word, from its start to its end, whether it is held. A word with `n` bytes
has `n + 1` places. -/
abbrev Places := List Bool

namespace Places

/-- The start of a word alone. -/
def start (word : List UInt8) : Places := true :: word.map fun _ => false

/-- Is the end of the word held? -/
def atEnd (ps : Places) : Bool := ps.getLast? == some true

/-- Places held by either. -/
def union (ps qs : Places) : Places := List.zipWith (· || ·) ps qs

/-- The places one byte further, over a byte that satisfies `p`. -/
def step (p : UInt8 → Bool) (word : List UInt8) (ps : Places) : Places :=
  false :: List.zipWith (fun b held => held && p b) word ps

/-- All places from the first one on; `reached` tells whether that one is behind. -/
def spread (reached : Bool) : Places → Places
  | [] => []
  | held :: ps => (reached || held) :: spread (reached || held) ps

end Places

def slash : UInt8 := 0x2f

/-- The places right after a slash that stands at one of the given places or later. -/
def afterSlashes (word : List UInt8) (ps : Places) : Places :=
  (ps.spread false).step (· == slash) word

/-- The ranges of bytes of a range of characters: the bytes of a longer character count singly. -/
def byteRanges : Char × Char → List (UInt8 × UInt8)
  | (lo, hi) =>
    let los := String.utf8EncodeChar lo
    if lo = hi then los.map fun b => (b, b)
    else
      match los.reverse, String.utf8EncodeChar hi with
      | b :: before, b' :: after =>
        (before.reverse.map fun b => (b, b)) ++ (b, b') :: after.map fun b => (b, b)
      | _, _ => []

def classHolds (negated : Bool) (ranges : List (Char × Char)) (b : UInt8) : Bool :=
  negated != (ranges.flatMap byteRanges).any fun (lo, hi) => lo ≤ b && b ≤ hi

mutual

/-- Does a part match nothing but the empty word by being no pattern at all? -/
def Item.isBlank : Item → Bool
  | .choice alternatives => allBlank alternatives
  | _ => false

def itemsBlank : List Item → Bool
  | [] => true
  | i :: is => i.isBlank && itemsBlank is

def allBlank : List (List Item) → Bool
  | [] => true
  | is :: rest => itemsBlank is && allBlank rest

end

mutual

/-- The places at which a part can end that starts at one of the given places. -/
def Item.advance (word : List UInt8) : Item → Places → Places
  | .literal c, ps => (String.utf8EncodeChar c).foldl (fun ps b => ps.step (· == b) word) ps
  | .any, ps => ps.step (fun _ => true) word
  | .run, ps => ps.spread false
  | .leading, ps => ps.union (afterSlashes word ps)
  | .trailing, ps => (ps.step (· == slash) word).spread false
  | .between, ps =>
    let qs := ps.step (· == slash) word
    qs.union (afterSlashes word qs)
  | .bytes negated ranges, ps => ps.step (classHolds negated ranges) word
  | .choice alternatives, ps =>
    if allBlank alternatives then ps else choiceAdvance word alternatives ps

/-- The same for parts one after the other. -/
def itemsAdvance (word : List UInt8) : List Item → Places → Places
  | [], ps => ps
  | i :: is, ps => itemsAdvance word is (i.advance word ps)

/-- The same for one of several alternatives; an empty one does not count. -/
def choiceAdvance (word : List UInt8) : List (List Item) → Places → Places
  | [], ps => ps.map fun _ => false
  | is :: rest, ps =>
    if itemsBlank is then choiceAdvance word rest ps
    else (itemsAdvance word is ps).union (choiceAdvance word rest ps)

end

/-- Do the parts match the whole word? A pattern that is only `**` matches every word. -/
def itemsMatch (items : List Item) (word : String) : Bool :=
  let bytes := word.toUTF8.toList
  match items with
  | [.leading] => true
  | _ => (itemsAdvance bytes items (Places.start bytes)).atEnd

end Glob

/-- A valid glob pattern. -/
structure Glob where
  items : List Glob.Item

namespace Glob

/-- The pattern that a text spells, if it is valid. -/
def ofString? (pattern : String) : Option Glob := (readFrom {} pattern.toList).map Glob.mk

def isMatch (g : Glob) (word : String) : Bool := itemsMatch g.items word

end Glob

end ScriptTypes
