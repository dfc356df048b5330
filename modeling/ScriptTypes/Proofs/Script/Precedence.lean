import ScriptTypes.Proofs.Script.Lowered

/-!
# Operators by precedence

A chain of operands and binary operators can be grouped in many ways. One of them respects the
precedences: what an operator takes from its left binds at least as tightly as itself, and what it
takes from its right binds tighter. `Chain.resolve` finds this grouping.

The grouping is unique because of its two sides: were two operators the last ones to be applied in
two groupings of one chain, the earlier one would have the later one to its right, and the later
one would have the earlier one to its left. It exists since a chain can be prolonged by one operator
at a time, which is put in along the right edge of the grouping.

A machine with a stack of operands and a stack of operators computes the same. It has one operand
more than it has operators, so it never finds too few of them.

Main statement: `chains_group_by_precedence`.
-/

namespace ScriptTypes.Script.Chain

variable {α β : Type}

/-- What a chain is made of. -/
inductive Part (α : Type) where
  | operand (a : α)
  | operator (op : BinaryOp)
  deriving DecidableEq, Repr

/-- The parts of a chain behind its first operand. -/
def links (rest : List (BinaryOp × α)) : List (Part α) :=
  rest.flatMap fun x => [.operator x.1, .operand x.2]

/-- A chain as it is read, from left to right. -/
def parts (first : α) (rest : List (BinaryOp × α)) : List (Part α) := .operand first :: links rest

/-- A way to group a chain. -/
inductive Grouping (α : Type) where
  | operand (a : α)
  | apply (op : BinaryOp) (lhs rhs : Grouping α)
  deriving DecidableEq, Repr

namespace Grouping

/-- The parts of a grouping from left to right. -/
def reading : Grouping α → List (Part α)
  | operand a => [.operand a]
  | apply op lhs rhs => lhs.reading ++ .operator op :: rhs.reading

/-- The operator that is applied last, if there is one, has at least precedence `p`. -/
def Binds (p : Nat) : Grouping α → Prop
  | operand _ => True
  | apply op _ _ => p ≤ op.precedence

/-- Operators take what binds at least as tightly from their left, and what binds tighter from their
right. -/
def Grouped : Grouping α → Prop
  | operand _ => True
  | apply op lhs rhs =>
    lhs.Binds op.precedence ∧ rhs.Binds (op.precedence + 1) ∧ lhs.Grouped ∧ rhs.Grouped

def map (f : α → β) : Grouping α → Grouping β
  | operand a => operand (f a)
  | apply op lhs rhs => apply op (lhs.map f) (rhs.map f)

/-- The tree that a grouping of trees stands for. -/
def tree : Grouping Tree → Tree
  | operand t => t
  | apply op lhs rhs => join op lhs.tree rhs.tree

theorem Binds.mono {p q : Nat} {g : Grouping α} (h : g.Binds q) (hle : p ≤ q) : g.Binds p := by
  cases g with
  | operand a => trivial
  | apply op lhs rhs => exact Nat.le_trans hle h

theorem binds_map (f : α → β) (p : Nat) (g : Grouping α) : (g.map f).Binds p ↔ g.Binds p := by
  cases g <;> exact Iff.rfl

theorem grouped_map (f : α → β) (g : Grouping α) : (g.map f).Grouped ↔ g.Grouped := by
  induction g with
  | operand a => exact Iff.rfl
  | apply op lhs rhs ihl ihr => simp only [map, Grouped, binds_map, ihl, ihr]

/-! ### At most one grouping -/

/-- No operator of a grouping binds less tightly than the one applied last. -/
theorem Grouped.le_precedence {p : Nat} {g : Grouping α} (h : g.Grouped) (hp : g.Binds p)
    {op : BinaryOp} (hop : .operator op ∈ g.reading) : p ≤ op.precedence := by
  induction g generalizing p with
  | operand a => simp [reading] at hop
  | apply op' lhs rhs ihl ihr =>
    obtain ⟨hl, hr, hlhs, hrhs⟩ := h
    have hle : p ≤ op'.precedence := hp
    rcases List.mem_append.1 hop with hop | hop
    · exact Nat.le_trans hle (ihl hlhs hl hop)
    rcases List.mem_cons.1 hop with heq | hop
    · cases heq
      exact hle
    · exact Nat.le_trans (Nat.le_succ_of_le hle) (ihr hrhs hr hop)

/-- The operator applied last in one grouping is not to the left of the one applied last in another:
it would have that one to its right. -/
theorem eq_nil_of_cut {op op' : BinaryOp} {lhs' rhs : Grouping α} {before more rest : List (Part α)}
    (h : rhs.Grouped) (hop : rhs.Binds (op.precedence + 1)) (h' : lhs'.Grouped)
    (hop' : lhs'.Binds op'.precedence) (hleft : lhs'.reading = before ++ more)
    (hright : .operator op :: rhs.reading = more ++ .operator op' :: rest) : more = [] := by
  cases more with
  | nil => rfl
  | cons part more =>
    obtain ⟨rfl, htail⟩ : .operator op = part ∧ rhs.reading = more ++ .operator op' :: rest := by
      simpa using hright
    have hle : op'.precedence ≤ op.precedence := h'.le_precedence hop' (by simp [hleft])
    have hlt : op.precedence + 1 ≤ op'.precedence := h.le_precedence hop (by simp [htail])
    omega

/-- Two groupings by precedence that read the same are cut at the same operator. -/
theorem Grouped.cut_eq {op op' : BinaryOp} {lhs rhs lhs' rhs' : Grouping α}
    (h : (apply op lhs rhs).Grouped) (h' : (apply op' lhs' rhs').Grouped)
    (hread : (apply op lhs rhs).reading = (apply op' lhs' rhs').reading) :
    lhs.reading = lhs'.reading ∧ op = op' ∧ rhs.reading = rhs'.reading := by
  obtain ⟨hl, hr, hlhs, hrhs⟩ := h
  obtain ⟨hl', hr', hlhs', hrhs'⟩ := h'
  rcases List.append_eq_append_iff.1 hread with ⟨more, hleft, hright⟩ | ⟨more, hleft, hright⟩
  · obtain rfl := eq_nil_of_cut hrhs hr hlhs' hl' hleft hright
    simpa [hleft] using hright
  · obtain rfl := eq_nil_of_cut hrhs' hr' hlhs hl hleft hright
    simpa [hleft, eq_comm] using hright

/-- Groupings by precedence that read the same are the same. -/
theorem Grouped.eq_of_reading_eq {g g' : Grouping α} (h : g.Grouped) (h' : g'.Grouped)
    (hread : g.reading = g'.reading) : g = g' := by
  induction g generalizing g' with
  | operand a =>
    cases g' with
    | operand b =>
      simp only [reading, List.cons.injEq, Part.operand.injEq, and_true] at hread
      rw [hread]
    | apply op' lhs' rhs' =>
      have hmem : .operator op' ∈ (operand a).reading := by
        rw [hread]
        simp [reading]
      simp [reading] at hmem
  | apply op lhs rhs ihl ihr =>
    cases g' with
    | operand b =>
      have hmem : .operator op ∈ (operand b).reading := by
        rw [← hread]
        simp [reading]
      simp [reading] at hmem
    | apply op' lhs' rhs' =>
      obtain ⟨hleft, rfl, hright⟩ := h.cut_eq h' hread
      rw [ihl h.2.2.1 h'.2.2.1 hleft, ihr h.2.2.2 h'.2.2.2 hright]

/-! ### At least one grouping -/

/-- Prolong a chain: the new operator goes down the right edge, past the operators that bind less
tightly. -/
def snoc (op : BinaryOp) (a : α) : Grouping α → Grouping α
  | operand b => apply op (operand b) (operand a)
  | apply op' lhs rhs =>
    if op'.precedence < op.precedence then apply op' lhs (rhs.snoc op a)
    else apply op (apply op' lhs rhs) (operand a)

theorem reading_snoc (op : BinaryOp) (a : α) (g : Grouping α) :
    (g.snoc op a).reading = g.reading ++ [.operator op, .operand a] := by
  induction g with
  | operand b => rfl
  | apply op' lhs rhs _ ih =>
    rw [snoc]
    split
    · simp [reading, ih]
    · simp [reading]

theorem Binds.snoc {p : Nat} {g : Grouping α} (h : g.Binds p) {op : BinaryOp}
    (hop : p ≤ op.precedence) (a : α) : (g.snoc op a).Binds p := by
  cases g with
  | operand b => exact hop
  | apply op' lhs rhs =>
    rw [Grouping.snoc]
    split
    · exact h
    · exact hop

theorem Grouped.snoc {g : Grouping α} (h : g.Grouped) (op : BinaryOp) (a : α) :
    (g.snoc op a).Grouped := by
  induction g with
  | operand b => exact ⟨trivial, trivial, trivial, trivial⟩
  | apply op' lhs rhs _ ih =>
    rw [Grouping.snoc]
    split
    · rename_i hlt
      obtain ⟨hl, hr, hlhs, hrhs⟩ := h
      exact ⟨hl, hr.snoc hlt a, hlhs, ih hrhs⟩
    · rename_i hge
      exact ⟨Nat.not_lt.1 hge, trivial, h, trivial⟩

/-- The grouping of a chain by precedence. -/
def ofChain (first : α) (rest : List (BinaryOp × α)) : Grouping α :=
  rest.foldl (fun g x => g.snoc x.1 x.2) (operand first)

theorem ofChain_concat (first : α) (rest : List (BinaryOp × α)) (x : BinaryOp × α) :
    ofChain first (rest ++ [x]) = (ofChain first rest).snoc x.1 x.2 := by
  simp [ofChain]

theorem reading_ofChain (first : α) (rest : List (BinaryOp × α)) :
    (ofChain first rest).reading = parts first rest := by
  induction rest using List.reverseRecOn with
  | nil => rfl
  | append_singleton rest x ih => simp [ofChain_concat, reading_snoc, ih, parts, links]

theorem grouped_ofChain (first : α) (rest : List (BinaryOp × α)) :
    (ofChain first rest).Grouped := by
  induction rest using List.reverseRecOn with
  | nil => trivial
  | append_singleton rest x ih =>
    rw [ofChain_concat]
    exact ih.snoc x.1 x.2

end Grouping

/-! ### What resolving finds -/

namespace Grouping

def first : Grouping α → α
  | operand a => a
  | apply _ lhs _ => lhs.first

/-- What follows the first operand. -/
def rest : Grouping α → List (BinaryOp × α)
  | operand _ => []
  | apply op lhs rhs => lhs.rest ++ (op, rhs.first) :: rhs.rest

def last : Grouping α → α
  | operand a => a
  | apply _ _ rhs => rhs.last

theorem reading_eq (g : Grouping α) : g.reading = parts g.first g.rest := by
  induction g with
  | operand a => rfl
  | apply op lhs rhs ihl ihr => simp [reading, first, rest, ihl, ihr, parts, links]

end Grouping

theorem links_inj {rest rest' : List (BinaryOp × α)} (h : links rest = links rest') :
    rest = rest' := by
  induction rest generalizing rest' with
  | nil =>
    cases rest' with
    | nil => rfl
    | cons x rest' => simp [links] at h
  | cons x rest ih =>
    cases rest' with
    | nil => simp [links] at h
    | cons x' rest' =>
      simp only [links, List.flatMap_cons, List.cons_append, List.nil_append, List.cons.injEq,
        Part.operator.injEq, Part.operand.injEq] at h
      obtain ⟨hop, hoperand, hrest⟩ := h
      rw [ih hrest, Prod.ext hop hoperand]

theorem parts_inj {first first' : α} {rest rest' : List (BinaryOp × α)}
    (h : parts first rest = parts first' rest') : first = first' ∧ rest = rest' := by
  obtain ⟨hfirst, hrest⟩ := List.cons.inj h
  exact ⟨Part.operand.inj hfirst, links_inj hrest⟩

/-- Operators that bind less tightly keep waiting. -/
theorem close_of_lt {p : Nat} {waiting : List (Tree × BinaryOp)}
    (h : ∀ x ∈ waiting.head?, x.2.precedence < p) (cur : Tree) :
    close p waiting cur = (waiting, cur) := by
  cases waiting with
  | nil => rfl
  | cons x waiting => rw [close, if_neg (Nat.not_le.2 (h x rfl))]

/-- An operator is closed before one that does not bind tighter, and at the end. -/
theorem resolveFrom_cons {lhs : Tree} {op : BinaryOp} {rest : List (BinaryOp × Tree)}
    (h : ∀ x ∈ rest.head?, x.1.precedence ≤ op.precedence) (waiting : List (Tree × BinaryOp))
    (cur : Tree) :
    resolveFrom ((lhs, op) :: waiting) cur rest = resolveFrom waiting (join op lhs cur) rest := by
  cases rest with
  | nil => rw [resolveFrom, resolveFrom, close, if_pos (Nat.zero_le _)]
  | cons x rest => rw [resolveFrom, resolveFrom, close, if_pos (h x rfl)]

/-- A part of a chain that is grouped by precedence becomes one operand, if what waits to its left
binds less tightly than its last operator, and what follows does not bind tighter. -/
theorem resolveFrom_grouped {g : Grouping Tree} (h : g.Grouped) {waiting : List (Tree × BinaryOp)}
    (hwaiting : ∀ x ∈ waiting.head?, g.Binds (x.2.precedence + 1)) {rest : List (BinaryOp × Tree)}
    (hrest : ∀ x ∈ rest.head?, g.Binds x.1.precedence) :
    resolveFrom waiting g.first (g.rest ++ rest) = resolveFrom waiting g.tree rest := by
  induction g generalizing waiting rest with
  | operand t => rfl
  | apply op lhs rhs ihl ihr =>
    obtain ⟨hl, hr, hlhs, hrhs⟩ := h
    have hsplit : (Grouping.apply op lhs rhs).rest ++ rest
        = lhs.rest ++ (op, rhs.first) :: (rhs.rest ++ rest) := by simp [Grouping.rest]
    have hleft : resolveFrom waiting lhs.first (lhs.rest ++ (op, rhs.first) :: (rhs.rest ++ rest))
        = resolveFrom waiting lhs.tree ((op, rhs.first) :: (rhs.rest ++ rest)) := by
      refine ihl hlhs (fun x hx => ?_) fun x hx => ?_
      · exact hl.mono (hwaiting x hx)
      · cases hx
        exact hl
    have hright : resolveFrom ((lhs.tree, op) :: waiting) rhs.first (rhs.rest ++ rest)
        = resolveFrom ((lhs.tree, op) :: waiting) rhs.tree rest := by
      refine ihr hrhs (fun x hx => ?_) fun x hx => ?_
      · cases hx
        exact hr
      · exact hr.mono (Nat.le_succ_of_le (hrest x hx))
    calc resolveFrom waiting lhs.first ((Grouping.apply op lhs rhs).rest ++ rest)
      _ = resolveFrom waiting lhs.tree ((op, rhs.first) :: (rhs.rest ++ rest)) := by
        rw [hsplit, hleft]
      _ = resolveFrom ((lhs.tree, op) :: waiting) rhs.first (rhs.rest ++ rest) := by
        rw [resolveFrom, close_of_lt hwaiting]
      _ = resolveFrom waiting (join op lhs.tree rhs.tree) rest := by
        rw [hright, resolveFrom_cons hrest]

/-- Resolving a chain gives its grouping by precedence. -/
theorem tree_eq_resolve {g : Grouping Tree} (h : g.Grouped) {first : Tree}
    {rest : List (BinaryOp × Tree)} (hread : g.reading = parts first rest) :
    g.tree = resolve first rest := by
  rw [g.reading_eq] at hread
  obtain ⟨rfl, rfl⟩ := parts_inj hread
  have hrun : resolveFrom [] g.first (g.rest ++ []) = resolveFrom [] g.tree [] :=
    resolveFrom_grouped h (by simp) (by simp)
  rw [List.append_nil] at hrun
  exact hrun.symm

namespace Grouping

theorem span_tree (g : Grouping Tree) : g.tree.span = ⟨g.first.span.start, g.last.span.stop⟩ := by
  induction g with
  | operand t => rfl
  | apply op lhs rhs ihl ihr =>
    show (⟨lhs.tree.span.start, rhs.tree.span.stop⟩ : Span) = _
    rw [ihl, ihr]
    rfl

theorem getLast?_operands (g : Grouping α) :
    (g.first :: g.rest.map Prod.snd).getLast? = some g.last := by
  induction g with
  | operand a => rfl
  | apply op lhs rhs _ ihr =>
    have hsplit : (apply op lhs rhs).first :: (apply op lhs rhs).rest.map Prod.snd
        = (lhs.first :: lhs.rest.map Prod.snd) ++ (rhs.first :: rhs.rest.map Prod.snd) := by
      simp [first, rest]
    rw [hsplit, List.getLast?_append, ihr]
    rfl

end Grouping

/-- The tree of a chain covers the chain. -/
theorem span_resolve (first : Tree) (rest : List (BinaryOp × Tree)) :
    ∃ last, (first :: rest.map Prod.snd).getLast? = some last ∧
      (resolve first rest).span = ⟨first.span.start, last.span.stop⟩ := by
  have hread := Grouping.reading_ofChain first rest
  have htree := tree_eq_resolve (Grouping.grouped_ofChain first rest) hread
  rw [Grouping.reading_eq] at hread
  obtain ⟨hfirst, hrest⟩ := parts_inj hread
  refine ⟨(Grouping.ofChain first rest).last, ?_, ?_⟩
  · have hlast := (Grouping.ofChain first rest).getLast?_operands
    rwa [hfirst, hrest] at hlast
  · rw [← htree, Grouping.span_tree, hfirst]

/-! ### Two stacks -/

/-- The operands and the operators that are still to be applied, the last ones first. -/
structure Stacks where
  operands : List Tree := []
  pending : List BinaryOp := []

namespace Stacks

/-- Apply an operator to the last two operands. There is no result if there are not two. -/
def reduce? (op : BinaryOp) : List Tree → Option (List Tree)
  | rhs :: lhs :: operands => some (join op lhs rhs :: operands)
  | _ => none

/-- Apply the last operators, as long as they have at least precedence `p`. -/
def unwind? (p : Nat) : List BinaryOp → List Tree → Option Stacks
  | [], operands => some ⟨operands, []⟩
  | op :: pending, operands =>
    if p ≤ op.precedence then (reduce? op operands).bind (unwind? p pending)
    else some ⟨operands, op :: pending⟩

/-- Take in one part of a chain. -/
def read? (s : Stacks) : Part Tree → Option Stacks
  | .operand t => some { s with operands := t :: s.operands }
  | .operator op =>
    (unwind? op.precedence s.pending s.operands).map fun s => { s with pending := op :: s.pending }

/-- Take in all parts of a chain and apply what is left. -/
def run? (s : Stacks) (parts : List (Part Tree)) : Option Tree :=
  (parts.foldlM read? s).bind fun s => (unwind? 0 s.pending s.operands).bind (·.operands.head?)

/-- The stacks while `cur` is the last operand: one operand more than there are operators. -/
def ofWaiting (waiting : List (Tree × BinaryOp)) (cur : Tree) : Stacks :=
  ⟨cur :: waiting.map Prod.fst, waiting.map Prod.snd⟩

/-- With one operand more than there are operators, operators always find their operands. -/
theorem unwind?_ofWaiting (p : Nat) (waiting : List (Tree × BinaryOp)) (cur : Tree) :
    unwind? p (ofWaiting waiting cur).pending (ofWaiting waiting cur).operands
      = some (ofWaiting (close p waiting cur).1 (close p waiting cur).2) := by
  induction waiting generalizing cur with
  | nil => rfl
  | cons x waiting ih =>
    obtain ⟨lhs, op⟩ := x
    rw [close]
    show (if p ≤ op.precedence then _ else _) = _
    split
    · exact ih (join op lhs cur)
    · rfl

theorem run?_links (waiting : List (Tree × BinaryOp)) (cur : Tree)
    (rest : List (BinaryOp × Tree)) :
    run? (ofWaiting waiting cur) (links rest)
      = some (resolveFrom waiting cur rest) := by
  induction rest generalizing waiting cur with
  | nil =>
    show (unwind? 0 (ofWaiting waiting cur).pending (ofWaiting waiting cur).operands).bind _ = _
    rw [unwind?_ofWaiting]
    rfl
  | cons x rest ih =>
    obtain ⟨op, next⟩ := x
    have hread : read? (ofWaiting waiting cur) (.operator op)
        = some { ofWaiting (close op.precedence waiting cur).1 (close op.precedence waiting cur).2
            with pending := op :: (close op.precedence waiting cur).1.map Prod.snd } := by
      rw [read?, unwind?_ofWaiting]
      rfl
    have hstep := ih ((((close op.precedence waiting cur).2, op)) ::
      (close op.precedence waiting cur).1) next
    rw [run?, links, List.flatMap_cons, List.foldlM_append, List.foldlM_cons, hread]
    exact hstep

end Stacks

/-- The machine with two stacks finds the tree of a chain. -/
theorem run?_parts (first : Tree) (rest : List (BinaryOp × Tree)) :
    Stacks.run? {} (parts first rest) = some (resolve first rest) :=
  Stacks.run?_links [] first rest

/-! ### Chains in a module -/

end Chain

/-- The nodes of binary operators that group some nodes as given. -/
inductive Module.Builds (m : Module) : NodeId → Chain.Grouping NodeId → Prop
  | operand (n : NodeId) : Builds m n (.operand n)
  | apply {n a b : NodeId} {op : BinaryOp} {lhs rhs : Chain.Grouping NodeId}
      (hform : m.form n = .binary op a b)
      (hspan : m.span n = ⟨(m.span a).start, (m.span b).stop⟩) (hlhs : Builds m a lhs)
      (hrhs : Builds m b rhs) : Builds m n (.apply op lhs rhs)

theorem Form.eq_binary_of_map {α β : Type} {g : α → β} {f : Form α} {op : BinaryOp} {lhs rhs : β}
    (h : f.map g = .binary op lhs rhs) : ∃ a b, f = .binary op a b ∧ g a = lhs ∧ g b = rhs := by
  cases f with
  | binary op' a b =>
    obtain ⟨rfl, hlhs, hrhs⟩ : op' = op ∧ g a = lhs ∧ g b = rhs := by simpa [Form.map] using h
    exact ⟨a, b, rfl, hlhs, hrhs⟩
  | _ => cases h

namespace Chain.Grouping

/-- The nodes of a tree that is grouped group its operands' nodes in the same way. -/
theorem exists_builds {m : Module} {n : NodeId} {g : Grouping Tree} (h : m.tree n = g.tree) :
    ∃ g' : Grouping NodeId, m.Builds n g' ∧ g'.map m.tree = g := by
  induction g generalizing n with
  | operand t => exact ⟨.operand n, .operand n, by rw [map, h]; rfl⟩
  | apply op lhs rhs ihl ihr =>
    rw [m.tree_eq] at h
    obtain ⟨hspan, hform⟩ : m.span n = ⟨lhs.tree.span.start, rhs.tree.span.stop⟩ ∧
        (m.form n).map m.tree = .binary op lhs.tree rhs.tree := by simpa [tree, join] using h
    obtain ⟨a, b, hbinary, ha, hb⟩ := Form.eq_binary_of_map hform
    obtain ⟨lhs', hlhs, rfl⟩ := ihl ha
    obtain ⟨rhs', hrhs, rfl⟩ := ihr hb
    refine ⟨.apply op lhs' rhs', .apply hbinary ?_ hlhs hrhs, rfl⟩
    rw [hspan, ← ha, ← hb]
    simp [m.tree_eq a, m.tree_eq b, Tree.span]

/-- The context in which the operands of a chain are documented. -/
def contextOf (ctx : Context) : Grouping Tree → Context
  | operand _ => ctx
  | apply .. => ctx.inside

theorem document_join (blockAt : Nat → Option Doc.Block) (ctx : Context) (op : BinaryOp)
    (lhs rhs : Tree) :
    (join op lhs rhs).document blockAt ctx
      = join op (lhs.document blockAt ctx.inside) (rhs.document blockAt ctx.inside) := by
  obtain ⟨span, form⟩ := lhs
  obtain ⟨span', form'⟩ := rhs
  simp [join, Tree.document, documentForm, Tree.span]

theorem document_tree_inside (blockAt : Nat → Option Doc.Block) (ctx : Context)
    (g : Grouping Tree) :
    g.tree.document blockAt ctx.inside = (g.map (·.document blockAt ctx.inside)).tree := by
  induction g with
  | operand t => rfl
  | apply op lhs rhs ihl ihr =>
    rw [tree, document_join, map, tree, ← ihl, ← ihr]
    rfl

/-- Documentation keeps the grouping. -/
theorem document_tree (blockAt : Nat → Option Doc.Block) (ctx : Context) (g : Grouping Tree) :
    g.tree.document blockAt ctx = (g.map (·.document blockAt (g.contextOf ctx))).tree := by
  cases g with
  | operand t => rfl
  | apply op lhs rhs =>
    rw [tree, document_join, document_tree_inside, document_tree_inside]
    rfl

end Chain.Grouping

namespace Chain

/-- A chain has exactly one grouping by precedence, and resolving finds it: the tree covers the
chain, a machine with two stacks builds it without ever missing an operand, the grammar gives it to
the chains it reads, and a module that documents it has nodes that group the nodes of the documented
operands in the same way. -/
theorem chains_group_by_precedence (first : Tree) (rest : List (BinaryOp × Tree)) :
    ∃ g : Grouping Tree,
      (g.reading = parts first rest ∧ g.Grouped ∧ resolve first rest = g.tree) ∧
      (∀ g' : Grouping Tree, g'.reading = parts first rest → g'.Grouped → g' = g) ∧
      (∃ last, (first :: rest.map Prod.snd).getLast? = some last ∧
        (resolve first rest).span = ⟨first.span.start, last.span.stop⟩) ∧
      Stacks.run? {} (parts first rest) = some (resolve first rest) ∧
      (∀ limit skip calls c f c' f',
        (Grammar.Peg.seq Syntax.unary (.many (.seq Syntax.binaryOp Syntax.unary))).run
            limit skip calls c f = (some ((first, rest), c'), f') →
          Syntax.binary.run limit skip calls c f = (some (resolve first rest, c'), f')) ∧
      ∀ (blockAt : Nat → Option Doc.Block) (ctx : Context) (m : Module) (n : NodeId),
        m.tree n = (resolve first rest).document blockAt ctx →
          ∃ nodes : Grouping NodeId, m.Builds n nodes ∧ nodes.Grouped ∧
            nodes.map m.tree = g.map (·.document blockAt (g.contextOf ctx)) := by
  have hread := Grouping.reading_ofChain first rest
  have hgrouped := Grouping.grouped_ofChain first rest
  have htree := tree_eq_resolve hgrouped hread
  refine ⟨.ofChain first rest, ⟨hread, hgrouped, htree.symm⟩, fun g' hread' hgrouped' => ?_,
    span_resolve first rest, run?_parts first rest, fun limit skip calls c f c' f' hrun => ?_,
    fun blockAt ctx m n hn => ?_⟩
  · exact hgrouped'.eq_of_reading_eq hgrouped (hread'.trans hread.symm)
  · rw [Syntax.binary, Grammar.Peg.run_labelled, Grammar.Peg.run_map, hrun]
  · rw [← htree, Grouping.document_tree] at hn
    obtain ⟨nodes, hbuilds, hmap⟩ := Grouping.exists_builds hn
    refine ⟨nodes, hbuilds, ?_, hmap⟩
    rw [← Grouping.grouped_map m.tree, hmap, Grouping.grouped_map]
    exact hgrouped

/-- A name of one letter. -/
def letter (start : Nat) (name : String) : Tree := .node ⟨start, start + 1⟩ (.identifier name)

/-- In `a || b + c * d - e` the sums group to the left, below the disjunction and above the
product. -/
theorem difference_groups_below_disjunction :
    let chain : List (BinaryOp × Tree) := [(.logical .or, letter 5 "b"),
      (.arithmetic .add, letter 9 "c"), (.arithmetic .mul, letter 13 "d"),
      (.arithmetic .sub, letter 17 "e")]
    resolve (letter 0 "a") chain
        = join (.logical .or) (letter 0 "a") (join (.arithmetic .sub)
            (join (.arithmetic .add) (letter 5 "b")
              (join (.arithmetic .mul) (letter 9 "c") (letter 13 "d"))) (letter 17 "e")) ∧
      (resolve (letter 0 "a") chain).span = ⟨0, 18⟩ := by
  intro chain
  obtain ⟨g, ⟨-, -, htree⟩, hunique, ⟨last, hlast, hspan⟩, -⟩ :=
    chains_group_by_precedence (letter 0 "a") chain
  have hg := hunique (.apply (.logical .or) (.operand (letter 0 "a")) (.apply (.arithmetic .sub)
    (.apply (.arithmetic .add) (.operand (letter 5 "b"))
      (.apply (.arithmetic .mul) (.operand (letter 9 "c")) (.operand (letter 13 "d"))))
    (.operand (letter 17 "e")))) rfl
    (by simp [Grouping.Grouped, Grouping.Binds, BinaryOp.precedence])
  refine ⟨by rw [htree, ← hg]; rfl, ?_⟩
  obtain rfl : letter 17 "e" = last := Option.some.inj hlast
  exact hspan

end Chain

end ScriptTypes.Script
