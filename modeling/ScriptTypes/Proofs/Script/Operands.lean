import ScriptTypes.Proofs.Script.Printed

/-!
# Reading operands and operators

An expression is read level by level: an operand with what reaches into it, operators in front of it
and behind it, a chain of binary operators, a condition, an assignment. At each level the text goes
on with an operator of that level, or the operand is passed on as it is. Which levels a text ends is
said by `EndsOperand`, `EndsChain`, `EndsConditional` and `EndsAssignment`; a closing mark ends all.
Where the first characters of a text are known, that an expression refuses it is computed.
-/

namespace ScriptTypes.Script.Syntax

open Grammar (Matches MatchesRounds Refuses)

variable {limit depth : Nat} {cs mid rest : List Char} {A B C D : Tree → Prop}

/-- What may reach into an operand or call it. -/
def accessor : Expr Accessor :=
  Grammar.Peg.oneOf memberAccess [elementAccess, .map .arguments arguments]

/-- What accessors are applied to. -/
def operand : Expr Tree := Grammar.Peg.oneOf (.call .newExpression) [primary]

/-! ### What ends an operand -/

/-- Nothing at the beginning of the text goes on with an operand. -/
structure EndsOperand (rest : List Char) : Prop where
  skipped_eq : rules.skipped rest = rest
  accessor {limit depth : Nat} : Refuses rules limit depth accessor rest
  updateOp {limit depth : Nat} : Refuses rules limit depth updateOp rest

/-- Neither does anything go on with a chain of binary operators. -/
structure EndsChain (rest : List Char) : Prop extends EndsOperand rest where
  chain {limit depth : Nat} : Refuses rules limit depth (.seq binaryOp unary) rest

structure EndsConditional (rest : List Char) : Prop extends EndsChain rest where
  question {limit depth : Nat} : Refuses rules limit depth (mark "?") rest

structure EndsAssignment (rest : List Char) : Prop extends EndsConditional rest where
  assignOp {limit depth : Nat} : Refuses rules limit depth assignOp rest

/-- The marks that end an expression. -/
def closes (c : Char) : Bool := [')', ',', ']', '\x7d', ':', ';'].contains c

theorem endsAssignment_of_closes {c : Char} (h : closes c = true) (cs : List Char) :
    EndsAssignment (c :: cs) := by
  have hop {limit depth : Nat} : Refuses rules limit depth binaryOp (c :: cs) := by
    simp only [closes, List.contains_iff_mem, List.mem_cons, List.not_mem_nil, or_false] at h
    intro offset f
    rcases h with rfl | rfl | rfl | rfl | rfl | rfl <;> exact ⟨_, rfl⟩
  simp only [closes, List.contains_iff_mem, List.mem_cons, List.not_mem_nil, or_false] at h
  rcases h with rfl | rfl | rfl | rfl | rfl | rfl <;>
  exact { skipped_eq := rfl, accessor := fun _ _ => ⟨_, rfl⟩, updateOp := fun _ _ => ⟨_, rfl⟩
          chain := hop.seq_left, question := fun _ _ => ⟨_, rfl⟩
          assignOp := fun _ _ => ⟨_, rfl⟩ }

/-! ### Operators -/

theorem binaryOp_symbol (limit depth : Nat) (op : BinaryOp) (cs : List Char) :
    Matches rules limit depth binaryOp (op.symbol.toList ++ ' ' :: cs) (· = op) (' ' :: cs) := by
  intro offset f
  rcases op with op | op <;> cases op <;> exact ⟨_, _, _, rfl, rfl⟩

theorem endsOperand_binaryOp (op : BinaryOp) (cs : List Char) :
    EndsOperand (op.symbol.toList ++ ' ' :: cs) := by
  rcases op with op | op <;> cases op <;> exact ⟨rfl, fun _ _ => ⟨_, rfl⟩, fun _ _ => ⟨_, rfl⟩⟩

theorem endsChain_question (cs : List Char) : EndsChain ('?' :: ' ' :: cs) := by
  have hop {limit depth : Nat} : Refuses rules limit depth binaryOp ('?' :: ' ' :: cs) :=
    fun _ _ => ⟨_, rfl⟩
  exact { skipped_eq := rfl, accessor := fun _ _ => ⟨_, rfl⟩, updateOp := fun _ _ => ⟨_, rfl⟩
          chain := hop.seq_left }

theorem assignOp_symbol (limit depth : Nat) (op : AssignOp) (cs : List Char) :
    Matches rules limit depth assignOp (op.symbol.toList ++ ' ' :: cs) (· = op) (' ' :: cs) := by
  intro offset f
  cases op with
  | plain => exact ⟨_, _, _, rfl, rfl⟩
  | compound op => cases op <;> exact ⟨_, _, _, rfl, rfl⟩

/-- Of the assignment operators that shift, a shorter binary operator is read, but then no operand
follows. No other assignment operator starts with a binary one. -/
theorem chain_assignOp (limit depth : Nat) (op : AssignOp) (cs : List Char) :
    Refuses rules limit depth (.seq binaryOp unary) (op.symbol.toList ++ ' ' :: cs) := by
  have hshift {c : Char} {text rest : List Char} (hc : startsExpression c = false)
      (hskip : rules.skipped (c :: rest) = c :: rest)
      (hop : Matches rules limit depth binaryOp text (fun _ => True) (c :: rest)) :
      Refuses rules limit depth (.seq binaryOp unary) text := by
    refine .seq_right hop ?_
    rw [hskip]
    exact (opens_unary fun _ h => h).refuses hc hskip
  have hother {text : List Char} (hop : Refuses rules limit depth binaryOp text) :
      Refuses rules limit depth (.seq binaryOp unary) text := hop.seq_left
  cases op with
  | plain => exact hother fun _ _ => ⟨_, rfl⟩
  | compound op =>
    cases op with
    | shl => exact hshift (c := '<') rfl rfl fun _ _ => ⟨_, _, _, rfl, trivial⟩
    | shr => exact hshift (c := '>') rfl rfl fun _ _ => ⟨_, _, _, rfl, trivial⟩
    | ushr => exact hshift (c := '>') rfl rfl fun _ _ => ⟨_, _, _, rfl, trivial⟩
    | _ => exact hother fun _ _ => ⟨_, rfl⟩

theorem endsConditional_assignOp (op : AssignOp) (cs : List Char) :
    EndsConditional (op.symbol.toList ++ ' ' :: cs) := by
  have hchain {limit depth : Nat} := chain_assignOp limit depth op cs
  cases op with
  | plain =>
    exact ⟨⟨⟨rfl, fun _ _ => ⟨_, rfl⟩, fun _ _ => ⟨_, rfl⟩⟩, hchain⟩, fun _ _ => ⟨_, rfl⟩⟩
  | compound op =>
    cases op <;>
    exact ⟨⟨⟨rfl, fun _ _ => ⟨_, rfl⟩, fun _ _ => ⟨_, rfl⟩⟩, hchain⟩, fun _ _ => ⟨_, rfl⟩⟩

theorem updateOp_symbol (limit depth : Nat) (op : UpdateOp) (cs : List Char) :
    Matches rules limit depth updateOp (op.symbol.toList ++ cs) (· = op) cs := by
  intro offset f
  cases op <;> exact ⟨_, _, _, rfl, rfl⟩

theorem skipped_updateOp (op : UpdateOp) (cs : List Char) :
    rules.skipped (op.symbol.toList ++ cs) = op.symbol.toList ++ cs := by
  cases op <;> rfl

theorem accessor_updateOp (op : UpdateOp) (cs : List Char) :
    Refuses rules limit depth accessor (op.symbol.toList ++ cs) := by
  intro offset f
  cases op <;> exact ⟨_, rfl⟩

theorem unaryOp_symbol (limit depth : Nat) (op : UnaryOp) (cs : List Char) :
    ∃ mid, rules.skipped mid = '(' :: cs ∧
      Matches rules limit depth unaryOp (op.symbol.toList ++ '(' :: cs) (· = op) mid := by
  cases op with
  | delete => exact ⟨' ' :: '(' :: cs, rfl, fun _ _ => ⟨_, _, _, rfl, rfl⟩⟩
  | void => exact ⟨' ' :: '(' :: cs, rfl, fun _ _ => ⟨_, _, _, rfl, rfl⟩⟩
  | typeOf => exact ⟨' ' :: '(' :: cs, rfl, fun _ _ => ⟨_, _, _, rfl, rfl⟩⟩
  | _ => exact ⟨'(' :: cs, rfl, fun _ _ => ⟨_, _, _, rfl, rfl⟩⟩

/-! ### Level by level -/

theorem accessed_of_operand {label : Label} {acc : Expr Accessor}
    (h : Matches rules limit depth operand cs A mid) (hskip : rules.skipped mid = rest)
    (hacc : Refuses rules limit depth acc rest) :
    Matches rules limit depth (accessed label acc) cs A rest := by
  subst hskip
  refine ((h.seq (.many_nil hacc.spanned)).spanned.map ?_).labelled _
  rintro ⟨span, t, accessors⟩ ⟨ht, rfl⟩
  exact ht

theorem leftHandSide_of_operand (h : Matches rules limit depth operand cs A mid)
    (hskip : rules.skipped mid = rest) (hacc : Refuses rules limit depth accessor rest) :
    Matches rules limit depth leftHandSide cs A rest :=
  accessed_of_operand h hskip hacc

/-- An operand and one accessor. -/
theorem leftHandSide_of_accessor {Acc : Accessor → Prop}
    (h : Matches rules limit depth operand cs A mid) (hskip : rules.skipped mid = mid)
    (hacc : Matches rules limit depth accessor mid Acc rest) (hends : EndsOperand rest)
    (hB : ∀ start t span a, A t → Acc a → B (access start t (span, a))) :
    Matches rules limit depth leftHandSide cs B rest := by
  have hend : Refuses rules limit depth accessor (rules.skipped rest) := by
    rw [hends.skipped_eq]
    exact hends.accessor
  rw [← hskip] at hacc
  refine ((h.seq (.many_cons hacc.spanned (.nil hend.spanned _))).spanned.map ?_).labelled _
  rintro ⟨span, t, accessors⟩ ⟨ht, ⟨span', a⟩, as, rfl, ha, rfl⟩
  exact hB _ t span' a ht ha

theorem postfixed_of_leftHandSide (h : Matches rules limit depth leftHandSide cs A mid)
    (hskip : rules.skipped mid = rest) (hends : EndsOperand rest) :
    Matches rules limit depth postfixed cs A rest := by
  subst hskip
  refine ((h.seq (.opt_none hends.updateOp)).spanned.map ?_).labelled _
  rintro ⟨span, t, op⟩ ⟨ht, rfl⟩
  exact ht

theorem postfixed_of_updateOp {op : UpdateOp}
    (h : Matches rules limit depth leftHandSide cs A (op.symbol.toList ++ rest))
    (hB : ∀ t span, A t → B (.node span (.update op t))) :
    Matches rules limit depth postfixed cs B rest := by
  have hop := updateOp_symbol limit depth op rest
  rw [← skipped_updateOp] at hop
  refine ((h.seq (.opt_some hop)).spanned.map ?_).labelled _
  rintro ⟨span, t, _⟩ ⟨ht, _, rfl, rfl⟩
  exact hB t span ht

theorem unary_of_postfixed (hstart : rules.skipped cs = cs)
    (hop : Refuses rules limit depth unaryOp cs)
    (h : Matches rules limit depth postfixed cs A rest) :
    Matches rules limit depth unary cs A rest := by
  rw [← hstart] at h
  refine (((Matches.many_nil hop.spanned).seq h).map ?_).labelled _
  rintro ⟨ops, t⟩ ⟨rfl, ht⟩
  exact ht

theorem unary_of_unaryOp {op : UnaryOp} (h : Matches rules limit depth postfixed ('(' :: cs) A rest)
    (hB : ∀ t span, A t → B (.node span (.unary op t))) :
    Matches rules limit depth unary (op.symbol.toList ++ '(' :: cs) B rest := by
  obtain ⟨mid, hskip, hop⟩ := unaryOp_symbol limit depth op cs
  have hend : Refuses rules limit depth unaryOp ('(' :: cs) := fun _ _ => ⟨_, rfl⟩
  rw [← hskip] at h hend
  refine (((Matches.many_cons hop.spanned (.nil hend.spanned _)).seq h).map ?_).labelled _
  rintro ⟨ops, t⟩ ⟨⟨⟨span, _⟩, as, rfl, rfl, rfl⟩, ht⟩
  exact hB t _ ht

theorem binary_of_unary (h : Matches rules limit depth unary cs A mid)
    (hskip : rules.skipped mid = rest) (hends : EndsChain rest) :
    Matches rules limit depth binary cs A rest := by
  subst hskip
  refine ((h.seq (.many_nil hends.chain)).map ?_).labelled _
  rintro ⟨t, ops⟩ ⟨ht, rfl⟩
  exact ht

theorem binary_of_binaryOp {op : BinaryOp}
    (h : Matches rules limit depth unary cs A (op.symbol.toList ++ ' ' :: mid))
    (hskip : rules.skipped mid = mid) (h' : Matches rules limit depth unary mid B rest)
    (hends : EndsChain rest) (hC : ∀ t t' span, A t → B t' → C (.node span (.binary op t t'))) :
    Matches rules limit depth binary cs C rest := by
  have hop := binaryOp_symbol limit depth op mid
  rw [← (endsOperand_binaryOp op mid).skipped_eq] at hop
  rw [← hskip, ← skipped_space] at h'
  have hend : Refuses rules limit depth (.seq binaryOp unary) (rules.skipped rest) := by
    rw [hends.skipped_eq]
    exact hends.chain
  refine ((h.seq (.many_cons (hop.seq h') (.nil hend _))).map ?_).labelled _
  rintro ⟨t, ops⟩ ⟨ht, ⟨_, t'⟩, as, rfl, ⟨rfl, ht'⟩, rfl⟩
  exact hC t t' _ ht ht'

theorem conditional_of_binary (h : Matches rules limit depth binary cs A mid)
    (hskip : rules.skipped mid = rest) (hends : EndsConditional rest) :
    Matches rules limit depth conditional cs A rest := by
  subst hskip
  refine ((h.seq (.opt_none hends.question.seq_left.map)).spanned.map ?_).labelled _
  rintro ⟨span, t, branches⟩ ⟨ht, rfl⟩
  exact ht

theorem conditional_of_branches {yes no : List Char}
    (h : Matches rules limit depth binary cs A ('?' :: ' ' :: yes))
    (hskip : rules.skipped yes = yes)
    (hyes : Matches rules limit depth assignment yes B (':' :: ' ' :: no))
    (hskip' : rules.skipped no = no) (hno : Matches rules limit depth assignment no C rest)
    (hD : ∀ t t' t'' span, A t → B t' → C t'' → D (.node span (.conditional t t' t''))) :
    Matches rules limit depth conditional cs D rest := by
  have hquestion : Matches rules limit depth (mark "?") (rules.skipped ('?' :: ' ' :: yes))
      (fun _ => True) (' ' :: yes) := fun _ _ => ⟨_, _, _, rfl, trivial⟩
  have hcolon : Matches rules limit depth (mark ":") (rules.skipped (':' :: ' ' :: no))
      (fun _ => True) (' ' :: no) := fun _ _ => ⟨_, _, _, rfl, trivial⟩
  rw [← hskip, ← skipped_space] at hyes
  rw [← hskip', ← skipped_space] at hno
  refine ((h.seq (.opt_some (hquestion.right (hyes.seq (hcolon.right hno))))).spanned.map
    ?_).labelled _
  rintro ⟨span, t, _⟩ ⟨ht, ⟨t', t''⟩, rfl, ht', ht''⟩
  exact hD t t' t'' span ht ht' ht''

theorem assignment_of_conditional (h : Matches rules limit depth conditional cs A mid)
    (hskip : rules.skipped mid = rest) (hends : EndsAssignment rest) :
    Matches rules limit (depth + 1) assignment cs A rest := by
  subst hskip
  refine .call (((h.seq (.opt_none hends.assignOp.seq_left)).spanned.map ?_).labelled _)
  rintro ⟨span, t, tail⟩ ⟨ht, rfl⟩
  exact ht

theorem assignment_of_assignOp {op : AssignOp}
    (h : Matches rules limit depth conditional cs A (op.symbol.toList ++ ' ' :: mid))
    (hskip : rules.skipped mid = mid) (h' : Matches rules limit depth assignment mid B rest)
    (hC : ∀ t t' span, A t → B t' → C (.node span (.assign op t t'))) :
    Matches rules limit (depth + 1) assignment cs C rest := by
  have hop := assignOp_symbol limit depth op mid
  rw [← (endsConditional_assignOp op mid).skipped_eq] at hop
  rw [← hskip, ← skipped_space] at h'
  refine .call (((h.seq (.opt_some (hop.seq h'))).spanned.map ?_).labelled _)
  rintro ⟨span, t, _⟩ ⟨ht, ⟨_, t'⟩, rfl, rfl, ht'⟩
  exact hC t t' span ht ht'

/-! ### Up to the level where the text ends -/

theorem unary_of_leftHandSide (hstart : rules.skipped cs = cs)
    (hop : Refuses rules limit depth unaryOp cs)
    (h : Matches rules limit depth leftHandSide cs A rest) (hends : EndsOperand rest) :
    Matches rules limit depth unary cs A rest :=
  unary_of_postfixed hstart hop (postfixed_of_leftHandSide h hends.skipped_eq hends)

theorem unary_of_operand (hstart : rules.skipped cs = cs)
    (hop : Refuses rules limit depth unaryOp cs) (h : Matches rules limit depth operand cs A mid)
    (hskip : rules.skipped mid = rest) (hends : EndsOperand rest) :
    Matches rules limit depth unary cs A rest :=
  unary_of_leftHandSide hstart hop (leftHandSide_of_operand h hskip hends.accessor) hends

theorem assignment_of_binary (h : Matches rules limit depth binary cs A rest)
    (hends : EndsAssignment rest) : Matches rules limit (depth + 1) assignment cs A rest := by
  have hconditional := conditional_of_binary h hends.skipped_eq hends.toEndsConditional
  exact assignment_of_conditional hconditional hends.skipped_eq hends

theorem assignment_of_unary (h : Matches rules limit depth unary cs A rest)
    (hends : EndsAssignment rest) : Matches rules limit (depth + 1) assignment cs A rest :=
  assignment_of_binary (binary_of_unary h hends.skipped_eq hends.toEndsChain) hends

/-! ### Marks and lists -/

section Lists

variable {α β : Type} {p : Expr α} {P : α → Prop}

theorem mark_append (s : String) (cs : List Char) :
    Matches rules limit depth (mark s) (s.toList ++ cs) (fun _ => True) cs := by
  have hlexeme : Grammar.Lexeme.exactly s.toList (s.toList ++ cs) = some (s.toList, cs) := by
    rw [Grammar.Lexeme.exactly, Text.dropPrefix?_eq_some_iff.2 rfl]
    rfl
  exact (Matches.lexeme hlexeme).weaken fun _ _ => trivial

/-- What stands between two marks. -/
theorem between_marks (s s' : String) (h : Matches rules limit depth p (rules.skipped cs) P mid)
    (hskip : rules.skipped mid = s'.toList ++ rest) :
    Matches rules limit depth (.right (mark s) (.left p (mark s'))) (s.toList ++ cs) P rest := by
  refine (mark_append s cs).right (h.left (B := fun _ => True) ?_)
  rw [hskip]
  exact mark_append s' rest

theorem refuses_comma {c : Char} (hc : closes c = true) (hne : c ≠ ',') (cs : List Char) :
    Refuses rules limit depth (mark ",") (c :: cs) := by
  have hopens : Grammar.Opens rules (· == ',') (mark ",") := opens_mark rfl
  exact hopens.refuses (beq_eq_false_iff_ne.2 hne) (endsAssignment_of_closes hc cs).skipped_eq

/-- Between marks that close, the expression reads the text of an item. -/
structure ReadsItem (limit depth : Nat) (p : Expr α) (text : List Char) (P : α → Prop) : Prop where
  skipped_eq : ∀ cs, rules.skipped (text ++ cs) = text ++ cs
  reads : ∀ c cs, closes c = true → Matches rules limit depth p (text ++ c :: cs) P (c :: cs)

variable {text : β → List Char} {R : β → α → Prop} {xs : List β} {c : Char}

/-- An item ends at the comma before the next one or at the mark that closes the list. -/
theorem item_following {x : β} (hx : ReadsItem limit depth p (text x) (R x)) (hc : closes c = true)
    (xs : List β) (cs : List Char) :
    Matches rules limit depth p (text x ++ (following (xs.map text) ++ c :: cs)) (R x)
      (following (xs.map text) ++ c :: cs) := by
  cases xs with
  | nil => exact hx.reads c cs hc
  | cons y ys => exact hx.reads ',' _ rfl

theorem comma_following {x : β} (hx : ReadsItem limit depth p (text x) (R x)) (hc : closes c = true)
    (xs : List β) (cs : List Char) :
    Matches rules limit depth (.right (mark ",") p) (following ((x :: xs).map text) ++ c :: cs)
      (R x) (following (xs.map text) ++ c :: cs) := by
  have hitem := item_following hx hc xs cs
  rw [← hx.skipped_eq, ← skipped_space] at hitem
  rw [List.map_cons, following, List.append_assoc]
  exact (mark_append "," _).right hitem

theorem refuses_comma_right (hc : closes c = true) (hne : c ≠ ',') (cs : List Char) :
    Refuses rules limit depth (.right (mark ",") p) (c :: cs) :=
  (refuses_comma hc hne cs).seq_left.map

/-- Further rounds read the items of a list up to the mark that closes it. -/
theorem rounds_following (h : ∀ x ∈ xs, ReadsItem limit depth p (text x) (R x))
    (hc : closes c = true) (hne : c ≠ ',') {n : Nat} (hn : xs.length ≤ n) (cs : List Char) :
    MatchesRounds rules limit depth (.right (mark ",") p) n (following (xs.map text) ++ c :: cs)
      (List.Forall₂ R xs) (c :: cs) := by
  induction xs generalizing n with
  | nil =>
    have hend : Refuses rules limit depth (.right (mark ",") p) (rules.skipped (c :: cs)) := by
      rw [(endsAssignment_of_closes hc cs).skipped_eq]
      exact refuses_comma_right hc hne cs
    refine (MatchesRounds.nil hend n).weaken ?_
    rintro _ rfl
    exact .nil
  | cons x xs ih =>
    obtain ⟨hx, hxs⟩ := List.forall_mem_cons.1 h
    cases n with
    | zero => cases hn
    | succ n =>
      have hrounds := ih hxs (Nat.le_of_succ_le_succ hn)
      refine (MatchesRounds.cons (comma_following hx hc xs cs) hrounds).weaken ?_
      rintro _ ⟨a, as, rfl, ha, has⟩
      exact .cons ha has

theorem many_following (h : ∀ x ∈ xs, ReadsItem limit depth p (text x) (R x))
    (hc : closes c = true) (hne : c ≠ ',') (hlimit : xs.length ≤ limit) (cs : List Char) :
    Matches rules limit depth (.many (.right (mark ",") p)) (following (xs.map text) ++ c :: cs)
      (List.Forall₂ R xs) (c :: cs) := by
  cases xs with
  | nil =>
    refine (Matches.many_nil (refuses_comma_right hc hne cs)).weaken ?_
    rintro _ rfl
    exact .nil
  | cons x xs =>
    obtain ⟨hx, hxs⟩ := List.forall_mem_cons.1 h
    have hrounds := rounds_following hxs hc hne (Nat.le_of_succ_le hlimit) cs
    refine (Matches.many_cons (comma_following hx hc xs cs) hrounds).weaken ?_
    rintro _ ⟨a, as, rfl, ha, has⟩
    exact .cons ha has

theorem commaList_of_many {Ps : List α → Prop} (h : Matches rules limit depth p cs P mid)
    (hskip : rules.skipped mid = mid)
    (hmany : Matches rules limit depth (.many (.right (mark ",") p)) mid Ps rest) :
    Matches rules limit depth (commaList p) cs
      (fun as => ∃ a as', as = a :: as' ∧ P a ∧ Ps as') rest := by
  rw [← hskip] at hmany
  exact (h.seq hmany).map fun (a, as) ⟨ha, has⟩ => ⟨a, as, rfl, ha, has⟩

theorem skipped_following (hc : closes c = true) (texts : List (List Char)) (cs : List Char) :
    rules.skipped (following texts ++ c :: cs) = following texts ++ c :: cs := by
  cases texts with
  | nil => exact (endsAssignment_of_closes hc cs).skipped_eq
  | cons text texts => rfl

theorem skipped_separated (h : ∀ x ∈ xs, ReadsItem limit depth p (text x) (R x))
    (hc : closes c = true) (cs : List Char) :
    rules.skipped (separated (xs.map text) ++ c :: cs) = separated (xs.map text) ++ c :: cs := by
  cases xs with
  | nil => exact (endsAssignment_of_closes hc cs).skipped_eq
  | cons x xs =>
    rw [List.map_cons, separated, List.append_assoc]
    exact (h x List.mem_cons_self).skipped_eq _

/-- A list with commas between its items, or nothing, up to the closing mark. -/
theorem optional_separated (h : ∀ x ∈ xs, ReadsItem limit depth p (text x) (R x))
    (hc : closes c = true) (hne : c ≠ ',') (hlimit : xs.length ≤ limit)
    (hend : Refuses rules limit depth p (c :: cs)) :
    Matches rules limit depth (.map (·.getD []) (.opt (commaList p)))
      (separated (xs.map text) ++ c :: cs) (List.Forall₂ R xs) (c :: cs) := by
  cases xs with
  | nil =>
    refine (Matches.opt_none hend.seq_left.map).map ?_
    rintro _ rfl
    exact .nil
  | cons x xs =>
    obtain ⟨hx, hxs⟩ := List.forall_mem_cons.1 h
    have hmany := many_following hxs hc hne (Nat.le_of_succ_le hlimit) cs
    have hskip := skipped_following hc (xs.map text) cs
    rw [List.map_cons, separated, List.append_assoc]
    refine (commaList_of_many (item_following hx hc xs cs) hskip hmany).opt_some.map ?_
    rintro _ ⟨_, rfl, a, as, rfl, ha, has⟩
    exact .cons ha has

/-- The items of a literal between its two marks. -/
theorem items_between_marks (s s' : String) {p : Expr Tree} {R : β → Tree → Prop}
    (h : ∀ x ∈ xs, ReadsItem limit depth p (text x) (R x)) (hs' : s'.toList = [c])
    (hc : closes c = true) (hne : c ≠ ',') (hlimit : xs.length ≤ limit)
    (hend : Refuses rules limit depth p (c :: cs)) :
    Matches rules limit depth (.right (mark s) (.left (items p) (mark s')))
      (s.toList ++ (separated (xs.map text) ++ c :: cs)) (List.Forall₂ R xs) cs := by
  have hskip := (endsAssignment_of_closes hc cs).skipped_eq
  -- no comma follows the last item
  have hnone : Matches rules limit depth (.opt (mark ",")) (rules.skipped (c :: cs)) (· = none)
      (c :: cs) := by
    rw [hskip]
    exact .opt_none (refuses_comma hc hne cs)
  have hitems := (optional_separated h hc hne hlimit hend).left hnone
  rw [← skipped_separated h hc] at hitems
  refine between_marks s s' hitems ?_
  rw [hs', hskip]
  rfl

end Lists

theorem expression_of_assignment {c : Char}
    (h : Matches rules limit depth assignment cs A (c :: rest)) (hc : closes c = true)
    (hne : c ≠ ',') : Matches rules limit depth expression cs A (c :: rest) := by
  have hskip := (endsAssignment_of_closes hc rest).skipped_eq
  refine ((commaList_of_many h hskip (.many_nil (refuses_comma_right hc hne rest))).spanned.map
    ?_).labelled _
  rintro ⟨span, _⟩ ⟨t, _, rfl, ht, rfl⟩
  exact ht

/-! ### Constructs with marks of their own -/

theorem group_of_assignment (hstart : rules.skipped cs = cs)
    (h : Matches rules limit depth assignment cs A (')' :: rest))
    (hB : ∀ t span, A t → B (.node span (.group t))) :
    Matches rules limit depth group ('(' :: cs) B rest := by
  have hexpression := expression_of_assignment h rfl (by decide)
  rw [← hstart] at hexpression
  have hskip := (endsAssignment_of_closes (c := ')') rfl rest).skipped_eq
  refine ((between_marks "(" ")" hexpression hskip).spanned.map ?_).labelled _
  rintro ⟨span, t⟩ ht
  exact hB t span ht

/-- Arguments in parentheses belong to the nearest `new`. -/
theorem newExpression_of_operand {Ts : List Tree → Prop} (hskip : rules.skipped cs = cs)
    (h : Matches rules limit depth operand cs A ('(' :: mid))
    (hargs : Matches rules limit depth arguments ('(' :: mid) Ts rest)
    (hB : ∀ t ts span, A t → Ts ts → B (.node span (.construct t ts))) :
    Matches rules limit depth newExpression ('n' :: 'e' :: 'w' :: ' ' :: cs) B rest := by
  have hword : Matches rules limit depth (keyword .kNew "new") ('n' :: 'e' :: 'w' :: ' ' :: cs)
      (fun _ => True) (' ' :: cs) := fun _ _ => ⟨_, _, _, rfl, trivial⟩
  have hcallee : Matches rules limit depth newCallee cs A ('(' :: mid) :=
    accessed_of_operand h rfl fun _ _ => ⟨_, rfl⟩
  rw [← hskip, ← skipped_space] at hcallee
  refine ((hword.right (hcallee.seq hargs.opt_some)).spanned.map ?_).labelled _
  rintro ⟨span, t, _⟩ ⟨ht, ts, rfl, hts⟩
  exact hB t ts span ht hts

end ScriptTypes.Script.Syntax
