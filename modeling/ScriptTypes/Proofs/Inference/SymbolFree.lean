import ScriptTypes.Proofs.Duplicates
import ScriptTypes.Proofs.Inference.Within
import ScriptTypes.Proofs.TypeName.Encoding

/-!
# Expressions without symbols

The types of an expression that is made of literals and operators follow from its construct and the
types of its two operands. Inference finds them in another way: it walks along a whole chain of
additions, stops at a string literal and asks for the operands from the last one to the first, and
it writes the types of arrays as names, which it takes apart again.

`Module.plainTypes` are the types by recursion on the operands. Inference gives the same, in every
registry and with any symbols in progress, and leaves the registry as it is.

Main statement: `infer_of_symbolFree`.
-/

namespace ScriptTypes

open Script (Form Literal LogicalOp Module NodeId Tree UnaryOp)

/-! ### Types without generated names -/

/-- The types that an expression without symbols can have. -/
inductive PlainType where
  | boolean
  | number
  | object
  | regExp
  | string
  /-- An array of unknown elements. -/
  | array
  | arrayOf (element : PlainType)
  deriving DecidableEq, Repr

namespace PlainType

def name : PlainType → TypeName
  | boolean => TypeName.booleanType
  | number => TypeName.numberType
  | object => TypeName.objectType
  | regExp => Primitive.regExp.name
  | string => TypeName.stringType
  | array => TypeName.arrayType
  | arrayOf element => TypeName.arrayTypeOf element.name

/-- The type of the elements; those of other types than arrays can be anything. -/
def element : PlainType → PlainType
  | arrayOf element => element
  | _ => object

def ofLiteral : Literal → PlainType
  | .string _ => string
  | .number _ => number
  | .boolean _ => boolean
  | .regex _ => regExp

def ofUnary : UnaryOp → List PlainType
  | .delete | .not => [boolean]
  | .typeOf => [string]
  | .void => []
  | .increment | .decrement | .plus | .minus | .bitNot => [number]

theorem encoding_name (t : PlainType) : TypeName.Encoding t.name := by
  induction t with
  | arrayOf element ih => exact .array ih
  | boolean | number | object | regExp | string | array => exact .atom (by decide)

/-- The name of an array's type gives the type of the elements back. -/
theorem elementType?_name (t : PlainType) :
    (TypeName.elementType? t.name).getD TypeName.objectType = t.element.name := by
  cases t with
  | arrayOf element =>
    rw [name, TypeName.elementType?_of_encoded element.encoding_name.encoded]
    rfl
  | boolean | number | object | regExp | string | array => decide

theorem name_injective : Function.Injective name := by
  intro t
  have hatom (element : PlainType) {text : TypeName} (htext : TypeName.elementType? text = none) :
      text ≠ TypeName.arrayTypeOf element.name := by
    rintro rfl
    rw [TypeName.elementType?_of_encoded element.encoding_name.encoded] at htext
    cases htext
  induction t with
  | arrayOf element ih =>
    intro t h
    cases t with
    | arrayOf element' =>
      have helement := congrArg TypeName.elementType? h
      simp only [name, TypeName.elementType?_of_encoded element.encoding_name.encoded,
        TypeName.elementType?_of_encoded element'.encoding_name.encoded] at helement
      exact congrArg arrayOf (ih (Option.some.inj helement))
    | boolean | number | object | regExp | string | array =>
      exact absurd h.symm (hatom element (by decide))
  | boolean | number | object | regExp | string | array =>
    intro t h
    cases t with
    | arrayOf element => exact absurd h (hatom element (by decide))
    | boolean | number | object | regExp | string | array => revert h; decide

/-- Each type is kept where its name comes first. -/
theorem names_ofList (ts : List PlainType) :
    (TypeList.ofList (ts.map name)).names = ts.eraseDups.map name := by
  induction ts using List.reverseRecOn with
  | nil => rfl
  | append_singleton ts t ih =>
    have hcanonical : canonicalTypeName? t.name = some t.name :=
      TypeName.canonicalTypeName?_of_encoded t.encoding_name.encoded
    have hadd : TypeList.ofList ((ts ++ [t]).map name)
        = (TypeList.ofList (ts.map name)).add t.name := by
      simp [TypeList.ofList, TypeList.extend]
    have hmem : t.name ∈ ts.eraseDups.map name ↔ t ∈ ts := by
      rw [List.mem_map_of_injective name_injective, List.mem_eraseDups]
    rw [hadd, TypeList.add, hcanonical, List.eraseDups_append]
    simp only [TypeList.contains, List.contains_eq_mem, ih, hmem]
    by_cases ht : t ∈ ts <;> simp [ht, ih, List.removeAll, List.eraseDups_cons]

theorem contains_ofList (ts : List PlainType) :
    (TypeList.ofList (ts.map name)).contains TypeName.stringType = decide (string ∈ ts) := by
  have hmem : TypeName.stringType ∈ ts.eraseDups.map name ↔ string ∈ ts := by
    rw [← List.mem_eraseDups (l := ts)]
    exact List.mem_map_of_injective name_injective (a := string)
  rw [TypeList.contains, names_ofList, List.contains_eq_mem, decide_eq_decide]
  exact hmem

end PlainType

/-! ### Types by recursion on the operands -/

/-- The types of constructs that have the same ones for all operands. -/
def Script.Form.fixedTypes? {α : Type} : Form α → Option (List PlainType)
  | .literal value => some [.ofLiteral value]
  | .this | .null | .comma _ => some []
  | .array [] => some [.array]
  | .unary op _ => some (PlainType.ofUnary op)
  | .update .. => some [.number]
  | .binary (.arithmetic op) .. => if op = .add then none else some [.number]
  | .binary (.logical op) .. => if op = .and ∨ op = .or then none else some [.boolean]
  | .assign (.compound op) .. => if op = .add then none else some [.number]
  | _ => none

/-- The type of a sum: strings make it a string. -/
def PlainType.sum (lhs rhs : List PlainType) : PlainType :=
  if .string ∈ lhs ∨ .string ∈ rhs then .string else .number

namespace Script.Module

variable (m : Module)

/-- The types of a node by its construct and the types of its operands. -/
def plainTypes (n : NodeId) : List PlainType :=
  match _h : m.form n with
  | .array (first :: _) => (plainTypes first).map .arrayOf
  | .group inner => plainTypes inner
  | .binary (.arithmetic .add) lhs rhs => [.sum (plainTypes lhs) (plainTypes rhs)]
  | .binary (.logical .and) lhs rhs => (plainTypes lhs ++ plainTypes rhs).eraseDups
  | .binary (.logical .or) lhs rhs => (plainTypes lhs ++ plainTypes rhs).eraseDups
  | .assign .plain _ rhs => plainTypes rhs
  | .assign (.compound .add) lhs rhs => [.sum (plainTypes lhs) (plainTypes rhs)]
  | .conditional _ yes no => (plainTypes yes ++ plainTypes no).eraseDups
  | .element object _ => ((plainTypes object).map .element).eraseDups
  | form => form.fixedTypes?.getD []
termination_by n
decreasing_by all_goals exact m.lt_of_form_eq _h (by simp [Form.children])

/-- A node whose types depend on no symbol. Operands that do not matter to them may be anything:
the left side of an assignment, the condition of a conditional, the index of an element and all but
the first items of an array. -/
inductive SymbolFree : NodeId → Prop
  | fixed {n : NodeId} {ts : List PlainType} (h : (m.form n).fixedTypes? = some ts) : SymbolFree n
  | array {n first : NodeId} {rest : List NodeId} (h : m.form n = .array (first :: rest))
      (hfirst : SymbolFree first) : SymbolFree n
  | group {n inner : NodeId} (h : m.form n = .group inner) (hinner : SymbolFree inner) :
      SymbolFree n
  | add {n lhs rhs : NodeId} (h : m.form n = .binary (.arithmetic .add) lhs rhs)
      (hlhs : SymbolFree lhs) (hrhs : SymbolFree rhs) : SymbolFree n
  | junction {n lhs rhs : NodeId} {op : LogicalOp} (hop : op = .and ∨ op = .or)
      (h : m.form n = .binary (.logical op) lhs rhs) (hlhs : SymbolFree lhs)
      (hrhs : SymbolFree rhs) : SymbolFree n
  | assign {n lhs rhs : NodeId} (h : m.form n = .assign .plain lhs rhs) (hrhs : SymbolFree rhs) :
      SymbolFree n
  | append {n lhs rhs : NodeId} (h : m.form n = .assign (.compound .add) lhs rhs)
      (hlhs : SymbolFree lhs) (hrhs : SymbolFree rhs) : SymbolFree n
  | conditional {n cond yes no : NodeId} (h : m.form n = .conditional cond yes no)
      (hyes : SymbolFree yes) (hno : SymbolFree no) : SymbolFree n
  | element {n object index : NodeId} (h : m.form n = .element object index)
      (hobject : SymbolFree object) : SymbolFree n

section Equations

variable {m} {n : NodeId}

theorem plainTypes_of_fixed {ts : List PlainType} (h : (m.form n).fixedTypes? = some ts) :
    m.plainTypes n = ts := by
  rw [plainTypes]
  split <;> simp_all [Form.fixedTypes?]

theorem plainTypes_array {first : NodeId} {rest : List NodeId}
    (h : m.form n = .array (first :: rest)) :
    m.plainTypes n = (m.plainTypes first).map .arrayOf := by
  rw [plainTypes]
  split <;> simp_all

theorem plainTypes_group {inner : NodeId} (h : m.form n = .group inner) :
    m.plainTypes n = m.plainTypes inner := by
  rw [plainTypes]
  split <;> simp_all

theorem plainTypes_add {lhs rhs : NodeId} (h : m.form n = .binary (.arithmetic .add) lhs rhs) :
    m.plainTypes n = [.sum (m.plainTypes lhs) (m.plainTypes rhs)] := by
  rw [plainTypes]
  split <;> simp_all

theorem plainTypes_junction {lhs rhs : NodeId} {op : LogicalOp} (hop : op = .and ∨ op = .or)
    (h : m.form n = .binary (.logical op) lhs rhs) :
    m.plainTypes n = (m.plainTypes lhs ++ m.plainTypes rhs).eraseDups := by
  rw [plainTypes]
  rcases hop with rfl | rfl <;> split <;> simp_all

theorem plainTypes_assign {lhs rhs : NodeId} (h : m.form n = .assign .plain lhs rhs) :
    m.plainTypes n = m.plainTypes rhs := by
  rw [plainTypes]
  split <;> simp_all

theorem plainTypes_append {lhs rhs : NodeId} (h : m.form n = .assign (.compound .add) lhs rhs) :
    m.plainTypes n = [.sum (m.plainTypes lhs) (m.plainTypes rhs)] := by
  rw [plainTypes]
  split <;> simp_all

theorem plainTypes_conditional {cond yes no : NodeId} (h : m.form n = .conditional cond yes no) :
    m.plainTypes n = (m.plainTypes yes ++ m.plainTypes no).eraseDups := by
  rw [plainTypes]
  split <;> simp_all

theorem plainTypes_element {object index : NodeId} (h : m.form n = .element object index) :
    m.plainTypes n = ((m.plainTypes object).map .element).eraseDups := by
  rw [plainTypes]
  split <;> simp_all

end Equations

/-! ### Chains of additions -/

theorem mem_plainTypes_add {n lhs rhs : NodeId}
    (h : m.form n = .binary (.arithmetic .add) lhs rhs) :
    .string ∈ m.plainTypes n ↔ .string ∈ m.plainTypes lhs ∨ .string ∈ m.plainTypes rhs := by
  rw [plainTypes_add h, List.mem_singleton, PlainType.sum]
  split
  · rename_i hstring
    exact ⟨fun _ => hstring, fun _ => rfl⟩
  · rename_i hnone
    exact ⟨fun heq => (nomatch heq), fun hstring => absurd hstring hnone⟩

/-- A node can be a string exactly if an operand of its chain of additions can. -/
theorem string_mem_plainTypes_iff (n : NodeId) :
    .string ∈ m.plainTypes n ↔ ∃ v ∈ m.addedNodes n, .string ∈ m.plainTypes v := by
  induction n using Nat.strongRecOn with
  | ind n ih =>
    rw [addedNodes]
    split
    · rename_i lhs rhs hform
      rw [m.mem_plainTypes_add hform]
      split
      · simp [or_comm]
      · rw [ih lhs (m.lt_of_form_eq hform (by simp [Form.children]))]
        simp [or_comm]
    · simp

theorem string_mem_of_isStringLiteral {n : NodeId} (h : m.isStringLiteral n = true) :
    .string ∈ m.plainTypes n := by
  unfold isStringLiteral at h
  split at h
  · rename_i hform
    have hfixed : (m.form n).fixedTypes? = some [.string] := by
      rw [hform]
      rfl
    rw [plainTypes_of_fixed hfixed]
    exact List.mem_singleton_self _
  · cases h

variable {m}

/-- The operands of a chain of additions depend on no symbol either. -/
theorem SymbolFree.of_mem_addedNodes {n : NodeId} (h : m.SymbolFree n) :
    ∀ v ∈ m.addedNodes n, m.SymbolFree v := by
  induction n using Nat.strongRecOn with
  | ind n ih =>
    rw [addedNodes]
    split
    · rename_i lhs rhs hform
      obtain ⟨hlhs, hrhs⟩ : m.SymbolFree lhs ∧ m.SymbolFree rhs := by
        cases h with
        | add hform' hlhs hrhs =>
          cases hform.symm.trans hform'
          exact ⟨hlhs, hrhs⟩
        | fixed hfixed => simp [hform, Form.fixedTypes?] at hfixed
        | array hform' _ | group hform' _ | junction _ hform' _ _ | assign hform' _
        | append hform' _ _ | conditional hform' _ _ | element hform' _ =>
          cases hform.symm.trans hform'
      have hchain := ih lhs (m.lt_of_form_eq hform (by simp [Form.children])) hlhs
      split
      · simpa using ⟨hrhs, hlhs⟩
      · exact List.forall_mem_cons.2 ⟨hrhs, hchain⟩
    · simpa using h

end Script.Module

/-! ### What inference finds -/

namespace Inference

variable {s : Setting} {entered : List Symbol} {r : Registry} {scope : ScopeId} {n : NodeId}

/-- Inference finds the types of a node and leaves the registry as it is. -/
def Finds (s : Setting) (entered : List Symbol) (r : Registry) (scope : ScopeId) (n : NodeId)
    (types : List PlainType) : Prop :=
  ∃ ts : List PlainType, ts.eraseDups = types ∧
    answer s entered (.node scope n) r = (ts.map PlainType.name, r)

theorem answer_node (howner : s.owner? scope n = none) :
    answer s entered (.node scope n)
      = (formTypes s scope n).run (currently s) fun b _ => answer s entered b := by
  have hsome : enter entered (.node scope n) = some entered := rfl
  rw [answer_of_enter_eq_some hsome]
  show (nodeTypes s scope n).run (currently s) _ = _
  rw [nodeTypes]
  split
  · rename_i howner'
    cases howner.symm.trans howner'
  · rfl

/-- Constructs of fixed types ask for nothing. -/
theorem formTypes_of_fixed (scope : ScopeId) {ts : List PlainType}
    (h : (s.module.form n).fixedTypes? = some ts) :
    s.owner? scope n = none ∧ s.parts scope n = [] ∧ ts.Nodup ∧
      formTypes s scope n = .done (ts.map PlainType.name) := by
  unfold Setting.owner? Setting.parts formTypes
  unfold Form.fixedTypes? at h
  split at h
  case h_1 value hform =>
    cases h
    rw [hform]
    cases value <;> exact ⟨rfl, rfl, List.nodup_singleton _, rfl⟩
  case h_6 op operand hform =>
    cases h
    rw [hform]
    cases op <;> exact ⟨rfl, rfl, by decide, rfl⟩
  case h_8 op lhs rhs hform =>
    obtain ⟨hop, rfl⟩ : op ≠ .add ∧ [.number] = ts := by simpa using h
    rw [hform]
    cases op with
    | add => exact absurd rfl hop
    | _ => exact ⟨rfl, rfl, List.nodup_singleton _, rfl⟩
  case h_9 op lhs rhs hform =>
    obtain ⟨⟨hand, hor⟩, rfl⟩ : (op ≠ .and ∧ op ≠ .or) ∧ [.boolean] = ts := by simpa using h
    rw [hform]
    cases op with
    | and => exact absurd rfl hand
    | or => exact absurd rfl hor
    | _ => exact ⟨rfl, rfl, List.nodup_singleton _, rfl⟩
  case h_10 op lhs rhs hform =>
    obtain ⟨hop, rfl⟩ : op ≠ .add ∧ [.number] = ts := by simpa using h
    rw [hform]
    cases op with
    | add => exact absurd rfl hop
    | _ => exact ⟨rfl, rfl, List.nodup_singleton _, rfl⟩
  case h_11 => cases h
  all_goals
    rename_i hform
    cases h
    rw [hform]
    exact ⟨rfl, rfl, by decide, rfl⟩

/-- What depends on no symbol has no owner. -/
theorem owner?_of_symbolFree (h : s.module.SymbolFree n) : s.owner? scope n = none := by
  cases h with
  | fixed hfixed => exact (formTypes_of_fixed scope hfixed).1
  | array hform _ | group hform _ | add hform _ _ | junction _ hform _ _ | assign hform _
  | append hform _ _ | conditional hform _ _ | element hform _ => simp [Setting.owner?, hform]

section Parts

variable {nodes : List NodeId} (hnodes : s.parts scope n = nodes.map fun v => (scope, v))
  (hparts : ∀ p ∈ s.parts scope n, Finds s entered r p.1 p.2 (s.module.plainTypes p.2))
include hnodes hparts

theorem run_partTypes :
    ∃ ts : List PlainType, ts.eraseDups = (nodes.flatMap s.module.plainTypes).eraseDups ∧
      (partTypes s scope n).run (currently s) (fun b _ => answer s entered b) r
        = (ts.map PlainType.name, r) := by
  choose! types hdups hanswer using hparts
  refine ⟨(s.parts scope n).flatMap types, ?_, ?_⟩
  · have hnodes' : nodes.flatMap s.module.plainTypes
        = (s.parts scope n).flatMap fun p => s.module.plainTypes p.2 := by
      rw [hnodes, List.flatMap_map]
    rw [hnodes']
    refine eraseDups_flatMap_congr fun p hp => ?_
    rw [← hdups p hp, eraseDups_eq_self (nodup_eraseDups (types p))]
  · refine (Program.run_gather (g := fun p => (types p.1).map PlainType.name)
      fun p => ?_).trans ?_
    · exact hanswer p.1 p.2
    · rw [List.map_flatMap]
      conv_rhs => rw [← List.attach_map_subtype_val (s.parts scope n), List.flatMap_map]

theorem run_anyString :
    (anyString s scope n).run (currently s) (fun b _ => answer s entered b) r
      = (decide (∃ v ∈ nodes, .string ∈ s.module.plainTypes v), r) := by
  refine (Program.run_anyOf (g := fun p => decide (.string ∈ s.module.plainTypes p.1.2))
    fun p => ?_).trans ?_
  · obtain ⟨ts, hdups, hanswer⟩ := hparts p.1 p.2
    show ((TypeList.ofList (answer s entered (.node p.1.1 p.1.2) r).1).contains TypeName.stringType,
      (answer s entered (.node p.1.1 p.1.2) r).2) = _
    rw [hanswer, PlainType.contains_ofList, ← hdups]
    simp
  · rw [Prod.mk.injEq, Bool.eq_iff_iff]
    simp [hnodes]

variable (howner : s.owner? scope n = none)
include howner

/-- Where inference takes the types of the parts as they are. -/
theorem finds_partTypes (hform : formTypes s scope n = partTypes s scope n) :
    Finds s entered r scope n (nodes.flatMap s.module.plainTypes).eraseDups := by
  obtain ⟨ts, hdups, hrun⟩ := run_partTypes hnodes hparts
  exact ⟨ts, hdups, by rw [answer_node howner, hform, hrun]⟩

/-- Where inference changes the types of the parts. -/
theorem finds_map_partTypes {f : TypeName → TypeName} {g : PlainType → PlainType}
    (hg : ∀ t, f t.name = (g t).name)
    (hform : formTypes s scope n = do
      return (TypeList.ofList (← partTypes s scope n)).names.map f) :
    Finds s entered r scope n
      ((nodes.flatMap s.module.plainTypes).eraseDups.map g).eraseDups := by
  obtain ⟨ts, hdups, hrun⟩ := run_partTypes hnodes hparts
  refine ⟨_, rfl, ?_⟩
  have hcomp : f ∘ PlainType.name = PlainType.name ∘ g := funext hg
  rw [answer_node howner, hform, Program.run_bind_pure hrun, PlainType.names_ofList, hdups,
    List.map_map, List.map_map, hcomp]

/-- Where inference asks whether a part is a string. -/
theorem finds_anyString (hform : formTypes s scope n = do
      return [if ← anyString s scope n then TypeName.stringType else TypeName.numberType]) :
    Finds s entered r scope n
      [if ∃ v ∈ nodes, .string ∈ s.module.plainTypes v then .string else .number] := by
  refine ⟨_, eraseDups_eq_self (List.nodup_singleton _), ?_⟩
  rw [answer_node howner, hform, Program.run_bind_pure (run_anyString hnodes hparts)]
  by_cases h : ∃ v ∈ nodes, .string ∈ s.module.plainTypes v
  · simp only [h, decide_true, if_true]
    rfl
  · simp only [h, decide_false, if_false]
    rfl

end Parts

/-- The parts of a node that depends on no symbol depend on none. -/
theorem symbolFree_of_mem_parts (h : s.module.SymbolFree n) :
    ∀ p ∈ s.parts scope n, s.module.SymbolFree p.2 := by
  cases h with
  | fixed hfixed =>
    rw [(formTypes_of_fixed scope hfixed).2.1]
    exact fun p hp => nomatch hp
  | add hform hlhs hrhs =>
    intro p hp
    rw [Setting.parts, hform] at hp
    obtain ⟨v, hv, rfl⟩ := List.mem_map.1 hp
    exact (Script.Module.SymbolFree.add hform hlhs hrhs).of_mem_addedNodes v hv
  | junction hop hform hlhs hrhs =>
    rcases hop with rfl | rfl <;> simpa [Setting.parts, hform] using ⟨hlhs, hrhs⟩
  | append hform hlhs hrhs => simpa [Setting.parts, hform] using ⟨hlhs, hrhs⟩
  | conditional hform hyes hno => simpa [Setting.parts, hform] using ⟨hyes, hno⟩
  | array hform hpart | group hform hpart | assign hform hpart | element hform hpart =>
    simpa [Setting.parts, hform] using hpart

theorem Finds.nodup {types : List PlainType} (h : Finds s entered r scope n types) :
    types.Nodup := by
  obtain ⟨ts, rfl, -⟩ := h
  exact nodup_eraseDups ts

theorem formTypes_add {lhs rhs : NodeId}
    (hform : s.module.form n = .binary (.arithmetic .add) lhs rhs) :
    formTypes s scope n =
      if (s.module.addedNodes n).any s.module.isStringLiteral then .done [TypeName.stringType]
      else do
        return [if ← anyString s scope n then TypeName.stringType else TypeName.numberType] := by
  rw [formTypes, hform]
  rfl

/-- A sum is found by its whole chain of additions. -/
theorem finds_add {lhs rhs : NodeId}
    (hparts : ∀ p ∈ s.parts scope n, Finds s entered r p.1 p.2 (s.module.plainTypes p.2))
    (howner : s.owner? scope n = none)
    (hform : s.module.form n = .binary (.arithmetic .add) lhs rhs) :
    Finds s entered r scope n [.sum (s.module.plainTypes lhs) (s.module.plainTypes rhs)] := by
  have hnodes : s.parts scope n = (s.module.addedNodes n).map fun v => (scope, v) := by
    rw [Setting.parts, hform]
  have hchain : (∃ v ∈ s.module.addedNodes n, .string ∈ s.module.plainTypes v) ↔
      .string ∈ s.module.plainTypes lhs ∨ .string ∈ s.module.plainTypes rhs := by
    rw [← s.module.string_mem_plainTypes_iff, s.module.mem_plainTypes_add hform]
  by_cases hliteral : (s.module.addedNodes n).any s.module.isStringLiteral = true
  · -- A literal in the chain decides before any operand is asked for.
    obtain ⟨v, hv, hstring⟩ := List.any_eq_true.1 hliteral
    have hmem := hchain.1 ⟨v, hv, s.module.string_mem_of_isStringLiteral hstring⟩
    rw [PlainType.sum, if_pos hmem]
    refine ⟨[.string], rfl, ?_⟩
    rw [answer_node howner, formTypes_add hform, if_pos hliteral]
    rfl
  · have hfinds := finds_anyString hnodes hparts howner
      ((formTypes_add hform).trans (if_neg hliteral))
    rw [PlainType.sum]
    simpa only [hchain] using hfinds

/-- Inference finds the types by recursion on the operands. -/
theorem finds_plainTypes (h : s.module.SymbolFree n) :
    Finds s entered r scope n (s.module.plainTypes n) := by
  induction n using Nat.strongRecOn generalizing scope with
  | ind n ih =>
    have hparts : ∀ p ∈ s.parts scope n, Finds s entered r p.1 p.2 (s.module.plainTypes p.2) :=
      fun p hp => ih p.2 (s.below_of_mem_parts hp).lt (symbolFree_of_mem_parts h p hp)
    have howner : s.owner? scope n = none := owner?_of_symbolFree h
    have hone {v : NodeId} (hnodes : s.parts scope n = [v].map fun v => (scope, v)) :
        ([v].flatMap s.module.plainTypes).eraseDups = s.module.plainTypes v := by
      rw [List.flatMap_singleton]
      exact eraseDups_eq_self (hparts (scope, v) (by simp [hnodes])).nodup
    cases h with
    | fixed hfixed =>
      obtain ⟨howner, -, hnodup, hform⟩ := formTypes_of_fixed scope hfixed
      rw [Script.Module.plainTypes_of_fixed hfixed]
      exact ⟨_, eraseDups_eq_self hnodup, by rw [answer_node howner, hform]; rfl⟩
    | @array _ first _ hform _ =>
      have hnodes : s.parts scope n = [first].map fun v => (scope, v) := by
        simp [Setting.parts, hform]
      have hfinds := finds_map_partTypes hnodes hparts howner (g := .arrayOf) (fun _ => rfl)
        (by rw [formTypes, hform])
      rw [hone hnodes] at hfinds
      have hnodup := (hparts (scope, first) (by simp [hnodes])).nodup
      rw [Script.Module.plainTypes_array hform]
      rwa [eraseDups_eq_self (hnodup.map fun _ _ => PlainType.arrayOf.inj)] at hfinds
    | @group _ inner hform _ =>
      have hnodes : s.parts scope n = [inner].map fun v => (scope, v) := by
        simp [Setting.parts, hform]
      have hfinds := finds_partTypes hnodes hparts howner (by rw [formTypes, hform])
      rwa [hone hnodes, ← Script.Module.plainTypes_group hform] at hfinds
    | add hform _ _ =>
      rw [Script.Module.plainTypes_add hform]
      exact finds_add hparts howner hform
    | @junction _ lhs rhs _ hop hform _ _ =>
      have hnodes : s.parts scope n = [lhs, rhs].map fun v => (scope, v) := by
        rcases hop with rfl | rfl <;> simp [Setting.parts, hform]
      have hfinds := finds_partTypes hnodes hparts howner
        (by rcases hop with rfl | rfl <;> rw [formTypes, hform])
      rw [Script.Module.plainTypes_junction hop hform]
      simpa using hfinds
    | @assign _ lhs rhs hform _ =>
      have hnodes : s.parts scope n = [rhs].map fun v => (scope, v) := by
        simp [Setting.parts, hform]
      have hfinds := finds_partTypes hnodes hparts howner (by rw [formTypes, hform])
      rwa [hone hnodes, ← Script.Module.plainTypes_assign hform] at hfinds
    | @append _ lhs rhs hform _ _ =>
      have hnodes : s.parts scope n = [lhs, rhs].map fun v => (scope, v) := by
        simp [Setting.parts, hform]
      have hfinds := finds_anyString hnodes hparts howner (by rw [formTypes, hform])
      rw [Script.Module.plainTypes_append hform, PlainType.sum]
      simpa using hfinds
    | @conditional _ _ yes no hform _ _ =>
      have hnodes : s.parts scope n = [yes, no].map fun v => (scope, v) := by
        simp [Setting.parts, hform]
      have hfinds := finds_partTypes hnodes hparts howner (by rw [formTypes, hform])
      rw [Script.Module.plainTypes_conditional hform]
      simpa using hfinds
    | @element _ object _ hform _ =>
      have hnodes : s.parts scope n = [object].map fun v => (scope, v) := by
        simp [Setting.parts, hform]
      have hfinds := finds_map_partTypes hnodes hparts howner
        PlainType.elementType?_name (by rw [formTypes, hform])
      rwa [hone hnodes, ← Script.Module.plainTypes_element hform] at hfinds

/-- The types of an expression that depends on no symbol are those by recursion on its operands, in
any scope and registry and with any symbols in progress, and the registry stays as it is. -/
theorem infer_of_symbolFree (s : Setting) {n : NodeId} (h : s.module.SymbolFree n) (scope : ScopeId)
    (r : Registry) :
    infer s n scope r = ((s.module.plainTypes n).map PlainType.name, r) ∧
      ∀ entered, (Query.node n scope).run s (answer s entered) r
        = ((s.module.plainTypes n).map PlainType.name, r) := by
  have hrun (entered : List Symbol) : (Query.node n scope).run s (answer s entered) r
      = ((s.module.plainTypes n).map PlainType.name, r) := by
    obtain ⟨ts, hdups, hanswer⟩ : Finds s entered r scope n (s.module.plainTypes n) :=
      finds_plainTypes h
    show ((TypeList.ofList (answer s entered (.node scope n) r).1).names,
      (answer s entered (.node scope n) r).2) = _
    rw [hanswer, PlainType.names_ofList, hdups]
  exact ⟨hrun [], hrun⟩

/-- The script `[[1, a], b][0][0] + ("x" && (c = 2)) + 3`. -/
def mixed : Setting :=
  let name (start : Nat) (text : String) : Tree := .node ⟨start, start + 1⟩ (.identifier text)
  let number (start : Nat) : Tree :=
    .node ⟨start, start + 1⟩ (.literal (.number 0x4000000000000000))
  let array : Tree :=
    .node ⟨0, 11⟩ (.array [.node ⟨1, 7⟩ (.array [number 2, name 5 "a"]), name 9 "b"])
  let element : Tree :=
    .node ⟨0, 17⟩ (.element (.node ⟨0, 14⟩ (.element array (number 12))) (number 15))
  let assigned : Tree :=
    .node ⟨28, 35⟩ (.group (.node ⟨29, 34⟩ (.assign .plain (name 29 "c") (number 33))))
  let choice : Tree := .node ⟨20, 36⟩ (.group (.node ⟨21, 35⟩ (.binary (.logical .and)
    (.node ⟨21, 24⟩ (.literal (.string "x"))) assigned)))
  let sum : Tree := .node ⟨0, 36⟩ (.binary (.arithmetic .add) element choice)
  let module := Module.ofTree (.node ⟨0, 40⟩ (.program [.node ⟨0, 40⟩ (.statement
    (.node ⟨0, 40⟩ (.binary (.arithmetic .add) sum (number 39))))]))
  { module, scopes := Scopes.ofModule module, index := {}, fileName := "main.js",
    fileStem := "main" }

/-- The string is found behind `&&`, next to a number out of nested arrays. -/
theorem infer_of_symbolFree_mixed :
    mixed.module.SymbolFree 18 ∧
      infer mixed 18 0 [("main$9", ⟨"main$9", ["Object"], []⟩)]
        = (["String"], [("main$9", ⟨"main$9", ["Object"], []⟩)]) := by
  have hnumber : mixed.module.SymbolFree 8 :=
    .element rfl (.element rfl (.array rfl (.array rfl (.fixed rfl))))
  have hchoice : mixed.module.SymbolFree 15 :=
    .group rfl (.junction (.inl rfl) rfl (.fixed rfl) (.group rfl (.assign rfl (.fixed rfl))))
  have hsum : mixed.module.SymbolFree 18 := .add rfl (.add rfl hnumber hchoice) (.fixed rfl)
  refine ⟨hsum, (infer_of_symbolFree mixed hsum 0 _).1.trans ?_⟩
  have htypes : mixed.module.plainTypes 18 = [.string] := by decide +kernel
  rw [htypes]
  rfl

end Inference

end ScriptTypes
