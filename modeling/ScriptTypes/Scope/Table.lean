import ScriptTypes.Scope.Collection

/-!
# Scopes

The program and every function have a scope: the names declared in it, with all values they get.
Declarations are hoisted, so they are collected first; after that each assignment to a name, or to
a property reached from a name, adds its right side in the nearest scope around it that knows the
name, and in the program's scope if none does.

A scope is known by its position in the table, which lists the program first and then the
functions in the order of the text, so an enclosing scope always stands before the enclosed one.
-/

namespace ScriptTypes

open Script (Module NodeId)

/-- The position of a scope in its table. -/
abbrev ScopeId := Nat

/-- What a script does to its scopes. A scope is named by its function, the program's by `none`. -/
inductive ScopeEvent where
  /-- A function opens a scope inside another one. -/
  | opens (enclosing : Option NodeId) (function : NodeId)
  /-- A name is declared, perhaps with a value. -/
  | declares (scope : Option NodeId) (name : String) (value : Option NodeId)
  /-- A plain assignment, with its two sides. -/
  | assigns (scope : Option NodeId) (target value : NodeId)
  deriving DecidableEq, Repr

namespace Script.Module

/-- The name of an identifier. -/
def identifier? (m : Module) (n : NodeId) : Option String :=
  match m.form n with
  | .identifier name => some name
  | _ => none

/-- The declarations that a function's parameters make in its scope. -/
def parameterEvents (m : Module) (function params : NodeId) : List ScopeEvent :=
  match m.form params with
  | .parameters items => items.filterMap fun p =>
      (m.identifier? p).map fun name => .declares (some function) name (some p)
  | _ => []

/-- What a node itself does in its scope, functions apart. -/
def ownEvents (m : Module) (scope : Option NodeId) (n : NodeId) : List ScopeEvent :=
  match m.form n with
  | .declaration name _ value => [.declares scope name value]
  | .handler param _ => [.declares scope param none]
  | .assign .plain lhs rhs => [.assigns scope lhs rhs]
  | _ => []

/-- All that happens at and below a node, in the order of the text. -/
def scopeEvents (m : Module) (scope : Option NodeId) (n : NodeId) : List ScopeEvent :=
  match _h : m.form n with
  | .function name _ params body =>
    (name.toList.map fun name => ScopeEvent.declares scope name (some n))
      ++ .opens scope n :: m.parameterEvents n params
      ++ scopeEvents m (some n) body
  | f => m.ownEvents scope n ++ f.children.attach.flatMap fun c => scopeEvents m scope c.1
termination_by n
decreasing_by
  · exact m.lt_of_form_eq _h (by simp [Form.children])
  · exact m.lt_of_form_eq _h c.2

/-- The names that lead to the target of an assignment: `a`, `a.b.c` or `(a).b`. Other targets
are not followed. -/
def targetPath? (m : Module) (n : NodeId) : Option (List String) :=
  match _h : m.form n with
  | .identifier name => some [name]
  | .member object property => (targetPath? m object).map (· ++ [property])
  | .group inner => targetPath? m inner
  | _ => none
termination_by n
decreasing_by
  · exact m.lt_of_form_eq _h (by simp [Form.children])
  · exact m.lt_of_form_eq _h (by simp [Form.children])

end Script.Module

structure Scope where
  /-- The function of the scope; the program has none. -/
  function : Option NodeId
  /-- The text of the function's body, or of the program. -/
  range : Span
  /-- The scope itself and those around it, innermost first. -/
  chain : List ScopeId
  symbols : NameMap Collection := []

namespace Scope

/-- The scope right around this one. -/
def parent? (s : Scope) : Option ScopeId := s.chain[1]?

/-- The scope with a name declared in it. -/
def declare (s : Scope) (name : String) : Scope :=
  { s with symbols := NameMap.upsert name (·.getD (.named name)) s.symbols }

/-- The scope with one more value for a name, or for a property reached from it. -/
def add (s : Scope) (name : String) (keys : List String) (value : NodeId) : Scope :=
  { s with symbols :=
      NameMap.upsert name (fun c? => (c?.getD (.named name)).add value keys) s.symbols }

end Scope

structure Scopes where
  table : Array Scope

namespace Scopes

/-- The scope at a position; a position beyond the table has no names. -/
def get (s : Scopes) (id : ScopeId) : Scope :=
  s.table[id]?.getD ⟨none, ⟨0, 0⟩, [id], []⟩

/-- Only scopes of the table have symbols. -/
theorem lt_of_mem_symbols {s : Scopes} {id : ScopeId} {e : String × Collection}
    (h : e ∈ (s.get id).symbols) : id < s.table.size := by
  apply Nat.lt_of_not_le
  intro hle
  simp [get, Array.getElem?_eq_none hle] at h

/-- The scope of the program. -/
def root : ScopeId := 0

def ids (s : Scopes) : List ScopeId := List.range s.table.size

/-- The scope of a function. -/
def ofFunction? (s : Scopes) (function : NodeId) : Option ScopeId :=
  s.table.findIdx? (·.function == some function)

/-- The scope of a function, or of the program. -/
def idOf (s : Scopes) : Option NodeId → ScopeId
  | none => root
  | some f => (s.ofFunction? f).getD root

/-- A scope and those around it, innermost first. -/
def ancestors (s : Scopes) (id : ScopeId) : List ScopeId := (s.get id).chain

/-- The scopes right inside a scope, in the order of the text. -/
def children (s : Scopes) (id : ScopeId) : List ScopeId :=
  s.ids.filter fun c => (s.get c).parent? == some id

def modify (s : Scopes) (id : ScopeId) (f : Scope → Scope) : Scopes := ⟨s.table.modify id f⟩

/-- The nearest declaration of a name, with the scope that holds it. -/
def symbol? (s : Scopes) (id : ScopeId) (name : String) : Option (ScopeId × Collection) :=
  (s.ancestors id).findSome? fun a => (NameMap.get? name (s.get a).symbols).map fun c => (a, c)

def hasSymbol (s : Scopes) (id : ScopeId) (name : String) : Bool := (s.symbol? id name).isSome

/-- The innermost scope whose text covers an offset. The table lists an enclosing scope before
those inside it, so one pass that steps from a scope into a scope right inside it finds it. -/
def atOffset (s : Scopes) (offset : Nat) : ScopeId :=
  s.ids.foldl
    (fun cur id =>
      if (s.get id).parent? = some cur ∧ (s.get id).range.contains offset then id else cur)
    root

/-- The body of a function. -/
def bodyOf (m : Module) (function : NodeId) : NodeId :=
  match m.form function with
  | .function _ _ _ body => body
  | _ => function

/-- The table of a program's scope alone. -/
def ofProgram (m : Module) : Scopes :=
  ⟨#[⟨none, m.range m.root, [root], []⟩]⟩

/-- Collect one event that does not depend on later declarations. -/
def hoist (m : Module) (s : Scopes) : ScopeEvent → Scopes
  | .opens enclosing function =>
    let chain := s.table.size :: s.ancestors (s.idOf enclosing)
    ⟨s.table.push ⟨some function, m.range (bodyOf m function), chain, []⟩⟩
  | .declares scope name none => s.modify (s.idOf scope) (·.declare name)
  | .declares scope name (some value) => s.modify (s.idOf scope) (·.add name [] value)
  | .assigns .. => s

/-- Collect one assignment, once all declarations are known. -/
def assign (m : Module) (s : Scopes) : ScopeEvent → Scopes
  | .assigns scope target value =>
    match m.targetPath? target with
    | some (name :: keys) =>
      let owner := ((s.ancestors (s.idOf scope)).find? fun a =>
        NameMap.contains name (s.get a).symbols).getD root
      s.modify owner (·.add name keys value)
    | _ => s
  | _ => s

/-- The scopes of a module. -/
def ofModule (m : Module) : Scopes :=
  let events := m.scopeEvents none m.root
  events.foldl (assign m) (events.foldl (hoist m) (ofProgram m))

end Scopes

end ScriptTypes
