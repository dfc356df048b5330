import ScriptTypes.Inference.Types

/-!
# Asking for types

The queries that inference answers about one script. Each answer is a list of canonical type names;
the registry of generated types is kept from one query to the next.
-/

namespace ScriptTypes.Inference

open Script (NodeId)

inductive Query where
  /-- The types of a node whose names are looked up in a scope. -/
  | node (n : NodeId) (scope : ScopeId)
  /-- The types of the symbol that a name means in a scope, or of the globals of that name. -/
  | symbol (scope : ScopeId) (name : String)
  /-- The types of the innermost node at an offset. A declaration has those of its symbol. -/
  | offset (position : Nat)
  deriving DecidableEq, Repr

/-- What a query is about. -/
inductive Subject where
  /-- A node or a symbol of the script. -/
  | call (a : Call)
  /-- The globals of a name that means no symbol. -/
  | globals (name : String)
  | nothing
  deriving DecidableEq, Repr

section Queries

variable (s : Setting)

def symbolSubject (scope : ScopeId) (name : String) : Subject :=
  match s.symbolNamed? scope name with
  | some key => .call (.owner (.symbol key))
  | none => .globals name

def Query.subject : Query → Subject
  | node n scope => .call (.node scope n)
  | symbol scope name => symbolSubject s scope name
  | offset position =>
    match s.module.nodeAt? position with
    | none => .nothing
    | some n =>
      match s.module.form n with
      | .declaration name _ _ => symbolSubject s (s.scopeOf n) name
      | _ => .call (.node (s.scopeOf n) n)

/-- The types in the answer to a call. -/
def answeredTypes : (a : Call) → a.Answer → List TypeName
  | .node _ _, types => types
  | .owner _, e => Element.referenceTypes e

/-- The answer to a query, with calls answered as given. -/
def Query.run {m : Type → Type} [Monad m] (answers : (a : Call) → StateT Registry m a.Answer)
    (q : Query) : StateT Registry m (List TypeName) :=
  match q.subject s with
  | .call a => do return (TypeList.ofList (answeredTypes a (← answers a))).names
  | .globals name => return (TypeList.ofList ((s.globals name).flatMap Element.referenceTypes)).names
  | .nothing => return []

end Queries

variable (s : Setting)

def Query.answer (q : Query) : Infer (List TypeName) := q.run s (Inference.answer s [])

def infer (n : NodeId) (scope : ScopeId) : Infer (List TypeName) := (Query.node n scope).answer s

def symbolTypes (scope : ScopeId) (name : String) : Infer (List TypeName) :=
  (Query.symbol scope name).answer s

def inferAt (offset : Nat) : Infer (List TypeName) := (Query.offset offset).answer s

/-- The element of the symbol that a name means in a scope. -/
def symbol? (scope : ScopeId) (name : String) : Infer (Option Element) := do
  match s.symbolNamed? scope name with
  | some key => return some (← answer s [] (.owner (.symbol key)))
  | none => return none

end ScriptTypes.Inference
