import ScriptTypes.Inference.Context

/-!
# Reports

Texts that show the symbols of all scopes with their types, and the generated types.
-/

namespace ScriptTypes.Inference

/-- Lines, each with its line end. -/
def unlines (lines : List String) : String := String.join (lines.map (· ++ "\n"))

def indent (depth : Nat) : String := String.join (List.replicate depth "  ")

/-- The depth of a scope: the number of scopes around it. -/
def depth (s : Setting) (id : ScopeId) : Nat := (s.scopes.ancestors id).length - 1

/-- The line of one symbol. -/
def symbolLine (s : Setting) (id : ScopeId) (name : String) : Infer String := do
  let types ← symbolTypes s id name
  return indent (depth s id + 1) ++ name ++ ": " ++ String.intercalate ", " types

/-- The lines that open a scope and list its symbols. -/
def scopeHead (s : Setting) (id : ScopeId) : Infer (List String) := do
  let lines ← (s.scopes.get id).symbols.mapM fun (name, _) => symbolLine s id name
  return (indent (depth s id) ++ "\x7b") :: lines

/-- The lines that close the open scopes down to `depth`, the innermost first. -/
def closing (opened depth : Nat) : List String :=
  ((List.range opened).drop depth).reverse.map fun d => indent d ++ "\x7d"

/-- The scopes of the table as nested blocks. The table lists scopes as they are nested, so each
scope closes those before it that are not around it. `opened` is the number of open blocks. -/
def scopeLines (s : Setting) : (opened : Nat) → List ScopeId → Infer (List String)
  | opened, [] => return closing opened 0
  | opened, id :: ids => do
    let head ← scopeHead s id
    let rest ← scopeLines s (depth s id + 1) ids
    return closing opened (depth s id) ++ head ++ rest

/-- All scopes with their symbols. -/
def scopeReport (s : Setting) : Infer String := do
  return unlines (← scopeLines s 0 s.scopes.ids)

/-- A generated type with its parents and members. -/
def typeLines (t : GeneratedType) : List String :=
  (t.name ++ " extends " ++ String.intercalate ", " t.parents)
    :: t.members.map fun (name, e) =>
      "  " ++ name ++ ": " ++ String.intercalate ", " e.referenceTypes

/-- All generated types by name. -/
def typeReport (r : Registry) : String := unlines (r.sorted.flatMap typeLines)

end ScriptTypes.Inference
