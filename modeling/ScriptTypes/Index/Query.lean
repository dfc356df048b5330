import ScriptTypes.Index.Ancestry
import ScriptTypes.Index.Glob

/-!
# Looking up words

The words of an index are looked up by category: exactly, by their beginning, or by a glob pattern.
-/

namespace ScriptTypes.Index

inductive Category where
  | type
  | global
  | module
  deriving DecidableEq, Repr

inductive MatchMode where
  | exact
  | beginning
  | glob
  deriving DecidableEq, Repr

/-- A word with the documents that belong to it. -/
structure Hit where
  word : String
  documents : List String
  deriving DecidableEq, Repr

/-- The words of a category with their documents, in the order of their arrival. -/
def words (index : Index) : Category → List Hit
  | .type => index.types.map fun (name, r) => ⟨name, r.documents⟩
  | .global => index.globals.map fun (name, es) => ⟨name, es.flatMap Element.documents⟩
  | .module => index.modules.map fun (word, ds) => ⟨word, ds⟩

/-- The test for words that a pattern means; an invalid pattern means none. -/
def wordTest? (pattern : String) : MatchMode → Option (String → Bool)
  | .exact => some (· == pattern)
  | .beginning => some fun word => pattern.toList.isPrefixOf word.toList
  | .glob => (Glob.ofString? pattern).map Glob.isMatch

/-- The words of the given categories, one category after the other, that a pattern means. -/
def query (index : Index) (categories : List Category) (pattern : String) (mode : MatchMode) :
    List Hit :=
  match wordTest? pattern mode with
  | none => []
  | some test => categories.flatMap fun c => (index.words c).filter fun h => test h.word

end ScriptTypes.Index
