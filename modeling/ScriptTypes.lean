import ScriptTypes.Files.Tree
import ScriptTypes.Index.Query
import ScriptTypes.Proofs.Index.Merged
import ScriptTypes.Main
import ScriptTypes.Proofs.Grammar.Yields
import ScriptTypes.Proofs.Grammar.Matches
import ScriptTypes.Proofs.Script.Formed
import ScriptTypes.Proofs.Script.Lays
import ScriptTypes.Proofs.Script.Parsed
import ScriptTypes.Proofs.Script.Numbered
import ScriptTypes.Proofs.Script.Lowered
import ScriptTypes.Proofs.Script.Opening
import ScriptTypes.Proofs.Script.Printed
import ScriptTypes.Proofs.Script.Operands
import ScriptTypes.Proofs.Script.Atoms
import ScriptTypes.Proofs.Script.Recovered
import ScriptTypes.Proofs.Script.Spans
import ScriptTypes.Proofs.Scope.Recorded
import ScriptTypes.Proofs.Scope.Events
import ScriptTypes.Proofs.Scope.Opened
import ScriptTypes.Proofs.Script.Innermost
import ScriptTypes.Proofs.Script.Around
import ScriptTypes.Proofs.Scope.Grounded
import ScriptTypes.Proofs.Scope.Nested
import ScriptTypes.Proofs.Scope.Located
import ScriptTypes.Proofs.Scope.Posted
import ScriptTypes.Proofs.Scope.Collected
import ScriptTypes.Proofs.TypeName.Cutting
import ScriptTypes.Proofs.TypeName.Shape
import ScriptTypes.Proofs.TypeName.Canonical
import ScriptTypes.Proofs.TypeName.Settled
import ScriptTypes.Proofs.TypeName.Encoding
import ScriptTypes.Proofs.TypeName.Words
import ScriptTypes.Inference.Call
import ScriptTypes.Inference.Descent
import ScriptTypes.Proofs.Inference.Lookup
import ScriptTypes.Proofs.Inference.Respects
import ScriptTypes.Proofs.Inference.Nesting
import ScriptTypes.Proofs.Inference.Included
import ScriptTypes.Proofs.Inference.Reach
import ScriptTypes.Proofs.Inference.Careful
import ScriptTypes.Proofs.Inference.Steady
import ScriptTypes.Proofs.Inference.Faithful
import ScriptTypes.Proofs.Inference.Lockstep
import ScriptTypes.Proofs.Inference.Growth
import ScriptTypes.Proofs.Inference.History
import ScriptTypes.Proofs.Inference.Journal
import ScriptTypes.Proofs.Inference.Shown
import ScriptTypes.Proofs.Inference.Vocabulary
import ScriptTypes.Proofs.Inference.Apart
import ScriptTypes.Proofs.Inference.Owners
import ScriptTypes.Proofs.Inference.Identity
import ScriptTypes.Proofs.Inference.Repeats
import ScriptTypes.Proofs.Inference.Leads
import ScriptTypes.Proofs.Inference.Complete
import ScriptTypes.Proofs.Inference.Namesakes
import ScriptTypes.Proofs.Inference.SymbolFree
import ScriptTypes.Proofs.Grammar.Pieces
import ScriptTypes.Proofs.Script.Spelled
import ScriptTypes.Proofs.Script.Scanned
import ScriptTypes.Proofs.Path.Search
import ScriptTypes.Proofs.Index.Modules
import ScriptTypes.Proofs.Script.Precedence
import ScriptTypes.Proofs.Inference.Declared
import ScriptTypes.Proofs.Index.Ancestors
import ScriptTypes.Proofs.Doc.Segments
import ScriptTypes.Proofs.TypeName.Braced
import ScriptTypes.Proofs.Doc.Written
import ScriptTypes.Proofs.Script.Handed
import ScriptTypes.Proofs.Script.Attached
import ScriptTypes.Proofs.Scope.Literals
import ScriptTypes.Proofs.Script.Quoted
import ScriptTypes.Proofs.TypeName.Calls
import ScriptTypes.Proofs.TypeName.Slots
import ScriptTypes.Proofs.Inference.Parameters
import ScriptTypes.Proofs.Inference.Ascents
import ScriptTypes.Proofs.Grammar.Limits
import ScriptTypes.Proofs.Script.Depth
import ScriptTypes.Proofs.Grammar.Traces
import ScriptTypes.Proofs.Grammar.Pairs
import ScriptTypes.Proofs.Script.Lowering
import ScriptTypes.Proofs.Script.Visits
import ScriptTypes.Proofs.Script.Parts
import ScriptTypes.Proofs.Script.Parts.Expressions
import ScriptTypes.Proofs.Script.Parts.Statements
import ScriptTypes.Proofs.Script.Claimed
import ScriptTypes.Proofs.Script.Drafts
