import ScriptTypes.Inference.Call

/-!
# Programs that find types

How the types of a node or of an owner are found is written as a program: a tree of calls and of
questions about members and ancestors, which continues with the answers. The program of a call can
only call what `Setting.callees` lists. To run a program is to say how questions and calls are
answered.
-/

namespace ScriptTypes.Inference

/-- What programs ask about types, generated ones and those of the index. -/
inductive Question where
  /-- The members of a name on a type. -/
  | members (type : TypeName) (member : String)
  /-- Does any of the types have a member of this name? -/
  | shows (types : List TypeName) (member : String)
  /-- The ancestors of a generated type. -/
  | ancestors (type : TypeName)
  deriving DecidableEq, Repr

namespace Question

def Answer : Question → Type
  | members _ _ => List Element
  | shows _ _ => Bool
  | ancestors _ => List TypeName

def answer (index : Index) (r : Registry) : (q : Question) → q.Answer
  | members type member => r.lookup index type member
  | shows types member => r.hasMember index types member
  | ancestors type => r.ancestors type

end Question

inductive Program (s : Setting) (a : Call) (α : Type) where
  | done (x : α)
  | call (b : Call) (h : b ∈ s.callees a) (rest : b.Answer → Program s a α)
  | ask (q : Question) (rest : q.Answer → Program s a α)

namespace Program

variable {s : Setting} {a : Call} {α β : Type}

def bind : Program s a α → (α → Program s a β) → Program s a β
  | done x, f => f x
  | call b h rest, f => call b h fun y => (rest y).bind f
  | ask q rest, f => ask q fun y => (rest y).bind f

instance : Monad (Program s a) where
  pure := done
  bind := bind

def answerOf (b : Call) (h : b ∈ s.callees a) : Program s a b.Answer := call b h done

def answerTo (q : Question) : Program s a q.Answer := ask q done

/-- Results one after the other. -/
def gather : List α → (α → Program s a (List β)) → Program s a (List β)
  | [], _ => return []
  | x :: xs, f => do
    let ys ← f x
    let rest ← gather xs f
    return ys ++ rest

/-- Does a test hold of any item? Items after the first such one are not tested. -/
def anyOf : List α → (α → Program s a Bool) → Program s a Bool
  | [], _ => return false
  | x :: xs, f => do
    if ← f x then return true
    anyOf xs f

/-- Run a program, with questions and calls answered as given. -/
def run {m : Type → Type} [Monad m] (questions : (q : Question) → m q.Answer)
    (calls : (b : Call) → b ∈ s.callees a → m b.Answer) : Program s a α → m α
  | done x => pure x
  | call b h rest => do (rest (← calls b h)).run questions calls
  | ask q rest => do (rest (← questions q)).run questions calls

end Program

end ScriptTypes.Inference
