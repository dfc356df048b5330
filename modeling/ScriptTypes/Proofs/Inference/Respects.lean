import Mathlib
import ScriptTypes.Inference.Context

/-!
# Relations that inference respects

A call is answered by code that knows nothing of how questions and nested calls are answered, in
any monad. A relation between two ways of answering therefore extends from questions and nested
calls to the call itself, if it is kept by sequencing and by the updates of the registry: those of
the generated type of the owner that is called, which a relation may treat in its own way.

Main statement: `Respects.answerCall`.
-/

namespace ScriptTypes.Inference

/-- A relation between computations over two monads. -/
abbrev Related (m m' : Type → Type) :=
  {α : Type} → StateT Registry m α → StateT Registry m' α → Prop

variable {m m' : Type → Type} [Monad m] [Monad m'] {s : Setting}

/-- Sequencing keeps a relation. -/
structure Sequential (R : Related m m') : Prop where
  pure : ∀ {α : Type} (x : α), R (pure x) (pure x)
  bind : ∀ {α β : Type} {f : StateT Registry m α} {f' : StateT Registry m' α}
    {g : α → StateT Registry m β} {g' : α → StateT Registry m' β},
    R f f' → (∀ x, R (g x) (g' x)) → R (f >>= g) (f' >>= g')

/-- So does the work on one generated type. -/
structure Respects (type : TypeName) (R : Related m m') : Prop extends Sequential R where
  get : R get get
  register : ∀ parents, R (modify fun r => r.register type parents)
    (modify fun r => r.register type parents)
  addMember : ∀ member e, R (modify fun r => r.addMember type member e)
    (modify fun r => r.addMember type member e)

/-- Sequencing keeps an invariant of the registry. -/
theorem sequential_of_invariant (I : Registry → Prop) :
    Sequential (fun {α} (f _ : Infer α) => ∀ r, I r → I (f r).2) where
  pure _ _ h := h
  bind hf hg r h := hg _ _ (hf r h)

variable {R : Related m m'}

theorem Program.run_bind {a : Call} {α β : Type} [LawfulMonad m]
    (questions : (q : Question) → m q.Answer) (calls : (b : Call) → b ∈ s.callees a → m b.Answer)
    (p : Program s a α) (f : α → Program s a β) :
    (p >>= f).run questions calls
      = p.run questions calls >>= fun x => (f x).run questions calls := by
  induction p with
  | done x => exact (pure_bind x fun x => (f x).run questions calls).symm
  | call b hb rest ih =>
    show (calls b hb >>= fun y => (rest y >>= f).run questions calls) = _
    simp only [ih, Program.run, bind_assoc]
  | ask q rest ih =>
    show (questions q >>= fun y => (rest y >>= f).run questions calls) = _
    simp only [ih, Program.run, bind_assoc]

section Constant

variable {a : Call} {questions : (q : Question) → Infer q.Answer}
  {calls : (b : Call) → b ∈ s.callees a → Infer b.Answer} {r : Registry}

theorem Program.run_bind_pure {α β : Type} {p : Program s a α} {x : α}
    (h : p.run questions calls r = (x, r)) (f : α → β) :
    (p >>= fun x => pure (f x)).run questions calls r = (f x, r) := by
  rw [Program.run_bind]
  show (f (p.run questions calls r).1, (p.run questions calls r).2) = _
  rw [h]

/-- What is gathered where nothing changes. -/
theorem Program.run_gather {α β : Type} {xs : List α} {f : α → Program s a (List β)}
    {g : α → List β} (h : ∀ x, (f x).run questions calls r = (g x, r)) :
    (Program.gather xs f).run questions calls r = (xs.flatMap g, r) := by
  induction xs with
  | nil => rfl
  | cons x xs ih =>
    rw [Program.gather, Program.run_bind]
    show ((Program.gather xs f >>= fun rest =>
      pure (((f x).run questions calls r).1 ++ rest)).run questions calls)
        ((f x).run questions calls r).2 = _
    rw [h x, Program.run_bind]
    show (_ ++ ((Program.gather xs f).run questions calls r).1,
      ((Program.gather xs f).run questions calls r).2) = _
    rw [ih]
    rfl

/-- What any item satisfies where nothing changes. -/
theorem Program.run_anyOf {α : Type} {xs : List α} {f : α → Program s a Bool} {g : α → Bool}
    (h : ∀ x, (f x).run questions calls r = (g x, r)) :
    (Program.anyOf xs f).run questions calls r = (xs.any g, r) := by
  induction xs with
  | nil => rfl
  | cons x xs ih =>
    rw [Program.anyOf, Program.run_bind]
    show ((if ((f x).run questions calls r).1 = true then pure true
      else Program.anyOf xs f).run questions calls) ((f x).run questions calls r).2 = _
    rw [h x, List.any_cons]
    cases g x with
    | false => exact ih
    | true => rfl

end Constant

section Calls

variable {a : Call} {questions : (q : Question) → StateT Registry m q.Answer}
  {questions' : (q : Question) → StateT Registry m' q.Answer}
  {calls : (b : Call) → b ∈ s.callees a → StateT Registry m b.Answer}
  {calls' : (b : Call) → b ∈ s.callees a → StateT Registry m' b.Answer}

theorem Sequential.run (h : Sequential R) (hq : ∀ q, R (questions q) (questions' q))
    (hc : ∀ b hb, R (calls b hb) (calls' b hb)) {α : Type} (p : Program s a α) :
    R (p.run questions calls) (p.run questions' calls') := by
  induction p with
  | done x => exact h.pure x
  | call b hb rest ih => exact h.bind (hc b hb) ih
  | ask q rest ih => exact h.bind (hq q) ih

end Calls

section Owners

variable {o : Owner} {questions : (q : Question) → StateT Registry m q.Answer}
  {questions' : (q : Question) → StateT Registry m' q.Answer}
  {calls : (b : Call) → b ∈ s.callees (.owner o) → StateT Registry m b.Answer}
  {calls' : (b : Call) → b ∈ s.callees (.owner o) → StateT Registry m' b.Answer}

theorem Sequential.addMembers (h : Sequential R)
    (hadd : ∀ member e, R (modify fun r => r.addMember (o.type s) member e)
      (modify fun r => r.addMember (o.type s) member e))
    (hc : ∀ b hb, R (calls b hb) (calls' b hb)) (properties : List (PropertyName s o)) :
    R (addMembers calls properties) (addMembers calls' properties) := by
  induction properties with
  | nil => exact h.pure ()
  | cons p properties ih =>
    refine h.bind (hc _ p.2) fun e => ?_
    exact h.bind (hadd p.1 e) fun _ => ih

/-- A relation extends from the nested calls of an owner to the generation of its type. -/
def Extends (s : Setting) (o : Owner) (R : Related m m') : Prop :=
  ∀ (calls : (b : Call) → b ∈ s.callees (.owner o) → StateT Registry m b.Answer)
    (calls' : (b : Call) → b ∈ s.callees (.owner o) → StateT Registry m' b.Answer),
    (∀ b hb, R (calls b hb) (calls' b hb)) →
      ∀ e properties, R (generate calls e properties) (generate calls' e properties)

theorem Respects.generate (h : Respects (o.type s) R) : Extends s o R := by
  intro calls calls' hc e properties
  unfold Inference.generate
  split
  · exact h.pure e
  · refine h.bind h.get fun r => ?_
    split
    · refine h.bind (h.register _) fun _ => ?_
      exact h.bind (h.addMembers h.addMember hc properties) fun _ => h.pure _
    · exact h.pure _

theorem Sequential.ownerElement (h : Sequential R)
    (hgenerate : ∀ e properties, R (generate calls e properties) (generate calls' e properties))
    (hq : ∀ q, R (questions q) (questions' q)) (hc : ∀ b hb, R (calls b hb) (calls' b hb)) :
    R (ownerElement questions calls) (ownerElement questions' calls') := by
  refine h.bind (h.run hq hc (element s o)) fun e => ?_
  exact h.bind (h.run hq hc (missing s o e.types)) fun properties => hgenerate e properties

/-- The parents of the type that is generated for an element. -/
def parentsFor (e : Element) : List TypeName :=
  if e.types.isEmpty then [TypeName.objectType] else e.types

variable {e : Element} {properties : List (PropertyName s o)}

variable [LawfulMonad m]

/-- A type that is there already is taken as it is. -/
theorem generate_of_contains (hne : properties ≠ []) {r : Registry}
    (h : Entries.contains (o.type s) r = true) :
    generate calls e properties r = pure ({ e with types := [o.type s] }, r) := by
  simp [generate, List.isEmpty_iff, hne, h, bind, StateT.bind, get, getThe, MonadStateOf.get,
    StateT.get, pure, StateT.pure]

/-- A new type is registered before its members are found. -/
theorem generate_of_not_contains (hne : properties ≠ []) {r : Registry}
    (h : Entries.contains (o.type s) r = false) :
    generate calls e properties r
      = (do
          let (_, r) ← addMembers calls properties (r.register (o.type s) (parentsFor e))
          pure ({ e with types := [o.type s] }, r)) := by
  simp [generate, List.isEmpty_iff, hne, h, parentsFor, bind, StateT.bind, get, getThe,
    MonadStateOf.get, StateT.get, pure, StateT.pure, modify, modifyGet, MonadStateOf.modifyGet,
    StateT.modifyGet]

/-- An owner without properties is what its values say. -/
theorem ownerElement_of_isEmpty (h : (o.collection s).properties = []) :
    ownerElement questions calls = (element s o).run questions calls := by
  have hmissing (types : List TypeName) : missing s o types = .done [] := by
    have hattach : (o.collection s).properties.attach = [] := by simp [h]
    rw [missing, hattach]
    rfl
  simp [ownerElement, hmissing, Program.run, generate]

end Owners

/-- A relation extends from nested calls to a call. -/
theorem Respects.answerCall {a : Call} {questions : (q : Question) → StateT Registry m q.Answer}
    {questions' : (q : Question) → StateT Registry m' q.Answer}
    {calls : (b : Call) → b ∈ s.callees a → StateT Registry m b.Answer}
    {calls' : (b : Call) → b ∈ s.callees a → StateT Registry m' b.Answer}
    (h : ∀ type, Respects type R) (hq : ∀ q, R (questions q) (questions' q))
    (hc : ∀ b hb, R (calls b hb) (calls' b hb)) :
    R (answerCall s questions a calls) (answerCall s questions' a calls') := by
  match a with
  | .node scope n => exact (h "").run hq hc (nodeTypes s scope n)
  | .owner o => exact (h "").ownerElement ((h (o.type s)).generate calls calls' hc) hq hc

end ScriptTypes.Inference
