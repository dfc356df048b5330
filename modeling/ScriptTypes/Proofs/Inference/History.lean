import ScriptTypes.Proofs.Inference.Growth
import ScriptTypes.Proofs.Inference.Lockstep

/-!
# Queries after other queries

One registry serves all queries about a script. A query whose call is steady has the same answer
after any queries as it has at first. For queries in general, histories with at most one query for
each owner decide this.

Where two symbols have properties that refer to each other, it fails: the property of the symbol
that is inferred first is found while that symbol is unknown to the other one, and what was found
then is kept.
-/

namespace ScriptTypes.Inference

open Script (Form Module Tree)

/-- The registry after some queries. -/
def after (s : Setting) (history : List Query) : Registry :=
  history.foldl (fun r q => (q.answer s r).2) []

variable {s : Setting}

theorem after_concat (history : List Query) (q : Query) :
    after s (history ++ [q]) = (q.answer s (after s history)).2 := by
  simp [after]

/-! ### The call that a query makes -/

/-- The call of a query is in the module, and no symbol is being inferred around it. -/
theorem Query.inModule_of_subject {q : Query} {a : Call} (h : q.subject s = .call a) :
    s.InModule a ∧ Call.around a = [] := by
  have hsymbol {scope : ScopeId} {name : String} (h : symbolSubject s scope name = .call a) :
      s.InModule a ∧ Call.around a = [] := by
    unfold symbolSubject at h
    split at h
    · rename_i key hkey
      cases h
      exact ⟨s.inModule_symbol (s.mem_symbols_of_symbolNamed? hkey), rfl⟩
    · cases h
  match q with
  | .node n scope =>
    cases h
    exact ⟨trivial, rfl⟩
  | .symbol scope name => exact hsymbol h
  | .offset position =>
    simp only [Query.subject] at h
    split at h
    · cases h
    · split at h
      · exact hsymbol h
      · cases h
        exact ⟨trivial, rfl⟩

/-- What a query does to the registry, its call does. -/
theorem Query.answer_snd (q : Query) (r : Registry) :
    (q.answer s r).2 = r ∨
      ∃ a, q.subject s = .call a ∧ (q.answer s r).2 = (Inference.answer s [] a r).2 := by
  unfold Query.answer Query.run
  cases q.subject s with
  | call a => exact .inr ⟨a, rfl, rfl⟩
  | globals name => exact .inl rfl
  | nothing => exact .inl rfl

/-- What the calls of a module keep, any queries keep. -/
theorem after_of_invariant {I : Registry → Prop} (hnil : I [])
    (hanswer : ∀ a, s.InModule a → Call.around a = [] → ∀ r, I r → I (answer s [] a r).2)
    (history : List Query) : I (after s history) := by
  induction history using List.reverseRecOn with
  | nil => exact hnil
  | append_singleton history q ih =>
    rw [after_concat]
    rcases q.answer_snd (s := s) (after s history) with hsame | ⟨a, ha, hnext⟩
    · rwa [hsame]
    · rw [hnext]
      obtain ⟨hmodule, haround⟩ := Query.inModule_of_subject ha
      exact hanswer a hmodule haround _ ih

/-- The answer to a query is made from the answer to its call. -/
theorem Query.answer_fst {q : Query} {r r' : Registry}
    (h : ∀ a, q.subject s = .call a →
      (Inference.answer s [] a r).1 = (Inference.answer s [] a r').1) :
    (q.answer s r).1 = (q.answer s r').1 := by
  unfold Query.answer Query.run
  cases hq : q.subject s with
  | call a =>
    show (TypeList.ofList (answeredTypes a (Inference.answer s [] a r).1)).names = _
    rw [h a hq]
    rfl
  | globals name => rfl
  | nothing => rfl

/-! ### Steady queries -/

/-- Queries keep a registry faithful. -/
theorem faithful_after {start : Call} (hsteady : Steady s start) (history : List Query) :
    Faithful s start [] (after s history) := by
  refine after_of_invariant (.nil s start []) (fun a hmodule haround => ?_) history
  exact keepsFaithful_answer hsteady [] a (.base hmodule haround)

/-- In a faithful registry a steady call has the answer that it has in an empty one. -/
theorem answer_eq_of_faithful {a : Call} (hsteady : Steady s a) (hmodule : s.InModule a)
    (haround : Call.around a = []) {r : Registry} (h : Faithful s a [] r) :
    (answer s [] a r).1 = (answer s [] a []).1 := by
  have hstack : Stack s a [] [] a := .base hmodule haround
  obtain ⟨hsettles, hfollows⟩ := settles_and_follows hsteady [] a .refl
  obtain ⟨depth, hsome⟩ := hsteady.ready a (.inl rfl)
  obtain ⟨⟨x, next⟩, hrun⟩ := Option.isSome_iff_exists.1 hsome
  rw [haround] at hrun
  by_cases hgenerates : Call.generates s a = true
  · match a with
    | .owner o =>
      cases ha : enter [] (.owner o) with
      | none => rw [answer_of_enter_eq_none ha]; rfl
      | some entered' =>
        have hanswer := hsettles o rfl hgenerates entered' ha [] r hstack h
        have hfirst := hsettles o rfl hgenerates entered' ha [] [] hstack (.nil s _ [])
        exact hanswer.element.trans hfirst.element.symm
  · have hlockstep := hfollows (Bool.eq_false_iff.2 hgenerates) depth [] [] [] r (by simp) hstack
      hstack
    have hbegin : Lockstep s a [] [] [] r r [] :=
      ⟨h, .nil s a [], .nil r, .refl r, fun t ht => .inl ht, by simp⟩
    rw [refines_carefully depth [] a [] _ hrun]
    exact (hlockstep r [] x next hbegin hrun).1

/-! ### Short histories -/

theorem Query.grows (q : Query) : Grows s (q.answer s) := by
  intro r
  rcases q.answer_snd (s := s) r with hsame | ⟨a, ha, hnext⟩
  · exact .inl hsame
  · rw [hnext]
    exact grows_answer [] a (Query.inModule_of_subject ha).1 r

/-- Queries that register no type can be left out of a history. -/
theorem exists_short_history (s : Setting) (history : List Query) :
    ∃ short : List Query, short.Sublist history ∧ after s short = after s history ∧
      short.length ≤ (registered s (after s history)).card := by
  induction history using List.reverseRecOn with
  | nil => exact ⟨[], .slnil, rfl, Nat.zero_le _⟩
  | append_singleton history q ih =>
    obtain ⟨short, hsub, hafter, hlength⟩ := ih
    rcases q.grows (after s history) with hsame | hlt
    · refine ⟨short, hsub.trans (List.sublist_append_left _ _), ?_, ?_⟩
      · rw [after_concat, hsame, hafter]
      · rwa [after_concat, hsame]
    · refine ⟨short ++ [q], hsub.append_right [q], ?_, ?_⟩
      · rw [after_concat, after_concat, hafter]
      · rw [after_concat, List.length_append, List.length_singleton]
        exact Nat.succ_le_of_lt (hlength.trans_lt (Finset.card_lt_card hlt))

/-! ### Evaluation -/

theorem Query.refines (q : Query) (depth : Nat) :
    Refines (q.run s (within s depth [])) (q.answer s) := by
  unfold Query.answer Query.run
  cases q.subject s with
  | call a =>
    refine (respects_refines "").bind (refines_within depth [] a) fun x => ?_
    exact (respects_refines "").pure _
  | globals name => exact (respects_refines "").pure _
  | nothing => exact (respects_refines "").pure []

/-- The registry after some queries, unless calls are nested more than `depth` deep. -/
def afterWithin (s : Setting) (depth : Nat) (history : List Query) : Option Registry :=
  history.foldlM (fun r q => (q.run s (within s depth []) r).map Prod.snd) []

theorem after_eq_of_afterWithin {depth : Nat} {history : List Query} {r : Registry}
    (h : afterWithin s depth history = some r) : after s history = r := by
  induction history using List.reverseRecOn generalizing r with
  | nil => exact Option.some.inj h
  | append_singleton history q ih =>
    rw [afterWithin, List.foldlM_append] at h
    obtain ⟨r', hr', h⟩ := Option.bind_eq_some_iff.1 h
    obtain ⟨x, hx, rfl⟩ : ∃ x, q.run s (within s depth []) r' = some x ∧ x.2 = r := by
      simpa using h
    rw [after_concat, ih hr', q.refines depth r' x hx]

/-- What is answered within a limit is the answer. -/
theorem answer_eq_of_within {q : Query} {history : List Query} {types : List TypeName}
    (depth : Nat) (h : ((afterWithin s depth history).bind
      (q.run s (within s depth []))).map Prod.fst = some types) :
    (q.answer s (after s history)).1 = types := by
  obtain ⟨x, hx, rfl⟩ := Option.map_eq_some_iff.1 h
  obtain ⟨r, hr, hx⟩ := Option.bind_eq_some_iff.1 hx
  rw [after_eq_of_afterWithin hr, q.refines depth r x hx]

/-! ### Queries and their histories -/

/-- A query has the same answer after any other queries if its call is steady. In any case this can
only fail after a history with at most one query for each owner. -/
theorem answer_after_history (s : Setting) (q : Query) :
    ((∀ a, q.subject s = .call a → Steady s a) →
      ∀ history, (q.answer s (after s history)).1 = (q.answer s []).1) ∧
    ((∀ history, (q.answer s (after s history)).1 = (q.answer s []).1) ↔
      ∀ history, history.length ≤ s.owners.length →
        (q.answer s (after s history)).1 = (q.answer s []).1) := by
  refine ⟨fun hsteady history => Query.answer_fst fun a ha => ?_, fun h history _ => h history,
    fun h history => ?_⟩
  · obtain ⟨hmodule, haround⟩ := Query.inModule_of_subject ha
    exact answer_eq_of_faithful (hsteady a ha) hmodule haround (faithful_after (hsteady a ha) history)
  · obtain ⟨short, -, hafter, hlength⟩ := exists_short_history s history
    rw [← hafter]
    exact h short (hlength.trans (card_registered_le s _))

/-! ### Symbols that refer to each other -/

namespace Entwined

/-- `a.x` -/
def reading (start : Nat) (object : String) (property : String) : Tree :=
  .node ⟨start, start + 3⟩ (.member (.node ⟨start, start + 1⟩ (.identifier object)) property)

/-- `a.x = b;` -/
def assigning (start : Nat) (object : String) (property : String) (value : Form Tree) : Tree :=
  .node ⟨start, start + 8⟩ (.statement (.node ⟨start, start + 7⟩ (.assign .plain
    (reading start object property) (.node ⟨start + 6, start + 7⟩ value))))

/-- `var a = {};` -/
def declaring (start : Nat) (name : String) : Tree :=
  .node ⟨start, start + 10⟩ (.var [.node ⟨start + 4, start + 10⟩
    (.declaration name none (some (.node ⟨start + 8, start + 10⟩ (.object []))))])

/-- A script that begins with `var a = {}; a.x = b; var b = {}; b.y = a;`. -/
def setting (stop : Nat) (rest : List Tree) : Setting :=
  let entwined := [declaring 0 "a", assigning 12 "a" "x" (.identifier "b"), declaring 21 "b",
    assigning 33 "b" "y" (.identifier "a")]
  let module := Module.ofTree (.node ⟨0, stop⟩ (.program (entwined ++ rest)))
  { module, scopes := Scopes.ofModule module, index := {}, fileName := "main.js", fileStem := "main" }

/-- The script goes on with `a.x;`. -/
def shared : Setting := setting 46 [.node ⟨42, 46⟩ (.statement (reading 42 "a" "x"))]

/-- The script goes on with `var d = {}; d.h = 2; var c = {}; c.g = d; c.f = c; c.g.h;`. -/
def apart : Setting :=
  setting 99 [declaring 42 "d", assigning 54 "d" "h" (.literal (.number 0x4000000000000000)),
    declaring 63 "c", assigning 75 "c" "g" (.identifier "d"), assigning 84 "c" "f" (.identifier "c"),
    .node ⟨93, 99⟩ (.statement (.node ⟨93, 98⟩ (.member (reading 93 "c" "g") "h")))]

end Entwined

open Entwined

/-- The types of `c.g.h`, beside symbols that refer to each other. -/
theorem answer_after_history_apart :
    Steady apart (.node 0 39) ∧
    ((Query.offset 97).answer apart (after apart [.symbol 0 "b", .symbol 0 "c", .offset 16])).1
      = ["Number"] := by
  have hsteady : Steady apart (.node 0 39) := steady_of_isSteady (n := 20) (by decide +kernel)
  have hsubject : (Query.offset 97).subject apart = .call (.node 0 39) := by decide +kernel
  have hfirst : ((Query.offset 97).answer apart (after apart [])).1 = ["Number"] :=
    answer_eq_of_within 20 (by decide +kernel)
  refine ⟨hsteady, ((answer_after_history apart (.offset 97)).1 ?_ _).trans hfirst⟩
  intro a ha
  cases hsubject.symm.trans ha
  exact hsteady

/-- The types of `a.x` are lost once `b` has been asked for: `a` is then inferred from inside `b`,
where `b` has no types. -/
theorem answer_changes_after_history :
    ((Query.offset 44).answer shared []).1 = ["main$0.b"] ∧
    ((Query.offset 44).answer shared (after shared [.symbol 0 "b"])).1 = [] := by
  have hfirst : ((Query.offset 44).answer shared (after shared [])).1 = ["main$0.b"] :=
    answer_eq_of_within 20 (by decide +kernel)
  exact ⟨hfirst, answer_eq_of_within 20 (by decide +kernel)⟩

end ScriptTypes.Inference
