import ScriptTypes.Proofs.Script.Spans
import ScriptTypes.Scope.Table

/-!
# What scopes record

A scope records under its symbols what the events of a script say: names that the script's nodes
have, and values that stand at certain places. The entries of a map are in the order of their names,
so each name has one entry, and the path of a collection is made of the names that lead to it.
-/

namespace ScriptTypes

open Script (Form IsName Module NodeId)

namespace NameMap

variable {α : Type}

/-- A change keeps the entries in order. -/
theorem pairwise_upsert {name : String} {f : Option α → α} {entries : NameMap α}
    (h : entries.Pairwise fun a b => a.1 < b.1) :
    (upsert name f entries).Pairwise fun a b => a.1 < b.1 := by
  induction entries with
  | nil => exact List.pairwise_singleton _ _
  | cons e rest ih =>
    obtain ⟨n, a⟩ := e
    obtain ⟨hn, hrest⟩ := List.pairwise_cons.1 h
    unfold upsert
    split
    · exact List.pairwise_cons.2 ⟨hn, hrest⟩
    · rename_i hne
      split
      · rename_i hlt
        refine List.pairwise_cons.2 ⟨List.forall_mem_cons.2 ⟨hlt, fun e he => ?_⟩, h⟩
        exact String.lt_trans hlt (hn e he)
      · rename_i hnot
        refine List.pairwise_cons.2 ⟨fun e he => ?_, ih hrest⟩
        rcases mem_upsert he with he | ⟨old, -, rfl⟩
        · exact hn e he
        · rcases lt_trichotomy n name with hlt | heq | hlt
          · exact hlt
          · exact absurd heq hne
          · exact absurd hlt hnot

/-- In an ordered map, an entry is what its name has. -/
theorem get?_of_mem {entries : NameMap α} (h : entries.Pairwise fun a b => a.1 < b.1)
    {e : String × α} (he : e ∈ entries) : get? e.1 entries = some e.2 := by
  induction entries with
  | nil => cases he
  | cons e' rest ih =>
    obtain ⟨n, a⟩ := e'
    obtain ⟨hn, hrest⟩ := List.pairwise_cons.1 h
    rcases List.mem_cons.1 he with rfl | he
    · simp [get?]
    · have hne : n ≠ e.1 := fun heq => String.lt_irrefl n (heq ▸ hn e he)
      rw [get?, if_neg hne]
      exact ih hrest he

end NameMap

/-! ### Collections -/

/-- A collection with a path that was filled with given names and values. -/
inductive Collection.Recorded (Name : String → Prop) (Value : NodeId → Prop) :
    String → Collection → Prop
  | mk {path : String} {values : List NodeId} {properties : List (String × Collection)}
      (value : ∀ v ∈ values, Value v) (sorted : properties.Pairwise fun a b => a.1 < b.1)
      (name : ∀ p ∈ properties, Name p.1)
      (property : ∀ p ∈ properties, Recorded Name Value (propertyPath path p.1) p.2) :
      Recorded Name Value path (.mk path values properties)

namespace Collection

variable {Name : String → Prop} {Value : NodeId → Prop} {path : String} {c : Collection}

theorem recorded_named (path : String) : (named path).Recorded Name Value path :=
  .mk (fun _ h => nomatch h) .nil (fun _ h => nomatch h) fun _ h => nomatch h

namespace Recorded

theorem path_eq (h : c.Recorded Name Value path) : c.path = path := by
  cases h
  rfl

theorem value (h : c.Recorded Name Value path) : ∀ v ∈ c.values, Value v := by
  cases h with
  | mk value _ _ _ => exact value

theorem sorted (h : c.Recorded Name Value path) : c.properties.Pairwise fun a b => a.1 < b.1 := by
  cases h with
  | mk _ sorted _ _ => exact sorted

theorem name (h : c.Recorded Name Value path) : ∀ p ∈ c.properties, Name p.1 := by
  cases h with
  | mk _ _ name _ => exact name

theorem property (h : c.Recorded Name Value path) :
    ∀ p ∈ c.properties, p.2.Recorded Name Value (propertyPath path p.1) := by
  cases h with
  | mk _ _ _ property => exact property

theorem add (h : c.Recorded Name Value path) {keys : List String} (hkeys : ∀ k ∈ keys, Name k)
    {v : NodeId} (hv : Value v) : (c.add v keys).Recorded Name Value path := by
  induction keys generalizing c path with
  | nil =>
    cases h with
    | mk value sorted name property =>
      refine .mk (fun x hx => ?_) sorted name property
      split at hx
      · exact value x hx
      · rcases List.mem_append.1 hx with hx | hx
        · exact value x hx
        · exact List.mem_singleton.1 hx ▸ hv
  | cons key keys ih =>
    obtain ⟨hkey, hkeys⟩ := List.forall_mem_cons.1 hkeys
    cases h with
    | mk value sorted name property =>
      refine .mk value (NameMap.pairwise_upsert sorted) (fun p hp => ?_) fun p hp => ?_
      · rcases NameMap.mem_upsert hp with hp | ⟨old, -, rfl⟩
        · exact name p hp
        · exact hkey
      · rcases NameMap.mem_upsert hp with hp | ⟨old, hold, rfl⟩
        · exact property p hp
        · cases old with
          | none => exact ih (recorded_named _) hkeys
          | some c => exact ih (property _ (hold c rfl)) hkeys

end Recorded

theorem recorded_collect {kvs : List KeyedValue}
    (h : ∀ kv ∈ kvs, (∀ k ∈ kv.keys, Name k) ∧ Value kv.value) :
    (KeyedValue.collect path kvs).Recorded Name Value path := by
  have hfold (kvs : List KeyedValue) (h : ∀ kv ∈ kvs, (∀ k ∈ kv.keys, Name k) ∧ Value kv.value)
      (c : Collection) (hc : c.Recorded Name Value path) :
      (kvs.foldl (fun c kv => c.add kv.value kv.keys) c).Recorded Name Value path := by
    induction kvs generalizing c with
    | nil => exact hc
    | cons kv kvs ih =>
      obtain ⟨⟨hkeys, hv⟩, h⟩ := List.forall_mem_cons.1 h
      exact ih h _ (hc.add hkeys hv)
  exact hfold kvs h _ (recorded_named path)

end Collection

/-! ### Scopes -/

/-- A scope whose symbols hold given names and values. -/
structure Scope.Recorded (Name : String → Prop) (Value : NodeId → Prop) (scope : Scope) : Prop where
  sorted : scope.symbols.Pairwise fun a b => a.1 < b.1
  symbols : ∀ e ∈ scope.symbols, Name e.1 ∧ e.2.Recorded Name Value e.1

namespace Scope.Recorded

variable {Name : String → Prop} {Value : NodeId → Prop} {scope : Scope}

theorem declare (h : scope.Recorded Name Value) {name : String} (hname : Name name) :
    (scope.declare name).Recorded Name Value := by
  refine ⟨NameMap.pairwise_upsert h.sorted, fun e he => ?_⟩
  rcases NameMap.mem_upsert he with he | ⟨old, hold, rfl⟩
  · exact h.symbols e he
  · cases old with
    | none => exact ⟨hname, Collection.recorded_named name⟩
    | some c => exact h.symbols _ (hold c rfl)

theorem add (h : scope.Recorded Name Value) {name : String} (hname : Name name)
    {keys : List String} (hkeys : ∀ k ∈ keys, Name k) {v : NodeId} (hv : Value v) :
    (scope.add name keys v).Recorded Name Value := by
  refine ⟨NameMap.pairwise_upsert h.sorted, fun e he => ?_⟩
  rcases NameMap.mem_upsert he with he | ⟨old, hold, rfl⟩
  · exact h.symbols e he
  · cases old with
    | none => exact ⟨hname, (Collection.recorded_named name).add hkeys hv⟩
    | some c => exact ⟨hname, (h.symbols _ (hold c rfl)).2.add hkeys hv⟩

end Scope.Recorded

/-- What an event brings in are given names and values. -/
def ScopeEvent.Brings (m : Module) (Name : String → Prop) (Value : NodeId → Prop) :
    ScopeEvent → Prop
  | opens _ _ => True
  | declares _ name value => Name name ∧ ∀ v ∈ value, Value v
  | assigns _ target value => (∀ k ∈ (m.targetPath? target).getD [], Name k) ∧ Value value

namespace Scopes

variable {Name : String → Prop} {Value : NodeId → Prop} {s : Scopes} {m : Module}

/-- All scopes of a table hold given names and values. -/
def Recorded (Name : String → Prop) (Value : NodeId → Prop) (s : Scopes) : Prop :=
  ∀ scope ∈ s.table, scope.Recorded Name Value

theorem Recorded.get (h : s.Recorded Name Value) (id : ScopeId) :
    (s.get id).Recorded Name Value := by
  unfold Scopes.get
  cases hget : s.table[id]? with
  | none => exact ⟨.nil, fun _ he => nomatch he⟩
  | some scope => exact h scope (Array.mem_of_getElem? hget)

theorem Recorded.modify (h : s.Recorded Name Value) {id : ScopeId} {f : Scope → Scope}
    (hf : ∀ scope : Scope, scope.Recorded Name Value → (f scope).Recorded Name Value) :
    (s.modify id f).Recorded Name Value := by
  intro scope hscope
  obtain ⟨i, hi, rfl⟩ := Array.mem_iff_getElem.1 hscope
  have hi' : i < s.table.size := by simpa [Scopes.modify] using hi
  have hmem := h _ (Array.getElem_mem hi')
  simp only [Scopes.modify, Array.getElem_modify]
  split
  · exact hf _ hmem
  · exact hmem

theorem Recorded.hoist (h : s.Recorded Name Value) {e : ScopeEvent} (he : e.Brings m Name Value) :
    (hoist m s e).Recorded Name Value := by
  match e with
  | .opens enclosing function =>
    intro scope hscope
    rcases Array.mem_push.1 hscope with hscope | rfl
    · exact h scope hscope
    · exact ⟨.nil, fun _ he => nomatch he⟩
  | .declares scope name none => exact h.modify fun _ hscope => hscope.declare he.1
  | .declares scope name (some value) =>
    exact h.modify fun _ hscope => hscope.add he.1 (List.forall_mem_nil _) (he.2 value rfl)
  | .assigns scope target value => exact h

theorem Recorded.assign (h : s.Recorded Name Value) {e : ScopeEvent} (he : e.Brings m Name Value) :
    (assign m s e).Recorded Name Value := by
  unfold Scopes.assign
  split
  · split
    · rename_i name keys heq
      obtain ⟨hnames, hv⟩ := he
      rw [heq, Option.getD_some, List.forall_mem_cons] at hnames
      exact h.modify fun _ hscope => hscope.add hnames.1 hnames.2 hv
    · exact h
  · exact h

theorem recorded_ofProgram (m : Module) : (ofProgram m).Recorded Name Value := by
  intro scope hscope
  rw [ofProgram, Array.mem_singleton] at hscope
  rw [hscope]
  exact ⟨.nil, fun _ he => nomatch he⟩

theorem Recorded.foldl (h : s.Recorded Name Value) {f : Scopes → ScopeEvent → Scopes}
    (hf : ∀ s : Scopes, s.Recorded Name Value → ∀ e : ScopeEvent, e.Brings m Name Value →
      (f s e).Recorded Name Value) {events : List ScopeEvent}
    (hevents : ∀ e ∈ events, e.Brings m Name Value) : (events.foldl f s).Recorded Name Value := by
  induction events generalizing s with
  | nil => exact h
  | cons e events ih =>
    obtain ⟨he, hevents⟩ := List.forall_mem_cons.1 hevents
    exact ih (hf s h e he) hevents

theorem Recorded.foldl_hoist (h : s.Recorded Name Value) {events : List ScopeEvent}
    (hevents : ∀ e ∈ events, e.Brings m Name Value) :
    (events.foldl (Scopes.hoist m) s).Recorded Name Value :=
  h.foldl (fun _ hs _ he => hs.hoist he) hevents

/-- The scopes of a module hold what its events bring in. -/
theorem recorded_ofModule (h : ∀ e ∈ m.scopeEvents none m.root, e.Brings m Name Value) :
    (ofModule m).Recorded Name Value :=
  ((recorded_ofProgram m).foldl_hoist h).foldl (fun _ hs _ he => hs.assign he) h

end Scopes

end ScriptTypes
