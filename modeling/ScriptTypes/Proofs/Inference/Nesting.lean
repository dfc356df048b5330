import ScriptTypes.Proofs.Inference.Lookup
import ScriptTypes.Proofs.Inference.Within

/-!
# How calls are nested

A frame is a call together with the symbols that are being inferred when it is made. Nested calls
make a chain of frames, each of which is made by the one before it. Along a chain every symbol is
entered at most once, and between two symbols the chain descends: the nodes on it are each below
the one before, and the owners are properties of one another or literals at these nodes.

Main statement: `nested_calls_descend_and_return`.
-/

namespace ScriptTypes.Inference

open Script (NodeId)

structure Frame where
  /-- The symbols that are being inferred. -/
  entered : List Symbol
  call : Call

/-- The frames of the calls that a frame makes. A program can make no other calls. -/
structure Nested (s : Setting) (f g : Frame) : Prop where
  entered : enter f.entered f.call = some g.entered
  callee : g.call ∈ s.callees f.call

namespace Frame

def symbol? (f : Frame) : Option Symbol :=
  match f.call with
  | .owner (.symbol key) => some key
  | _ => none

/-- The symbol that a frame enters; one that is being inferred already is not entered. -/
def enters (f : Frame) : Option Symbol := f.symbol?.filter (· ∉ f.entered)

def node? (f : Frame) : Option NodeId :=
  match f.call with
  | .node _ n => some n
  | _ => none

end Frame

variable {s : Setting}

/-- No chain of nested calls goes on forever. -/
theorem wellFounded_nested (s : Setting) : WellFounded (flip (Nested s)) := by
  have hlex : WellFounded (Prod.Lex (· < ·) Lower : Nat × Nat × Nat × Nat → _ → Prop) :=
    WellFoundedRelation.wf
  refine Subrelation.wf ?_ (InvImage.wf (fun f : Frame => (free s f.entered, descent s f.call)) hlex)
  intro g f h
  exact descends h.entered h.callee

/-! ### Symbols are entered once -/

theorem Nested.entered_eq {f g : Frame} (h : Nested s f g) :
    g.entered = f.enters.toList ++ f.entered := by
  obtain ⟨entered, a⟩ := f
  have henter := h.entered
  match a with
  | .node _ _ | .owner (.literal _) | .owner (.property _ _) =>
    simpa [enter, Frame.enters, Frame.symbol?] using henter.symm
  | .owner (.symbol key) =>
    obtain ⟨hkey, heq⟩ : key ∉ entered ∧ key :: entered = g.entered := by simpa [enter] using henter
    simp [Frame.enters, Frame.symbol?, Option.filter, hkey, ← heq]

/-- What a frame has entered stays entered in the frames nested in it. -/
def Keeps (f g : Frame) : Prop := f.enters.toList ++ f.entered ⊆ g.entered

instance : Trans Keeps Keeps Keeps where
  trans hfg hgh :=
    List.Subset.trans hfg (List.Subset.trans (List.subset_append_right _ _) hgh)

/-- Along a chain of nested calls every symbol is entered at most once. -/
theorem nodup_enters {chain : List Frame} (h : chain.IsChain (Nested s)) :
    (chain.filterMap Frame.enters).Nodup := by
  have hkeeps : chain.IsChain Keeps :=
    h.imp fun f g hfg => by rw [Keeps, hfg.entered_eq]; exact List.Subset.refl _
  refine (List.isChain_iff_pairwise.1 hkeeps).filterMap _ ?_
  intro f g hfg key hkey key' hkey' heq
  have hmem : key ∈ g.entered := hfg (List.mem_append_left _ (Option.mem_toList.2 hkey))
  have hfresh : key' ∉ g.entered := by simpa using (Option.mem_filter_iff.1 hkey').2
  exact hfresh (heq ▸ hmem)

/-! ### Calls descend between symbols -/

/-- One step down: to a part of a node or to the literal there, to a value of an owner, or to a
property in its collection. -/
inductive Descends (s : Setting) : Call → Call → Prop
  | part {scope scope' : ScopeId} {n v : NodeId} (h : s.module.Below v n) :
      Descends s (.node scope n) (.node scope' v)
  | literal {scope : ScopeId} {n : NodeId} : Descends s (.node scope n) (.owner (.literal n))
  | value {o : Owner} {scope : ScopeId} {v : NodeId} (h : v ∈ o.values s) :
      Descends s (.owner o) (.node scope v)
  | property {o : Owner} {name : String}
      (h : (name, (Owner.property o name).collection s) ∈ (o.collection s).properties) :
      Descends s (.owner o) (.owner (.property o name))

/-- A nested call is of a symbol, or it descends. -/
theorem symbol_or_descends {f g : Frame} (h : Nested s f g) :
    (∃ key, g.symbol? = some key) ∨ Descends s f.call g.call := by
  obtain ⟨entered, a⟩ := f
  obtain ⟨entered', b⟩ := g
  have hb : b ∈ s.callees a := h.callee
  match a with
  | .node scope n =>
    rcases List.mem_append.1 hb with hb | hb
    · obtain ⟨p, hp, rfl⟩ := List.mem_map.1 hb
      exact .inr (.part (s.below_of_mem_parts hp))
    · obtain ⟨o, ho, rfl⟩ := List.mem_map.1 hb
      rcases s.owner?_cases (Option.mem_toList.1 ho) with ⟨-, -, -, rfl⟩ | ⟨key, -, rfl⟩
      · exact .inr .literal
      · exact .inl ⟨key, rfl⟩
  | .owner o =>
    rcases List.mem_append.1 hb with hb | hb
    · obtain ⟨v, hv, rfl⟩ := List.mem_map.1 hb
      exact .inr (.value (List.mem_filter.1 hv).1)
    · obtain ⟨p, hp, rfl⟩ := List.mem_map.1 hb
      exact .inr (.property (mem_properties hp))

/-- The node of a call: that of the literal for a literal and its properties. -/
def place? : Call → Option NodeId
  | .node _ n => some n
  | .owner o => literal? o
where
  literal? : Owner → Option NodeId
    | .literal n => some n
    | .symbol _ => none
    | .property o _ => literal? o

/-- All values of a property of a literal are below the literal. -/
theorem below_of_mem_property {m v : NodeId} {o : Owner} {name : String}
    (ho : place? (.owner o) = some m) (hv : v ∈ ((Owner.property o name).collection s).all) :
    s.module.Below v m := by
  induction o generalizing name with
  | symbol key => cases ho
  | literal n =>
    cases ho
    rw [Owner.collection] at hv
    cases hget : NameMap.get? name ((Owner.literal m).collection s).properties with
    | none => simp [hget] at hv
    | some c =>
      rw [hget, Option.getD_some] at hv
      exact s.module.below_of_mem_literalCollection (NameMap.mem_of_get?_eq_some hget) hv
  | property o name' ih =>
    rw [Owner.collection] at hv
    cases hget : NameMap.get? name ((Owner.property o name').collection s).properties with
    | none => simp [hget] at hv
    | some c =>
      rw [hget, Option.getD_some] at hv
      exact ih ho (Collection.mem_all.2 (.inr ⟨_, NameMap.mem_of_get?_eq_some hget, hv⟩))

/-- Is a call at a node or below it? -/
def Inside (s : Setting) (n : NodeId) (a : Call) : Prop :=
  ∃ v, place? a = some v ∧ (v = n ∨ s.module.Below v n)

/-- Calls that descend from inside a node stay inside it, and the nodes that they reach are below
it. -/
theorem Descends.inside {n : NodeId} {a b : Call} (h : Descends s a b) (ha : Inside s n a) :
    Inside s n b ∧ ∀ scope v, b = .node scope v → s.module.Below v n := by
  obtain ⟨u, hu, hn⟩ := ha
  have below_n {v : NodeId} (hv : s.module.Below v u) : s.module.Below v n :=
    hn.elim (fun heq => heq ▸ hv) hv.trans
  cases h with
  | part hv =>
    cases hu
    refine ⟨⟨_, rfl, .inr (below_n hv)⟩, ?_⟩
    rintro scope v ⟨⟩
    exact below_n hv
  | literal => exact ⟨⟨u, hu, hn⟩, by simp⟩
  | @value o scope v hv =>
    have hbelow : s.module.Below v u := by
      match o with
      | .literal _ => cases hv
      | .symbol _ => cases hu
      | .property o name =>
        have ho : place? (.owner o) = some u := hu
        exact below_of_mem_property ho (Collection.mem_all.2 (.inl hv))
    refine ⟨⟨v, rfl, .inr (below_n hbelow)⟩, ?_⟩
    rintro scope v ⟨⟩
    exact below_n hbelow
  | property => exact ⟨⟨u, hu, hn⟩, by simp⟩

/-- What follows a call inside a node on a chain without symbols is inside the node. -/
theorem inside_of_isChain {n : NodeId} {f : Frame} {rest : List Frame}
    (h : (f :: rest).IsChain (Nested s)) (hsymbol : ∀ g ∈ rest, g.symbol? = none)
    (hf : Inside s n f.call) :
    ∀ g ∈ rest, ∀ scope v, g.call = .node scope v → s.module.Below v n := by
  induction rest generalizing f with
  | nil => simp
  | cons g rest ih =>
    obtain ⟨hfg, hrest⟩ := List.isChain_cons_cons.1 h
    obtain ⟨hg, hsymbol⟩ := List.forall_mem_cons.1 hsymbol
    have hdown : Descends s f.call g.call :=
      (symbol_or_descends hfg).resolve_left fun ⟨key, hkey⟩ => by simp [hg] at hkey
    obtain ⟨hinside, hbelow⟩ := hdown.inside hf
    exact List.forall_mem_cons.2 ⟨hbelow, ih hrest hsymbol hinside⟩

/-- Where a chain calls no symbol after its first frame, every node on it is below those before. -/
theorem nodes_descend {chain : List Frame} (h : chain.IsChain (Nested s))
    (hsymbol : ∀ f ∈ chain.tail, f.symbol? = none) :
    (chain.filterMap Frame.node?).Pairwise fun n v => s.module.Below v n := by
  induction chain with
  | nil => exact .nil
  | cons f rest ih =>
    have hrest := ih h.tail fun g hg => hsymbol g (List.mem_of_mem_tail hg)
    obtain ⟨entered, a⟩ := f
    match a with
    | .owner o => exact hrest
    | .node scope n =>
      refine .cons ?_ hrest
      intro v hv
      obtain ⟨⟨entered', b⟩, hg, hgv⟩ := List.mem_filterMap.1 hv
      match b with
      | .node scope' w =>
        cases hgv
        exact inside_of_isChain h hsymbol ⟨n, rfl, .inl rfl⟩ _ hg scope' v rfl

/-! ### Queries return -/

theorem exists_matches_query (s : Setting) (q : Query) :
    ∃ limit, ∀ depth, limit ≤ depth → Matches (q.run s (within s depth [])) (q.answer s) := by
  unfold Query.answer Query.run
  cases q.subject s with
  | call a =>
    obtain ⟨limit, h⟩ := exists_matches_within s [] a
    refine ⟨limit, fun depth hdepth => ?_⟩
    exact (respects_matches "").bind (h depth hdepth) fun x => (respects_matches "").pure _
  | globals name => exact ⟨0, fun depth _ => (respects_matches "").pure _⟩
  | nothing => exact ⟨0, fun depth _ => (respects_matches "").pure []⟩

/-- Inference always returns. Chains of nested calls enter every symbol at most once, and between
symbols they descend, through property collections and to nodes below; so none goes on forever,
and every query is answered within some depth of nesting, whatever the registry holds. The lookups
it makes are answered within their limits, although parents may form cycles. -/
theorem nested_calls_descend_and_return (s : Setting) :
    (∀ chain : List Frame, chain.IsChain (Nested s) →
      (chain.filterMap Frame.enters).Nodup ∧
      chain.IsChain (fun f g => (∃ key, g.symbol? = some key) ∨ Descends s f.call g.call) ∧
      ∀ segment, segment <:+: chain → (∀ f ∈ segment.tail, f.symbol? = none) →
        (segment.filterMap Frame.node?).Pairwise fun n v => s.module.Below v n) ∧
    WellFounded (flip (Nested s)) ∧
    (∀ q : Query, ∃ limit, ∀ depth, limit ≤ depth → ∀ r : Registry,
      q.run s (within s depth []) r = some (q.answer s r)) ∧
    (∀ (r : Registry) (type : TypeName) (member : String),
      (r.lookupWithin s.index member (r.length + 1) [] type).map Prod.fst
        = some (r.lookup s.index type member) ∧
      r.ancestorsWithin type (r.parentCount + 1) [] (r.parents type) = some (r.ancestors type) ∧
      Index.levels s.index.parents (s.index.types.length + 1) [type] (s.index.parents type)
        = some (s.index.ancestors type)) := by
  refine ⟨fun chain h => ⟨nodup_enters h, h.imp fun _ _ => symbol_or_descends, ?_⟩,
    wellFounded_nested s, exists_matches_query s, fun r type member => ⟨?_, ?_, ?_⟩⟩
  · intro segment hsegment hsymbol
    have hchain := List.IsChain.infix h hsegment
    exact nodes_descend hchain hsymbol
  · exact r.lookupWithin_eq s.index member (Nat.lt_succ_self _) type
  · exact r.ancestorsWithin_eq (Nat.lt_succ_self _) type
  · exact s.index.levels_eq type

end ScriptTypes.Inference
