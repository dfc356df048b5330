import ScriptTypes.Inference.Setting
import ScriptTypes.Proofs.Scope.Nested

/-!
# Scopes at offsets

The text of a scope is the body of its function. The search for the scope at an offset only compares
texts, and it finds the scope of the innermost function whose body covers the offset. Where a node
starts, that is the nearest function around the node, unless the node is a parameter or a list of
parameters, which stand in front of the body.

Main statement: `scopes_nest_like_functions`.
-/

namespace ScriptTypes

open Script (Form Module NodeId)

namespace Script.Module

variable {m : Module}

/-- Is a node a function whose body covers an offset? -/
def bodyCovers (m : Module) (f : NodeId) (offset : Nat) : Bool :=
  m.isFunction f && (m.span (Scopes.bodyOf m f)).contains offset

theorem bodyCovers_iff {f : NodeId} {offset : Nat} : m.bodyCovers f offset = true ↔
    m.isFunction f = true ∧ (m.span (Scopes.bodyOf m f)).contains offset = true :=
  Bool.and_eq_true_iff

/-- The innermost function whose body covers an offset; none if there is no such function. -/
def InnermostAt (m : Module) (offset : Nat) : Option NodeId → Prop
  | none => ∀ f, m.bodyCovers f offset = false
  | some f => m.bodyCovers f offset = true ∧ ∀ g, m.bodyCovers g offset = true → m.Under f g

namespace WellFormed

variable (h : m.WellFormed)
include h

/-- Functions whose bodies cover the same offset are nested. -/
theorem under_or_under_of_bodyCovers {f g : NodeId} {offset : Nat}
    (hf : m.bodyCovers f offset = true) (hg : m.bodyCovers g offset = true) :
    m.Under f g ∨ m.Under g f := by
  have hout {f g : NodeId} (hf : m.isFunction f = true) (hg : m.isFunction g = true)
      (hunder : m.Under (Scopes.bodyOf m f) (Scopes.bodyOf m g)) : m.Under f g := by
    rw [← h.below_iff_of_mem_children (h.bodyOf_mem_children hf)]
    obtain heq | hbelow := hunder
    · rw [heq]
      exact .child (h.bodyOf_mem_children hg)
    · exact hbelow.trans (.child (h.bodyOf_mem_children hg))
  obtain ⟨hf, hcontains⟩ := bodyCovers_iff.1 hf
  obtain ⟨hg, hcontains'⟩ := bodyCovers_iff.1 hg
  have hbody := h.lt_size_of_mem_children (h.bodyOf_mem_children hf)
  have hbody' := h.lt_size_of_mem_children (h.bodyOf_mem_children hg)
  exact (h.under_or_under hbody hbody' hcontains hcontains').imp (hout hf hg) (hout hg hf)

/-- What a function's body covers is covered by the bodies around it. -/
theorem bodyCovers_of_functionAround? {f g : NodeId} {offset : Nat}
    (hg : m.bodyCovers g offset = true) (hf : m.functionAround? g = some f) :
    m.bodyCovers f offset = true := by
  obtain ⟨hg, hcontains⟩ := bodyCovers_iff.1 hg
  obtain ⟨hfunction, hbelow⟩ := h.of_functionAround? hf
  refine bodyCovers_iff.2 ⟨hfunction, ?_⟩
  have hunder := h.under_bodyOf hfunction hg hbelow
  exact h.contains_of_under ((Under.trans (.inr (.child (h.bodyOf_mem_children hg)))) hunder)
    hcontains

/-- A node that starts in the body of a function is in the body. -/
theorem under_bodyOf_of_bodyCovers {f n : Nat} (hn : n < m.size)
    (hf : m.bodyCovers f (m.span n).start = true) : m.Under n (Scopes.bodyOf m f) := by
  obtain ⟨hf, hcontains⟩ := bodyCovers_iff.1 hf
  obtain ⟨name, docs, params, body, hform⟩ := isFunction_iff.1 hf
  obtain ⟨hbody, hmem, -, hpos⟩ := h.bodyOf_of_function hform
  rw [hbody] at hcontains ⊢
  have hinside := Span.contains_iff.1 hcontains
  obtain rfl | hbelow := h.under_root hn
  · rw [h.start] at hinside
    omega
  · have hspan := h.span_of_below hbelow
    have hself : (m.span n).contains (m.span n).start = true := Span.contains_iff.2 (by omega)
    obtain hunder | rfl | hbelow :=
      h.under_or_under hn (h.lt_size_of_mem_children hmem) hself hcontains
    · exact hunder
    · exact .inl rfl
    · -- a node around the body is around the function, which starts before its body
      have hfunction := h.span_of_under ((h.below_iff_of_mem_children hmem).1 hbelow)
      have hlead : (m.form f).lead = 1 := by rw [hform]; rfl
      have hstart := h.span_of_below (.child hmem)
      omega

theorem bodyCovers_start_iff {f n : Nat} (hn : n < m.size) (hparameter : m.isParameter n = false)
    (hform : ∀ items, m.form n ≠ .parameters items) :
    m.bodyCovers f (m.span n).start = true ↔ m.isFunction f = true ∧ m.Below n f := by
  constructor
  · intro hcovers
    have hunder := h.under_bodyOf_of_bodyCovers hn hcovers
    obtain ⟨hf, -⟩ := bodyCovers_iff.1 hcovers
    have hbody := Below.child (h.bodyOf_mem_children hf)
    exact ⟨hf, hunder.elim (fun heq => heq ▸ hbody) fun hbelow => hbelow.trans hbody⟩
  · rintro ⟨hf, hbelow⟩
    refine bodyCovers_iff.2 ⟨hf, ?_⟩
    obtain ⟨name, docs, params, body, hfunction⟩ := isFunction_iff.1 hf
    obtain ⟨-, items, hparams, -⟩ := h.children_of_function hfunction
    have hunder : m.Under n body := by
      obtain hunder | rfl | hparent := h.under_body_of_below hfunction hbelow
      · exact hunder
      · exact absurd hparams (hform items)
      · rw [isParameter_iff.2 ⟨params, items, hparent, hparams⟩] at hparameter
        cases hparameter
    rw [(h.bodyOf_of_function hfunction).1]
    have hspan := h.span_of_below hbelow
    exact h.contains_of_under hunder (Span.contains_iff.2 (by omega))

/-- If the functions around a node are those whose bodies cover an offset, the nearest of them is
the innermost. -/
theorem eq_functionAround?_of_innermostAt {n : NodeId} {offset : Nat} {g : Option NodeId}
    (hcovers : ∀ f, m.bodyCovers f offset = true ↔ m.isFunction f = true ∧ m.Below n f)
    (hg : m.InnermostAt offset g) : g = m.functionAround? n := by
  cases haround : m.functionAround? n with
  | none =>
    cases g with
    | none => rfl
    | some f =>
      have hmem := h.mem_functionsAround_iff.2 ((hcovers f).1 hg.1)
      rw [List.head?_eq_none_iff.1 haround] at hmem
      cases hmem
  | some a =>
    have ha := (hcovers a).2 (h.of_functionAround? haround)
    cases g with
    | none => rw [hg a] at ha; cases ha
    | some f =>
      obtain ⟨hf, hbelow⟩ := (hcovers f).1 hg.1
      rw [(hg.2 a ha).antisymm (h.under_of_functionAround? haround hf hbelow)]

end WellFormed

end Script.Module

namespace Scopes

variable {m : Module} {s : Scopes}

/-! ### The search for the scope at an offset -/

/-- Of the functions whose scopes stand in front of a position, those whose bodies cover the offset
are around the one that the search has reached. -/
structure Reached (m : Module) (s : Scopes) (offset : Nat) (position : ScopeId)
    (g : Option NodeId) : Prop where
  known : g ∈ s.functions
  covers : ∀ f, g = some f → m.bodyCovers f offset = true
  around : ∀ f, some f ∈ s.functions → s.idOf (some f) < position →
    m.bodyCovers f offset = true → some f ∈ m.enclosing g

/-- A function that covers the offset and is not right inside the one that the search has reached is
around it. -/
theorem Reached.mem_enclosing (hs : Nests m s) (h : m.WellFormed) {offset : Nat} {f : NodeId}
    {g : Option NodeId} (hg : Reached m s offset (s.idOf (some f)) g)
    (hknown : some f ∈ s.functions)
    (hf : m.bodyCovers f offset = true) (hne : m.functionAround? f ≠ g) :
    some f ∈ m.enclosing g := by
  have haround : m.functionAround? f ∈ m.enclosing g := by
    cases ha : m.functionAround? f with
    | none => exact Module.none_mem_enclosing g
    | some a =>
      refine hg.around a ?_ ?_ (h.bodyCovers_of_functionAround? hf ha)
      · exact ha ▸ hs.functionAround?_mem hknown
      · exact ha ▸ hs.order f hknown
  have hfunction := (Module.bodyCovers_iff.1 hf).1
  cases g with
  | none => exact absurd (List.mem_singleton.1 haround) hne
  | some r =>
    obtain hunder | hunder := h.under_or_under_of_bodyCovers (hg.covers r rfl) hf
    · exact (Module.some_mem_enclosing_iff h hfunction).2 hunder
    · obtain rfl | hbelow := hunder
      · exact Module.self_mem_enclosing _
      · -- the function around is under the one reached, and it is around that one
        have hr := (Module.bodyCovers_iff.1 (hg.covers r rfl)).1
        cases ha : m.functionAround? f with
        | none =>
          have hmem := h.mem_functionsAround_iff.2 ⟨hr, hbelow⟩
          rw [List.head?_eq_none_iff.1 ha] at hmem
          cases hmem
        | some a =>
          rw [ha, Module.some_mem_enclosing_iff h (h.of_functionAround? ha).1] at haround
          rw [ha, haround.antisymm (h.under_of_functionAround? ha hr hbelow)] at hne
          exact absurd rfl hne

/-- One step of the search. -/
theorem Reached.step (hs : Nests m s) (h : m.WellFormed)
    (hrange : ∀ f, some f ∈ s.functions →
      (s.get (s.idOf (some f))).range = m.span (bodyOf m f))
    (hfunction : ∀ f, some f ∈ s.functions → m.isFunction f = true) {offset : Nat} {id : ScopeId}
    (hid : id < s.table.size) {g : Option NodeId} (hg : Reached m s offset id g) :
    ∃ g', Reached m s offset (id + 1) g' ∧
      (if (s.get id).parent? = some (s.idOf g) ∧ (s.get id).range.contains offset then id
        else s.idOf g) = s.idOf g' := by
  obtain ⟨next, hknown, rfl⟩ : ∃ next ∈ s.functions, s.idOf next = id :=
    ⟨_, function_mem_functions hid, idOf_function hs.head hs.nodup hid⟩
  -- the functions in front of the next position are those seen so far and the one there
  have hlt {f : NodeId} (hf : some f ∈ s.functions) (hlt : s.idOf (some f) < s.idOf next + 1) :
      s.idOf (some f) < s.idOf next ∨ some f = next := by
    obtain hlt | heq := Nat.lt_or_eq_of_le (Nat.le_of_lt_succ hlt)
    · exact .inl hlt
    · exact .inr ((idOf_inj hs.head hf hknown).1 heq)
  split
  · rename_i hinside
    obtain ⟨hparent, hcontains⟩ := hinside
    refine ⟨next, ⟨hknown, ?_, ?_⟩, rfl⟩
    · rintro f rfl
      rw [hrange f hknown] at hcontains
      exact Module.bodyCovers_iff.2 ⟨hfunction f hknown, hcontains⟩
    · intro f hf hbefore hcovers
      obtain hbefore | rfl := hlt hf hbefore
      · cases next with
        | none => exact absurd hbefore (Nat.not_lt_zero _)
        | some f' =>
          rw [hs.parent?_idOf hknown, Option.some.injEq,
            idOf_inj hs.head (hs.functionAround?_mem hknown) hg.known] at hparent
          rw [Module.enclosing_some, hparent]
          exact List.mem_cons_of_mem _ (hg.around f hf hbefore hcovers)
      · exact Module.self_mem_enclosing _
  · rename_i houtside
    refine ⟨g, ⟨hg.known, hg.covers, ?_⟩, rfl⟩
    intro f hf hbefore hcovers
    obtain hbefore | rfl := hlt hf hbefore
    · exact hg.around f hf hbefore hcovers
    · refine hg.mem_enclosing hs h hf hcovers fun haround => houtside ⟨?_, ?_⟩
      · rw [hs.parent?_idOf hf, haround]
      · rw [hrange f hf]
        exact (Module.bodyCovers_iff.1 hcovers).2

end Scopes

namespace Script.Module

variable {m : Module}

/-- The text of the scope of a function or of the program. -/
def scopeText (m : Module) : Option NodeId → Span
  | none => m.range m.root
  | some f => m.range (Scopes.bodyOf m f)

theorem range_scopes {id : ScopeId} (hid : id < (Scopes.ofModule m).table.size) :
    ((Scopes.ofModule m).get id).range = m.scopeText ((Scopes.ofModule m).get id).function := by
  have hheader := Scopes.header_mem_headers hid
  rw [Scopes.headers_ofModule] at hheader
  obtain hheader | hheader := List.mem_cons.1 hheader
  · obtain ⟨hfunction, hrange⟩ := Prod.mk.inj hheader
    rw [hfunction, hrange, scopeText]
  · obtain ⟨f, -, hheader⟩ := List.mem_map.1 hheader
    obtain ⟨hfunction, hrange⟩ := Prod.mk.inj hheader
    rw [← hfunction, ← hrange, scopeText]

namespace WellFormed

variable (h : m.WellFormed) {items : List NodeId} (hroot : m.form m.root = .program items)
include h hroot

theorem range_idOf {f : NodeId} (hf : some f ∈ (Scopes.ofModule m).functions) :
    ((Scopes.ofModule m).get ((Scopes.ofModule m).idOf (some f))).range
      = m.range (Scopes.bodyOf m f) := by
  have hhead := (h.nests_scopes hroot).head
  rw [range_scopes (Scopes.idOf_lt hhead hf), Scopes.function_idOf hhead hf, scopeText]

/-- The scope at an offset is that of the innermost function whose body covers the offset. -/
theorem atOffset_scopes (hexact : m.Exact) (offset : Nat) : ∃ g, m.InnermostAt offset g ∧
    (Scopes.ofModule m).atOffset offset = (Scopes.ofModule m).idOf g := by
  have hs := h.nests_scopes hroot
  have hfunctions {f : NodeId} := h.some_mem_functions hroot (f := f)
  rw [Scopes.atOffset, Scopes.ids]
  generalize hscopes : Scopes.ofModule m = s at hs hfunctions
  have hsearch (k : Nat) (hk : k ≤ s.table.size) : ∃ g, s.Reached m offset k g ∧
      (List.range k).foldl (fun cur id => if (s.get id).parent? = some cur ∧
        (s.get id).range.contains offset then id else cur) Scopes.root = s.idOf g := by
    induction k with
    | zero =>
      refine ⟨none, ⟨List.mem_of_mem_head? hs.head, fun f hf => ?_, fun f _ hlt => ?_⟩, rfl⟩
      · cases hf
      · exact absurd hlt (Nat.not_lt_zero _)
    | succ k ih =>
      obtain ⟨g, hg, hfold⟩ := ih (by omega)
      obtain ⟨g', hg', hstep⟩ := hg.step hs h
        (fun f hf => (hscopes ▸ h.range_idOf hroot (hscopes ▸ hf)).trans (hexact _))
        (fun f hf => hfunctions.1 hf) hk
      refine ⟨g', hg', ?_⟩
      rw [List.range_succ, List.foldl_append, hfold, ← hstep]
      rfl
  obtain ⟨g, hg, hfold⟩ := hsearch s.table.size (Nat.le_refl _)
  refine ⟨g, ?_, hfold⟩
  have haround {f : NodeId} (hf : m.bodyCovers f offset = true) : some f ∈ m.enclosing g := by
    have hknown := hfunctions.2 (bodyCovers_iff.1 hf).1
    exact hg.around f hknown (Scopes.idOf_lt hs.head hknown) hf
  cases g with
  | none =>
    intro f
    by_contra hf
    have hmem := haround (Bool.not_eq_false _ ▸ hf)
    simp [enclosing] at hmem
  | some r =>
    refine ⟨hg.covers r rfl, fun f hf => ?_⟩
    exact (some_mem_enclosing_iff h (bodyCovers_iff.1 hf).1).1 (haround hf)

/-- The scope where a node starts is that of the nearest function around the node. -/
theorem atOffset_start (hexact : m.Exact) {n : Nat} (hn : n < m.size)
    (hparameter : m.isParameter n = false) (hform : ∀ items, m.form n ≠ .parameters items) :
    (Scopes.ofModule m).atOffset (m.range n).start
      = (Scopes.ofModule m).idOf (m.functionAround? n) := by
  obtain ⟨g, hg, hat⟩ := h.atOffset_scopes hroot hexact (m.span n).start
  rw [hexact, hat, h.eq_functionAround?_of_innermostAt (fun f => ?_) hg]
  exact h.bodyCovers_start_iff hn hparameter hform

/-! ### Scopes inside a scope -/

/-- A scope inside another one belongs to a function. -/
theorem exists_of_parent? {id outer : ScopeId} (hid : id < (Scopes.ofModule m).table.size)
    (hparent : ((Scopes.ofModule m).get id).parent? = some outer) :
    ∃ f, m.isFunction f = true ∧ ((Scopes.ofModule m).get id).function = some f ∧
      outer = (Scopes.ofModule m).idOf (m.functionAround? f) := by
  have hs := h.nests_scopes hroot
  have hid' := Scopes.idOf_function hs.head hs.nodup hid
  have hmem := Scopes.function_mem_functions hid
  cases hfunction : ((Scopes.ofModule m).get id).function with
  | none =>
    rw [hfunction] at hid'
    rw [← hid'] at hparent
    cases hs.parent?_root.symm.trans hparent
  | some f =>
    rw [hfunction] at hid' hmem
    rw [← hid', hs.parent?_idOf hmem] at hparent
    exact ⟨f, (h.some_mem_functions hroot).1 hmem, rfl, (Option.some.inj hparent).symm⟩

/-- The body of a function stands in the text of the scope around it. -/
theorem range_of_parent? (hexact : m.Exact) {id outer : ScopeId} (hid : id < (Scopes.ofModule m).table.size)
    (hparent : ((Scopes.ofModule m).get id).parent? = some outer) :
    ((Scopes.ofModule m).get outer).range.start ≤ ((Scopes.ofModule m).get id).range.start ∧
      ((Scopes.ofModule m).get id).range.stop ≤ ((Scopes.ofModule m).get outer).range.stop := by
  have hs := h.nests_scopes hroot
  obtain ⟨f, hf, hfunction, rfl⟩ := h.exists_of_parent? hroot hid hparent
  have hknown := hs.functionAround?_mem ((h.some_mem_functions hroot).2 hf)
  have hbody : m.Under (Scopes.bodyOf m f) f := .inr (.child (h.bodyOf_mem_children hf))
  rw [range_scopes hid, hfunction, range_scopes (Scopes.idOf_lt hs.head hknown),
    Scopes.function_idOf hs.head hknown, scopeText, hexact]
  cases ha : m.functionAround? f with
  | none =>
    rw [scopeText, hexact]
    exact h.span_of_under (hbody.trans (h.under_root (h.lt_size_of_isFunction hf)))
  | some a =>
    obtain ⟨hfunction, hbelow⟩ := h.of_functionAround? ha
    rw [scopeText, hexact]
    exact h.span_of_under (hbody.trans (h.under_bodyOf hfunction hf hbelow))

theorem pairwise_functions : (Scopes.ofModule m).functions.Pairwise fun g g' =>
    ∀ f f', g = some f → g' = some f' → m.Below f' f ∨ (m.span f).stop ≤ (m.span f').start := by
  rw [h.functions_scopes hroot, List.pairwise_cons, List.pairwise_map]
  constructor
  · rintro g - f f' ⟨⟩
  · refine ((h.pairwise_preorder m.root).filter _).imp ?_
    rintro f f' hff' _ _ ⟨⟩ ⟨⟩
    exact hff'

/-- The texts of the scopes right inside a scope follow one another. -/
theorem pairwise_children_scopes (hexact : m.Exact) (id : ScopeId) :
    ((Scopes.ofModule m).children id).Pairwise fun a b =>
      ((Scopes.ofModule m).get a).range.stop ≤ ((Scopes.ofModule m).get b).range.start := by
  have hs := h.nests_scopes hroot
  have hpairwise := h.pairwise_functions hroot
  rw [← Scopes.map_function_ids, List.pairwise_map] at hpairwise
  rw [Scopes.children]
  refine (hpairwise.filter _).imp_of_mem fun {a b} ha hb hab => ?_
  simp only [List.mem_filter, Scopes.ids, List.mem_range, beq_iff_eq] at ha hb
  obtain ⟨f, hf, hfunction, hid⟩ := h.exists_of_parent? hroot ha.1 ha.2
  obtain ⟨f', hf', hfunction', hid'⟩ := h.exists_of_parent? hroot hb.1 hb.2
  have haround : m.functionAround? f = m.functionAround? f' := by
    apply (Scopes.idOf_inj hs.head _ _).1 (hid.symm.trans hid')
    · exact hs.functionAround?_mem ((h.some_mem_functions hroot).2 hf)
    · exact hs.functionAround?_mem ((h.some_mem_functions hroot).2 hf')
  rw [range_scopes ha.1, range_scopes hb.1, hfunction, hfunction', scopeText, scopeText, hexact,
    hexact]
  have hbody := h.span_of_below (.child (h.bodyOf_mem_children hf))
  have hbody' := h.span_of_below (.child (h.bodyOf_mem_children hf'))
  obtain hbelow | hafter := hab f f' hfunction hfunction'
  · -- a function below the first would have the first or one below it right around it
    have hmem := h.mem_functionsAround_iff.2 ⟨hf, hbelow⟩
    cases ha' : m.functionAround? f' with
    | none =>
      rw [List.head?_eq_none_iff.1 ha'] at hmem
      cases hmem
    | some a =>
      have hunder := h.under_of_functionAround? ha' hf hbelow
      obtain ⟨-, hbelow'⟩ := h.of_functionAround? (haround.trans ha')
      obtain rfl | hbelow'' := hunder
      · exact absurd hbelow'.lt (Nat.lt_irrefl _)
      · exact absurd hbelow'.lt (Nat.lt_asymm hbelow''.lt)
  · omega

end WellFormed

end Script.Module

/-! ### The scope of a node -/

namespace Setting

variable {s : Setting} (h : s.module.WellFormed) (hscopes : s.scopes = Scopes.ofModule s.module)
  {items : List NodeId} (hroot : s.module.form s.module.root = .program items)
include h hscopes hroot

/-- The names at a node are looked up in the scope of the nearest function around it. -/
theorem scopeOf_eq (hexact : s.module.Exact) {n : Nat} (hn : n < s.module.size)
    (hform : ∀ items, s.module.form n ≠ .parameters items) :
    s.scopeOf n = s.scopes.idOf (s.module.functionAround? n) := by
  rw [scopeOf]
  cases hparameter : s.module.isParameter n with
  | false =>
    have hnone : s.parameterList? n = none := by
      rw [parameterList?, Option.filter_eq_none_iff]
      intro p hp hparameters
      cases hparams : s.module.form p with
      | parameters items =>
        rw [Module.isParameter_iff.2 ⟨p, items, hp, hparams⟩] at hparameter
        cases hparameter
      | _ => rw [hparams] at hparameters; cases hparameters
    rw [hnone, hscopes]
    exact h.atOffset_start hroot hexact hn hparameter hform
  | true =>
    obtain ⟨p, params, hp, hparams⟩ := Module.isParameter_iff.1 hparameter
    have hlist : s.parameterList? n = some p := by
      rw [parameterList?, hp, Option.filter_some, hparams]
      rfl
    have hsize := (Module.lt_of_parent? hp).2
    obtain ⟨f, hf⟩ : ∃ f, p ∈ s.module.children f := by
      obtain rfl | hbelow := h.under_root hsize
      · cases hroot.symm.trans hparams
      · exact hbelow.exists_parent
    obtain ⟨name, docs, body, hfunction⟩ := h.eq_function_of_parameters hf hparams
    have hisFunction := Module.isFunction_iff.2 ⟨_, _, _, _, hfunction⟩
    have haround : s.module.functionAround? n = some f := by
      have hnot : ¬s.module.isFunction p = true := by simp [Module.isFunction, hparams]
      rw [h.functionAround?_of_mem_children (Module.mem_children_of_parent? hp), if_neg hnot,
        h.functionAround?_of_mem_children hf, if_pos hisFunction]
    have hknown := (h.some_mem_functions hroot).2 hisFunction
    rw [hlist, haround, Scopes.idOf, hscopes]
    simp [(Module.parent?_eq_some_iff h.children).2 hf, Scopes.ofFunction?_eq hknown]

end Setting

namespace Scopes

/-- There is one scope for the program and one for each function. The scope around that of a
function is the scope of the nearest function around it. In a text of less than 2 ^ 32 bytes, the
texts of the scopes inside a scope follow one another inside its text. The scope at an offset is
then that of the innermost function whose body covers the offset, which at the start of a body is
the body's function, and names at a node are looked up in the scope of the nearest function around
the node. -/
theorem scopes_nest_like_functions {cs : List Char} {m : Module} (h : Module.ofText cs = .ok m) :
    (ofModule m).functions.Perm (none :: (m.nodes.filter m.isFunction).map some) ∧
    ((ofModule m).get root).function = none ∧ ((ofModule m).get root).parent? = none ∧
    (∀ f, m.isFunction f = true → ∃ id, (ofModule m).ofFunction? f = some id ∧
      ((ofModule m).get id).function = some f ∧
      ((ofModule m).get id).parent? = some ((ofModule m).idOf (m.functionAround? f)) ∧
      (Text.byteSize cs < 2 ^ 32 → (ofModule m).atOffset (m.range (bodyOf m f)).start = id)) ∧
    (Text.byteSize cs < 2 ^ 32 →
      (∀ id, ((ofModule m).children id).Pairwise
          (fun a b => ((ofModule m).get a).range.stop ≤ ((ofModule m).get b).range.start) ∧
        ∀ c ∈ (ofModule m).children id,
          ((ofModule m).get id).range.start ≤ ((ofModule m).get c).range.start ∧
            ((ofModule m).get c).range.stop ≤ ((ofModule m).get id).range.stop) ∧
      (∀ offset, ∃ g, m.InnermostAt offset g ∧ (ofModule m).atOffset offset = (ofModule m).idOf g) ∧
      ∀ s : Setting, s.module = m → s.scopes = ofModule m → ∀ n < m.size,
        (∀ items, m.form n ≠ .parameters items) →
          s.scopeOf n = (ofModule m).idOf (m.functionAround? n)) := by
  have hformed := Module.wellFormed_of_ofText h
  obtain ⟨items, hroot⟩ := Module.form_root_of_ofText h
  have hs := hformed.nests_scopes hroot
  refine ⟨?_, ?_, hs.parent?_root, fun f hf => ?_, fun hsize => ?_⟩
  · rw [hformed.functions_scopes hroot]
    refine (((List.perm_ext_iff_of_nodup (hformed.nodup_preorder _) List.nodup_range).2 ?_).filter
      _).map _ |>.cons _
    intro n
    rw [Module.mem_preorder_iff, List.mem_range]
    refine ⟨fun hn => ?_, hformed.under_root⟩
    obtain rfl | hbelow := hn
    · exact Nat.lt_of_lt_of_eq (Nat.lt_succ_self _) hformed.size
    · exact Nat.lt_trans hbelow.lt hbelow.lt_size
  · exact function_idOf hs.head (List.mem_of_mem_head? hs.head)
  · have hknown := (hformed.some_mem_functions hroot).2 hf
    obtain ⟨name, docs, params, body, hform⟩ := Module.isFunction_iff.1 hf
    obtain ⟨hbody, hmem, ⟨block, hblock⟩, -⟩ := hformed.bodyOf_of_function hform
    refine ⟨(ofModule m).idOf (some f), ?_, function_idOf hs.head hknown, hs.parent?_idOf hknown,
      fun hsize => ?_⟩
    · rw [ofFunction?_eq hknown, idOf_eq hs.head hknown]
    · have hparameter : m.isParameter body = false := by
        rw [Bool.eq_false_iff, Ne, Module.isParameter_iff]
        rintro ⟨p, items, hp, hparams⟩
        obtain rfl := Module.eq_of_mem_children hformed.children hmem
          (Module.mem_children_of_parent? hp)
        cases hform.symm.trans hparams
      rw [hbody, hformed.atOffset_start hroot (Module.exact_of_ofText h hsize)
        (hformed.lt_size_of_mem_children hmem) hparameter (by simp [hblock]),
        hformed.functionAround?_of_mem_children hmem, if_pos hf]
  · have hexact := Module.exact_of_ofText h hsize
    refine ⟨fun id => ⟨hformed.pairwise_children_scopes hroot hexact id, fun c hc => ?_⟩,
      hformed.atOffset_scopes hroot hexact, ?_⟩
    · simp only [children, List.mem_filter, ids, List.mem_range, beq_iff_eq] at hc
      exact hformed.range_of_parent? hroot hexact hc.1 hc.2
    · rintro s rfl hscopes n hn hform
      rw [← hscopes]
      exact Setting.scopeOf_eq hformed hscopes hroot hexact hn hform

/-- The scope of an inner function is right inside that of the outer one, and the search finds it
where the inner body starts. -/
theorem scope_of_inner_function_is_nested : ∃ m : Module,
    Module.ofText "function f(a) \x7b g(function () \x7b a; \x7d); \x7d".toList = .ok m ∧
      ((ofModule m).get 2).function = some 7 ∧
      ((ofModule m).get 2).parent? = some ((ofModule m).idOf (m.functionAround? 7)) ∧
      (ofModule m).atOffset 30 = 2 := by
  obtain ⟨m, hm, hfunction, hid, hstart⟩ := Module.exists_ofText
    "function f(a) \x7b g(function () \x7b a; \x7d); \x7d"
    (fun m => m.isFunction 7 = true ∧ (ofModule m).ofFunction? 7 = some 2 ∧
      (m.range (bodyOf m 7)).start = 30) (by decide +kernel)
  obtain ⟨-, -, -, hall, -⟩ := scopes_nest_like_functions hm
  obtain ⟨id, hfound, hscope, hparent, hat⟩ := hall 7 hfunction
  cases hid.symm.trans hfound
  rw [hstart] at hat
  exact ⟨m, hm, hscope, hparent, hat (by decide +kernel)⟩

end Scopes

end ScriptTypes
