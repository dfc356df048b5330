import Mathlib.Data.List.Nodup
import ScriptTypes.Index.Basic

/-!
# Merging indexes

An index is merged into another one by adding all it holds once more: its globals, then its types
with their parents and members, then its modules. A global is a member of the window as well and
comes in with the globals, so the window's members are left out where the types are added.

Each question to an index is seen as a list that additions prolong. The answers of a merged index are
then those of the first index, prolonged by what the second one holds, and the tables of an index
file every element under its name and its owner, so that this is what the second index answers.
The window is the exception: only its globals come in, and a member that was declared there without
being a global is lost.
-/

namespace ScriptTypes

/-- A view `v` of a state that each step prolongs is prolonged by a whole run. -/
theorem foldl_view {α β γ δ : Type} {f : β → α → β} {v : β → γ} {p : γ → List δ → γ}
    {g : α → List δ} (hnil : ∀ x, p x [] = x) (happend : ∀ x ys zs, p x (ys ++ zs) = p (p x ys) zs)
    (hstep : ∀ b a, v (f b a) = p (v b) (g a)) (b : β) (as : List α) :
    v (as.foldl f b) = p (v b) (as.flatMap g) := by
  induction as generalizing b with
  | nil => exact (hnil _).symm
  | cons a as ih => rw [List.foldl_cons, ih, hstep, List.flatMap_cons, happend]

theorem foldl_view_append {α β δ : Type} {f : β → α → β} {v : β → List δ} {g : α → List δ}
    (hstep : ∀ b a, v (f b a) = v b ++ g a) (b : β) (as : List α) :
    v (as.foldl f b) = v b ++ as.flatMap g :=
  foldl_view List.append_nil (fun _ _ _ => (List.append_assoc _ _ _).symm) hstep b as

theorem foldl_view_eq {α β γ : Type} {f : β → α → β} {v : β → γ} (hstep : ∀ b a, v (f b a) = v b)
    (b : β) (as : List α) : v (as.foldl f b) = v b :=
  List.foldlRecOn as f (motive := fun x => v x = v b) rfl fun x hx a _ => (hstep x a).trans hx

theorem foldl_or {α β : Type} {f : β → α → β} {P : β → Prop} {Q : α → Prop}
    (hstep : ∀ b a, P (f b a) ↔ P b ∨ Q a) (b : β) (as : List α) :
    P (as.foldl f b) ↔ P b ∨ ∃ a ∈ as, Q a := by
  induction as generalizing b with
  | nil => simp
  | cons a as ih => rw [List.foldl_cons, ih, hstep, or_assoc, List.exists_mem_cons_iff]

namespace Entries

variable {α : Type}

/-- The items of all names. -/
def items (table : Entries (List α)) : List α := table.flatMap Prod.snd

theorem nodup_names_upsert {name : String} {f : Option α → α} {entries : Entries α}
    (h : (names entries).Nodup) : (names (upsert name f entries)).Nodup := by
  rw [names_upsert]
  split
  · exact h
  · rename_i hname
    refine List.nodup_append.2 ⟨h, List.nodup_singleton name, fun n hn m hm heq => hname ?_⟩
    rwa [← List.mem_singleton.1 hm, ← heq]

/-- What stands under the different names of a table, looked up by one of them. -/
theorem flatMap_of_name {β : Type} {entries : Entries α} (h : (names entries).Nodup) (name : String)
    (f : α → List β) :
    (entries.flatMap fun p => if p.1 = name then f p.2 else [])
      = ((get? name entries).map f).getD [] := by
  unfold get?
  induction entries with
  | nil => rfl
  | cons entry rest ih =>
    obtain ⟨n, a⟩ := entry
    obtain ⟨hn, hrest⟩ := List.nodup_cons.1 (show (n :: names rest).Nodup from h)
    rw [List.flatMap_cons]
    by_cases heq : n = name
    · subst heq
      have hnil : (rest.flatMap fun p => if p.1 = n then f p.2 else []) = [] := by
        refine List.flatMap_eq_nil_iff.2 fun p hp => if_neg fun hpn => hn ?_
        exact hpn ▸ List.mem_map_of_mem hp
      rw [if_pos rfl, hnil, List.append_nil]
      simp
    · have heq' : (name == n) = false := by simpa using Ne.symm heq
      rw [if_neg heq, List.nil_append, ih hrest]
      simp [List.lookup_cons, heq']

/-- Names are different, and every item stands under its key. -/
structure Filed (key : α → String) (table : Entries (List α)) : Prop where
  nodup : (names table).Nodup
  key : ∀ p ∈ table, ∀ a ∈ p.2, key a = p.1

namespace Filed

variable {key : α → String} {table : Entries (List α)}

theorem nil : Filed key ([] : Entries (List α)) := ⟨List.nodup_nil, fun _ hp => nomatch hp⟩

/-- The items with a key are those that stand under it. -/
theorem flatMap_items (h : Filed key table) (name : String) :
    ((items table).flatMap fun a => if key a = name then [a] else [])
      = (get? name table).getD [] := by
  have hentry : ∀ p ∈ table, (p.2.flatMap fun a => if key a = name then [a] else [])
      = if p.1 = name then p.2 else [] := by
    intro p hp
    split
    · rename_i hname
      calc p.2.flatMap (fun a => if key a = name then [a] else [])
          = p.2.flatMap (fun a => [a]) := List.flatMap_congr fun a ha =>
            if_pos ((h.key p hp a ha).trans hname)
        _ = p.2 := List.flatMap_singleton' _
    · rename_i hname
      exact List.flatMap_eq_nil_iff.2 fun a ha => if_neg (h.key p hp a ha ▸ hname)
  have hname := flatMap_of_name h.nodup name id
  rw [Option.map_id_apply] at hname
  rw [items, List.flatMap_assoc, List.flatMap_congr hentry]
  exact hname

/-- One more item under its key. -/
theorem append (h : Filed key table) (a : α) :
    Filed key (upsert (key a) (fun as? => as?.getD [] ++ [a]) table) := by
  refine ⟨nodup_names_upsert h.nodup, fun p hp b hb => ?_⟩
  rcases mem_upsert hp with hp | rfl
  · exact h.key p hp b hb
  · rcases List.mem_append.1 hb with hb | hb
    · cases hget : get? (key a) table with
      | none => simp [hget] at hb
      | some as =>
        obtain ⟨l₁, l₂, rfl, -⟩ := List.lookup_eq_some_iff.1 hget
        rw [hget] at hb
        exact h.key (key a, as) (by simp) b hb
    · rw [List.mem_singleton.1 hb]

end Filed

end Entries

namespace Index

open Entries (items names Filed)

/-! ### What each addition does to the answers -/

/-- The globals of a name in the order of their arrival. -/
def globalsOf (index : Index) (name : String) : List Element :=
  (Entries.get? name index.globals).getD []

/-- The documents of a module. -/
def documentsOf (index : Index) (word : String) : List String :=
  (Entries.get? word index.modules).getD []

/-- An element as a global. -/
def asGlobal (e : Element) : Element := { e with owner := window }

variable (index : Index) (type name word document : String) (member : String) (e : Element)

theorem record_updateType (f : TypeRecord → TypeRecord) :
    (index.updateType name f).record type
      = if type = name then f (index.record name) else index.record type := by
  rw [record, updateType, Entries.get?_upsert]
  split <;> rfl

theorem hasType_updateType (f : TypeRecord → TypeRecord) :
    (index.updateType name f).hasType type = true ↔ index.hasType type = true ∨ type = name := by
  rw [hasType, Entries.contains, updateType, Entries.get?_upsert]
  by_cases h : type = name
  · simp [h]
  · simp [h, hasType, Entries.contains]

theorem hasType_addTypeDocument :
    (index.addTypeDocument name document).hasType type = true
      ↔ index.hasType type = true ∨ type = name :=
  hasType_updateType _ _ _ _

theorem hasType_addMember :
    (index.addMember e).hasType type = true ↔ index.hasType type = true ∨ type = e.owner :=
  hasType_updateType _ _ _ _

theorem ownMembers_addType (parents : List TypeName) :
    (index.addType name parents).ownMembers type member = index.ownMembers type member := by
  rw [ownMembers, addType, record_updateType]
  split
  · rename_i h
    rw [h, ownMembers]
  · rfl

theorem ownMembers_addTypeDocument :
    (index.addTypeDocument name document).ownMembers type member
      = index.ownMembers type member := by
  rw [ownMembers, addTypeDocument, record_updateType]
  split
  · rename_i h
    rw [h, ownMembers]
  · rfl

theorem ownMembers_addMember :
    (index.addMember e).ownMembers type member
      = index.ownMembers type member ++ if e.owner = type ∧ e.name = member then [e] else [] := by
  rw [ownMembers, addMember, record_updateType]
  by_cases htype : type = e.owner
  · rw [if_pos htype, appendElement, Entries.get?_upsert]
    by_cases hmember : member = e.name
    · simp [htype, hmember, ownMembers]
    · simp [htype, hmember, Ne.symm hmember, ownMembers]
  · simp [htype, Ne.symm htype, ownMembers]

theorem ownMembers_addGlobal :
    (index.addGlobal e).ownMembers type member
      = index.ownMembers type member
        ++ if window = type ∧ e.name = member then [asGlobal e] else [] :=
  ownMembers_addMember _ _ _ _

theorem parents_addType (parents : List TypeName) :
    (index.addType name parents).parents type
      = addMissing (index.parents type) (if name = type then parents else []) := by
  rw [Index.parents, addType, record_updateType]
  by_cases h : type = name
  · simp [h, Index.parents]
  · simp [h, Ne.symm h, Index.parents, addMissing]

theorem parents_addTypeDocument :
    (index.addTypeDocument name document).parents type = index.parents type := by
  rw [Index.parents, addTypeDocument, record_updateType]
  split
  · rename_i h
    rw [h, Index.parents]
  · rfl

theorem parents_addMember : (index.addMember e).parents type = index.parents type := by
  rw [Index.parents, addMember, record_updateType]
  split
  · rename_i h
    rw [h, Index.parents]
  · rfl

theorem globalsOf_addGlobal :
    (index.addGlobal e).globalsOf name
      = index.globalsOf name ++ if e.name = name then [asGlobal e] else [] := by
  rw [globalsOf, addGlobal, addMember, updateType, appendElement, Entries.get?_upsert]
  by_cases h : name = e.name
  · simp [h, globalsOf, asGlobal]
  · simp [h, Ne.symm h, globalsOf]

theorem documentsOf_addModule :
    (index.addModule word document).documentsOf name
      = index.documentsOf name ++ if word = name then [document] else [] := by
  rw [documentsOf, addModule, Entries.get?_upsert]
  by_cases h : name = word
  · simp [h, documentsOf]
  · simp [h, Ne.symm h, documentsOf]

/-! ### What a whole merge does to them -/

variable (record : String × TypeRecord)

/-- The members of a record that are added to another index. -/
def mergedMembers (r : TypeRecord) : List Element := (items r.members).filter (·.owner != window)

theorem mergeType_eq :
    index.mergeType record
      = (mergedMembers record.2).foldl addMember
          (record.2.documents.foldl (fun i d => i.addTypeDocument record.1 d)
            (index.addType record.1 record.2.parents)) := rfl

theorem ownMembers_mergeType :
    (index.mergeType record).ownMembers type member
      = index.ownMembers type member
        ++ (mergedMembers record.2).flatMap fun e =>
            if e.owner = type ∧ e.name = member then [e] else [] := by
  rw [mergeType_eq,
    foldl_view_append (v := fun i => ownMembers i type member)
      (fun i e => ownMembers_addMember i type member e),
    foldl_view_eq (v := fun i => ownMembers i type member)
      (fun i d => ownMembers_addTypeDocument i type record.1 d member), ownMembers_addType]

theorem parents_mergeType :
    (index.mergeType record).parents type
      = addMissing (index.parents type) (if record.1 = type then record.2.parents else []) := by
  rw [mergeType_eq,
    foldl_view_eq (v := fun i => parents i type) (fun i e => parents_addMember i type e),
    foldl_view_eq (v := fun i => parents i type)
      (fun i d => parents_addTypeDocument i type record.1 d), parents_addType]

theorem addMissing_append (names others more : List TypeName) :
    addMissing names (others ++ more) = addMissing (addMissing names others) more :=
  List.foldl_append

/-- Of different names, those that are new are added. -/
theorem addMissing_eq {names others : List TypeName} (h : others.Nodup) :
    addMissing names others = names ++ others.filter (· ∉ names) := by
  induction others generalizing names with
  | nil => simp [addMissing]
  | cons n others ih =>
    obtain ⟨hn, hothers⟩ := List.nodup_cons.1 h
    rw [addMissing, List.foldl_cons, ← addMissing, ih hothers]
    by_cases hmem : n ∈ names
    · simp [hmem]
    · have hfilter : (others.filter fun o => o ∉ names ++ [n]) = others.filter (· ∉ names) :=
        List.filter_congr fun o ho => by
          have hne : o ≠ n := fun heq => hn (heq ▸ ho)
          simp [hne]
      have hcontains : names.contains n = false := by simpa using hmem
      rw [hcontains, if_neg (by decide), hfilter, List.filter_cons_of_pos (by simpa using hmem),
        List.append_assoc, List.singleton_append]

theorem nodup_addMissing {names : List TypeName} (h : names.Nodup) (others : List TypeName) :
    (addMissing names others).Nodup := by
  refine List.foldlRecOn others _ (motive := List.Nodup) h fun ns hns n _ => ?_
  split
  · exact hns
  · rename_i hn
    exact hns.append (List.nodup_singleton n) (List.disjoint_singleton.2 (by simpa using hn))

theorem hasType_mergeType :
    (index.mergeType record).hasType type = true
      ↔ index.hasType type = true ∨ type = record.1 ∨
        ∃ e ∈ mergedMembers record.2, type = e.owner := by
  have hdocuments : (record.2.documents.foldl (fun i d => i.addTypeDocument record.1 d)
      (index.addType record.1 record.2.parents)).hasType type = true
        ↔ index.hasType type = true ∨ type = record.1 := by
    rw [foldl_or (P := fun i => hasType i type = true)
      (fun i d => hasType_addTypeDocument i type record.1 d), addType, hasType_updateType]
    exact or_iff_left_of_imp fun ⟨_, _, h⟩ => .inr h
  rw [mergeType_eq, foldl_or (P := fun i => hasType i type = true)
    (fun i e => hasType_addMember i type e), hdocuments, or_assoc]

/-- A record changes nothing that types, their documents and members do not change. -/
theorem view_mergeType {γ : Type} {v : Index → γ}
    (htype : ∀ i name parents, v (addType i name parents) = v i)
    (hdocument : ∀ i name document, v (addTypeDocument i name document) = v i)
    (hmember : ∀ i e, v (addMember i e) = v i) : v (index.mergeType record) = v index := by
  rw [mergeType_eq, foldl_view_eq hmember, foldl_view_eq fun i d => hdocument i record.1 d, htype]

/-- The index after the globals of another one came in. -/
def mergeGlobals (other : Index) : Index :=
  (items other.globals).foldl addGlobal { index with root := other.root.or index.root }

variable (other : Index)

theorem merge_eq :
    index.merge other
      = other.modules.foldl (fun i m => m.2.foldl (fun i d => i.addModule m.1 d) i)
          (other.types.foldl mergeType (index.mergeGlobals other)) := rfl

/-- The modules of an index that is merged into another one change only the documents of modules. -/
theorem view_merge {γ : Type} {v : Index → γ}
    (h : ∀ i word document, v (addModule i word document) = v i) :
    v (index.merge other) = v (other.types.foldl mergeType (index.mergeGlobals other)) := by
  rw [merge_eq]
  refine foldl_view_eq (fun i m => ?_) _ _
  exact foldl_view_eq (fun i d => h i m.1 d) i m.2

theorem ownMembers_merge :
    (index.merge other).ownMembers type member
      = index.ownMembers type member
        ++ ((items other.globals).flatMap fun e =>
            if window = type ∧ e.name = member then [asGlobal e] else [])
        ++ other.types.flatMap fun r => (mergedMembers r.2).flatMap fun e =>
            if e.owner = type ∧ e.name = member then [e] else [] := by
  rw [view_merge (v := fun i => ownMembers i type member) _ _ fun _ _ _ => rfl,
    foldl_view_append (v := fun i => ownMembers i type member)
      (fun i r => ownMembers_mergeType i type member r), mergeGlobals,
    foldl_view_append (v := fun i => ownMembers i type member)
      (fun i e => ownMembers_addGlobal i type member e)]
  rfl

theorem parents_merge :
    (index.merge other).parents type
      = addMissing (index.parents type)
          (other.types.flatMap fun r => if r.1 = type then r.2.parents else []) := by
  rw [view_merge (v := fun i => parents i type) _ _ fun _ _ _ => rfl,
    foldl_view (v := fun i => parents i type) (fun _ => rfl) addMissing_append
      (fun i r => parents_mergeType i type r), mergeGlobals,
    foldl_view_eq (f := addGlobal) (v := fun i => parents i type)
      (fun i e => parents_addMember _ type (asGlobal e))]
  rfl

theorem hasType_merge :
    (index.merge other).hasType type = true
      ↔ (index.hasType type = true ∨ ∃ e ∈ items other.globals, type = (asGlobal e).owner) ∨
        ∃ r ∈ other.types, type = r.1 ∨ ∃ e ∈ mergedMembers r.2, type = e.owner := by
  rw [view_merge (v := fun i => hasType i type) _ _ fun _ _ _ => rfl,
    foldl_or (P := fun i => hasType i type = true) (fun i r => hasType_mergeType i type r),
    mergeGlobals, foldl_or (f := addGlobal) (P := fun i => hasType i type = true)
      (fun i e => hasType_addMember _ type (asGlobal e))]
  rfl

theorem globalsOf_merge :
    (index.merge other).globalsOf name
      = index.globalsOf name
        ++ (items other.globals).flatMap fun e => if e.name = name then [asGlobal e] else [] := by
  have htypes (i : Index) (r : String × TypeRecord) :
      (i.mergeType r).globalsOf name = i.globalsOf name :=
    view_mergeType (v := fun i => globalsOf i name) i r (fun _ _ _ => rfl) (fun _ _ _ => rfl)
      fun _ _ => rfl
  rw [view_merge (v := fun i => globalsOf i name) _ _ fun _ _ _ => rfl,
    foldl_view_eq (v := fun i => globalsOf i name) htypes, mergeGlobals,
    foldl_view_append (v := fun i => globalsOf i name)
      (fun i e => globalsOf_addGlobal i name e)]
  rfl

theorem documentsOf_merge :
    (index.merge other).documentsOf word
      = index.documentsOf word
        ++ other.modules.flatMap fun m => if m.1 = word then m.2 else [] := by
  have hmodule (i : Index) (m : String × List String) :
      (m.2.foldl (fun i d => i.addModule m.1 d) i).documentsOf word
        = i.documentsOf word ++ if m.1 = word then m.2 else [] := by
    rw [foldl_view_append (v := fun i => documentsOf i word)
      (fun i d => documentsOf_addModule i word m.1 d)]
    by_cases h : m.1 = word <;> simp [h]
  have htypes (i : Index) (r : String × TypeRecord) :
      (i.mergeType r).documentsOf word = i.documentsOf word :=
    view_mergeType (v := fun i => documentsOf i word) i r (fun _ _ _ => rfl) (fun _ _ _ => rfl)
      fun _ _ => rfl
  rw [merge_eq, foldl_view_append (v := fun i => documentsOf i word) hmodule,
    foldl_view_eq (v := fun i => documentsOf i word) htypes, mergeGlobals,
    foldl_view_eq (f := addGlobal) (v := fun i => documentsOf i word) fun _ _ => rfl]
  rfl

end Index

/-! ### Tidy indexes -/

open Entries (items names Filed)

/-- The members of a type stand under their names and belong to it, and no parent is repeated. -/
structure TypeRecord.Tidy (name : TypeName) (r : TypeRecord) : Prop where
  members : Filed Element.name r.members
  owner : ∀ e ∈ items r.members, e.owner = name
  parents : r.parents.Nodup

theorem TypeRecord.tidy_empty (name : TypeName) : TypeRecord.Tidy name {} :=
  ⟨.nil, (fun _ he => nomatch he), List.nodup_nil⟩

namespace Index

/-- The tables of an index have every name once, and every element stands under its name and its
owner. -/
structure Tidy (index : Index) : Prop where
  globals : Filed Element.name index.globals
  owner : ∀ e ∈ items index.globals, e.owner = window
  types : (names index.types).Nodup
  record : ∀ p ∈ index.types, p.2.Tidy p.1
  modules : (names index.modules).Nodup

theorem mem_items_append {e x : Element} {table : Entries (List Element)}
    (h : x ∈ items (appendElement e table)) : x ∈ items table ∨ x = e := by
  obtain ⟨p, hp, hx⟩ := List.mem_flatMap.1 h
  rcases Entries.mem_upsert hp with hp | rfl
  · exact .inl (List.mem_flatMap.2 ⟨p, hp, hx⟩)
  · rcases List.mem_append.1 hx with hx | hx
    · cases hget : Entries.get? e.name table with
      | none => simp [hget] at hx
      | some es =>
        obtain ⟨l₁, l₂, rfl, -⟩ := List.lookup_eq_some_iff.1 hget
        rw [hget] at hx
        exact .inl (List.mem_flatMap.2 ⟨(e.name, es), by simp, hx⟩)
    · exact .inr (List.mem_singleton.1 hx)

namespace Tidy

variable {index : Index}

theorem empty : Tidy .empty :=
  ⟨.nil, (fun _ he => nomatch he), List.nodup_nil, (fun _ hp => nomatch hp), List.nodup_nil⟩

theorem setRoot (h : Tidy index) (root : Option String) : Tidy { index with root } :=
  ⟨h.globals, h.owner, h.types, h.record, h.modules⟩

theorem record_tidy (h : Tidy index) (name : TypeName) : (index.record name).Tidy name := by
  rw [Index.record]
  cases hget : Entries.get? name index.types with
  | none => exact TypeRecord.tidy_empty name
  | some r =>
    obtain ⟨l₁, l₂, heq, -⟩ := List.lookup_eq_some_iff.1 hget
    exact h.record (name, r) (by simp [heq])

theorem updateType (h : Tidy index) {name : TypeName} {f : TypeRecord → TypeRecord}
    (hf : ∀ r, r.Tidy name → (f r).Tidy name) : Tidy (index.updateType name f) := by
  refine ⟨h.globals, h.owner, Entries.nodup_names_upsert h.types, fun p hp => ?_, h.modules⟩
  rcases Entries.mem_upsert hp with hp | rfl
  · exact h.record p hp
  · exact hf _ (h.record_tidy name)

theorem addType (h : Tidy index) (name : TypeName) (parents : List TypeName) :
    Tidy (index.addType name parents) := by
  refine h.updateType fun r hr => ⟨hr.members, hr.owner, nodup_addMissing hr.parents parents⟩

theorem addTypeDocument (h : Tidy index) (name document : String) :
    Tidy (index.addTypeDocument name document) :=
  h.updateType fun _ hr => ⟨hr.members, hr.owner, hr.parents⟩

theorem addMember (h : Tidy index) (e : Element) : Tidy (index.addMember e) := by
  refine h.updateType fun r hr => ⟨hr.members.append e, fun x hx => ?_, hr.parents⟩
  rcases mem_items_append hx with hx | rfl
  · exact hr.owner x hx
  · rfl

theorem addGlobal (h : Tidy index) (e : Element) : Tidy (index.addGlobal e) := by
  have hglobals : Tidy { index with globals := appendElement (asGlobal e) index.globals } := by
    refine ⟨h.globals.append (asGlobal e), fun x hx => ?_, h.types, h.record, h.modules⟩
    rcases mem_items_append hx with hx | rfl
    · exact h.owner x hx
    · rfl
  exact hglobals.addMember (asGlobal e)

theorem addModule (h : Tidy index) (word document : String) : Tidy (index.addModule word document) :=
  ⟨h.globals, h.owner, h.types, h.record, Entries.nodup_names_upsert h.modules⟩

/-- Everything is tidy after a run whose steps keep it so. -/
theorem foldl {α : Type} {step : Index → α → Index} (hstep : ∀ i a, Tidy i → Tidy (step i a))
    (h : Tidy index) (as : List α) : Tidy (as.foldl step index) :=
  List.foldlRecOn as step h fun i hi a _ => hstep i a hi

theorem merge (h : Tidy index) (other : Index) : Tidy (index.merge other) := by
  have hglobals : Tidy (index.mergeGlobals other) :=
    foldl (fun i e hi => hi.addGlobal e) (h.setRoot _) _
  have htypes : Tidy (other.types.foldl mergeType (index.mergeGlobals other)) := by
    refine foldl (fun i r hi => ?_) hglobals _
    rw [mergeType_eq]
    exact foldl (fun i e hi => hi.addMember e)
      (foldl (fun i d hi => hi.addTypeDocument r.1 d) (hi.addType r.1 r.2.parents) _) _
  rw [merge_eq]
  exact foldl (fun i m hi => foldl (fun i d hi => hi.addModule m.1 d) hi m.2) htypes _

/-! ### What a tidy index adds to another one -/

theorem asGlobal_eq (h : Tidy index) : ∀ e ∈ items index.globals, asGlobal e = e := by
  intro e he
  rw [asGlobal, ← h.owner e he]

theorem flatMap_globals (h : Tidy index) (name : String) :
    ((items index.globals).flatMap fun e => if e.name = name then [asGlobal e] else [])
      = index.globalsOf name := by
  rw [globalsOf, ← h.globals.flatMap_items name]
  exact List.flatMap_congr fun e he => by rw [h.asGlobal_eq e he]

/-- The members of a type that come in with it: all but those of the window. -/
theorem mergedMembers_eq {p : String × TypeRecord} (h : p.2.Tidy p.1) :
    mergedMembers p.2 = if p.1 = window then [] else items p.2.members := by
  split
  · rename_i hwindow
    exact List.filter_eq_nil_iff.2 fun e he => by simp [h.owner e he, hwindow]
  · rename_i hwindow
    exact List.filter_eq_self.2 fun e he => by simpa [h.owner e he] using hwindow

theorem flatMap_members (h : Tidy index) (type : TypeName) (member : String) :
    (index.types.flatMap fun p => (mergedMembers p.2).flatMap fun e =>
        if e.owner = type ∧ e.name = member then [e] else [])
      = if type = window then [] else index.ownMembers type member := by
  have hentry : ∀ p ∈ index.types, ((mergedMembers p.2).flatMap fun e =>
      if e.owner = type ∧ e.name = member then [e] else [])
        = if p.1 = type then
            if type = window then [] else (Entries.get? member p.2.members).getD []
          else [] := by
    intro p hp
    have htidy := h.record p hp
    rw [mergedMembers_eq htidy]
    by_cases htype : p.1 = type
    · by_cases hwindow : type = window
      · simp [htype, hwindow]
      · rw [if_neg (htype ▸ hwindow), if_pos htype, if_neg hwindow,
          ← htidy.members.flatMap_items member]
        exact List.flatMap_congr fun e he => by simp [htidy.owner e he, htype]
    · rw [if_neg htype]
      refine List.flatMap_eq_nil_iff.2 fun e he => if_neg fun hand => htype ?_
      split at he
      · cases he
      · exact (htidy.owner e he).symm.trans hand.1
  rw [List.flatMap_congr hentry, Entries.flatMap_of_name h.types type fun r =>
    if type = window then [] else (Entries.get? member r.members).getD [], ownMembers, Index.record]
  cases Entries.get? type index.types with
  | none => simp [Entries.get?]
  | some r => rfl

theorem flatMap_parents (h : Tidy index) (type : TypeName) :
    (index.types.flatMap fun p => if p.1 = type then p.2.parents else []) = index.parents type := by
  rw [Entries.flatMap_of_name h.types type TypeRecord.parents, Index.parents, Index.record]
  cases Entries.get? type index.types <;> rfl

theorem flatMap_documents (h : Tidy index) (word : String) :
    (index.modules.flatMap fun m => if m.1 = word then m.2 else []) = index.documentsOf word := by
  have hdocuments := Entries.flatMap_of_name h.modules word id
  rwa [Option.map_id_apply] at hdocuments

end Tidy

section Merge

variable {index other : Index}

theorem hasType_of_mem {p : String × TypeRecord} (h : p ∈ index.types) :
    index.hasType p.1 = true :=
  Entries.contains_of_mem_names (List.mem_map_of_mem h)

theorem exists_mem_of_hasType {type : TypeName} (h : index.hasType type = true) :
    ∃ p ∈ index.types, p.1 = type := by
  obtain ⟨r, hr⟩ := Option.isSome_iff_exists.1 h
  exact List.mem_map.1 (Entries.mem_names_of_get? hr)

theorem hasType_of_mem_ownMembers {type : TypeName} {member : String} {e : Element}
    (h : e ∈ index.ownMembers type member) : index.hasType type = true := by
  rw [ownMembers, record] at h
  rw [hasType, Entries.contains]
  cases hget : Entries.get? type index.types with
  | none =>
    rw [hget] at h
    cases h
  | some r => rfl

end Merge

/-! ### Indexes that are built up -/

/-- The indexes that are built up by additions and merges, with members that satisfy `p`. -/
inductive BuiltWith (p : Element → Prop) : Index → Prop
  | empty : BuiltWith p .empty
  | setRoot {i : Index} (h : BuiltWith p i) (root : String) : BuiltWith p (i.setRoot root)
  | addType {i : Index} (h : BuiltWith p i) (name : TypeName) (parents : List TypeName) :
    BuiltWith p (i.addType name parents)
  | addTypeDocument {i : Index} (h : BuiltWith p i) (name document : String) :
    BuiltWith p (i.addTypeDocument name document)
  | addMember {i : Index} (h : BuiltWith p i) (e : Element) (he : p e) :
    BuiltWith p (i.addMember e)
  | addGlobal {i : Index} (h : BuiltWith p i) (e : Element) : BuiltWith p (i.addGlobal e)
  | addModule {i : Index} (h : BuiltWith p i) (word document : String) :
    BuiltWith p (i.addModule word document)
  | merge {i j : Index} (hi : BuiltWith p i) (hj : BuiltWith p j) : BuiltWith p (i.merge j)

/-- The indexes that are built up by additions and merges. -/
abbrev Built : Index → Prop := BuiltWith fun _ => True

theorem BuiltWith.tidy {p : Element → Prop} {index : Index} (h : BuiltWith p index) :
    Tidy index := by
  induction h with
  | empty => exact .empty
  | setRoot _ root ih => exact ih.setRoot (some root)
  | addType _ name parents ih => exact ih.addType name parents
  | addTypeDocument _ name document ih => exact ih.addTypeDocument name document
  | addMember _ e _ ih => exact ih.addMember e
  | addGlobal _ e ih => exact ih.addGlobal e
  | addModule _ word document ih => exact ih.addModule word document
  | merge _ _ ih _ => exact ih.merge _

namespace BuiltWith

variable {p : Element → Prop} {a b index : Index}

theorem ownMembers_merge (hb : BuiltWith p b) (type : TypeName) (member : String) :
    (a.merge b).ownMembers type member
      = a.ownMembers type member
        ++ if type = window then b.globalsOf member else b.ownMembers type member := by
  rw [Index.ownMembers_merge, hb.tidy.flatMap_members]
  by_cases h : type = window
  · simp only [h, true_and, if_true, hb.tidy.flatMap_globals, List.append_nil]
  · have hnil : ((items b.globals).flatMap fun e =>
        if window = type ∧ e.name = member then [asGlobal e] else []) = [] :=
      List.flatMap_eq_nil_iff.2 fun e _ => if_neg fun hand => h hand.1.symm
    rw [hnil, List.append_nil, if_neg h, if_neg h]

theorem globalsOf_merge (hb : BuiltWith p b) (name : String) :
    (a.merge b).globalsOf name = a.globalsOf name ++ b.globalsOf name := by
  rw [Index.globalsOf_merge, hb.tidy.flatMap_globals]

/-- Globals are members of the window. -/
theorem globalsOf_sublist (h : BuiltWith p index) (name : String) :
    (index.globalsOf name).Sublist (index.ownMembers window name) := by
  induction h with
  | empty => exact .slnil
  | setRoot _ root ih => exact ih
  | addType _ type parents ih => rwa [ownMembers_addType]
  | addTypeDocument _ type document ih => rwa [ownMembers_addTypeDocument]
  | addMember _ e _ ih =>
    rw [ownMembers_addMember]
    exact ih.trans (List.sublist_append_left _ _)
  | addGlobal _ e ih =>
    rw [ownMembers_addGlobal, globalsOf_addGlobal]
    simpa only [true_and] using ih.append (List.Sublist.refl _)
  | addModule _ word document ih => exact ih
  | merge _ hj ih _ =>
    rw [hj.ownMembers_merge, hj.globalsOf_merge, if_pos rfl]
    exact ih.append (List.Sublist.refl _)

/-- The window has only globals if no member is declared there. -/
theorem ownMembers_window (h : BuiltWith (·.owner ≠ window) index) (member : String) :
    index.ownMembers window member = index.globalsOf member := by
  induction h with
  | empty => rfl
  | setRoot _ root ih => exact ih
  | addType _ type parents ih => rwa [ownMembers_addType]
  | addTypeDocument _ type document ih => rwa [ownMembers_addTypeDocument]
  | addMember _ e he ih =>
    rw [ownMembers_addMember, if_neg fun hand => he hand.1, List.append_nil]
    exact ih
  | addGlobal _ e ih =>
    rw [ownMembers_addGlobal, globalsOf_addGlobal, ih]
    simp only [true_and]
  | addModule _ word document ih => exact ih
  | merge _ hj ih _ => rw [hj.ownMembers_merge, hj.globalsOf_merge, if_pos rfl, ih]

theorem parents_merge (hb : BuiltWith p b) (type : TypeName) :
    (a.merge b).parents type
      = a.parents type ++ (b.parents type).filter (· ∉ a.parents type) := by
  rw [Index.parents_merge, hb.tidy.flatMap_parents]
  exact addMissing_eq (hb.tidy.record_tidy type).parents

theorem hasType_merge (hb : BuiltWith p b) (type : TypeName) :
    (a.merge b).hasType type = true ↔ a.hasType type = true ∨ b.hasType type = true := by
  have hglobal : ∀ e ∈ items b.globals, b.hasType window = true := by
    intro e he
    have hname : e ∈ b.globalsOf e.name := by
      rw [globalsOf, ← hb.tidy.globals.flatMap_items]
      exact List.mem_flatMap.2 ⟨e, he, by simp⟩
    exact hasType_of_mem_ownMembers ((hb.globalsOf_sublist e.name).subset hname)
  rw [Index.hasType_merge, or_assoc]
  refine or_congr_right ⟨?_, fun h => ?_⟩
  · rintro (⟨e, he, rfl⟩ | ⟨r, hr, rfl | ⟨e, he, rfl⟩⟩)
    · exact hglobal e he
    · exact hasType_of_mem hr
    · rw [(hb.tidy.record r hr).owner e (List.mem_of_mem_filter he)]
      exact hasType_of_mem hr
  · obtain ⟨r, hr, rfl⟩ := exists_mem_of_hasType h
    exact .inr ⟨r, hr, .inl rfl⟩

theorem documentsOf_merge (hb : BuiltWith p b) (word : String) :
    (a.merge b).documentsOf word = a.documentsOf word ++ b.documentsOf word := by
  rw [Index.documentsOf_merge, hb.tidy.flatMap_documents]

end BuiltWith

/-- A merged index has what both indexes have: members, parents, types, globals and the documents of
modules, those of the first index in front. Only the window gets no more than the globals of the
second index; this is all that it has there, exactly if none of its members was declared in the
window without being a global. -/
theorem merge_keeps_both {a b : Index} (hb : Built b) :
    (∀ type member, type ≠ window →
      (a.merge b).ownMembers type member
        = a.ownMembers type member ++ b.ownMembers type member) ∧
    (∀ member, (a.merge b).ownMembers window member
        = a.ownMembers window member ++ b.globalsOf member) ∧
    ((∀ member, (a.merge b).ownMembers window member
          = a.ownMembers window member ++ b.ownMembers window member)
        ↔ ∀ member, b.ownMembers window member = b.globalsOf member) ∧
    (BuiltWith (·.owner ≠ window) b →
      ∀ member, b.ownMembers window member = b.globalsOf member) ∧
    (∀ type, (a.merge b).parents type
        = a.parents type ++ (b.parents type).filter (· ∉ a.parents type)) ∧
    (∀ type, (a.merge b).hasType type = true ↔ a.hasType type = true ∨ b.hasType type = true) ∧
    (∀ name, (a.merge b).globalsOf name = a.globalsOf name ++ b.globalsOf name) ∧
    ∀ word, (a.merge b).documentsOf word = a.documentsOf word ++ b.documentsOf word := by
  have hwindow (member : String) : (a.merge b).ownMembers window member
      = a.ownMembers window member ++ b.globalsOf member := by
    rw [hb.ownMembers_merge, if_pos rfl]
  refine ⟨fun type member h => by rw [hb.ownMembers_merge, if_neg h], hwindow, ?_,
    BuiltWith.ownMembers_window, hb.parents_merge, hb.hasType_merge, hb.globalsOf_merge,
    hb.documentsOf_merge⟩
  refine forall_congr' fun member => ?_
  rw [hwindow, List.append_cancel_left_eq, eq_comm]

/-- A project's index with a global and a member, merged into one that knows arrays. -/
theorem merge_keeps_global_and_length :
    ∃ a b : Index, Built b ∧ b.hasType "Array" = true ∧
      (a.merge b).ownMembers "Array" "length"
        = a.ownMembers "Array" "length" ++ b.ownMembers "Array" "length" ∧
      (a.merge b).ownMembers "Array" "length" = [
        { name := "length", owner := "Array", types := ["Number"] },
        { name := "length", owner := "Array", types := ["Object"] }] ∧
      (a.merge b).ownMembers "Window" "status"
        = [{ name := "status", owner := "Window", types := ["String"] }] ∧
      (a.merge b).parents "Array" = ["Object", "Iterable"] := by
  let a := (empty.addType "Array" ["Object"]).addMember
    { name := "length", owner := "Array", types := ["Number"] }
  let b := ((empty.addGlobal { name := "status", types := ["String"] }).addType "Array"
    ["Iterable", "Object"]).addMember { name := "length", owner := "Array", types := ["Object"] }
  have hb : Built b := ((BuiltWith.empty.addGlobal _).addType _ _).addMember _ trivial
  obtain ⟨hmembers, hwindow, -, -, hparents, -⟩ := merge_keeps_both (a := a) hb
  have hlength := hmembers "Array" "length" (by decide)
  refine ⟨a, b, hb, by decide, hlength, hlength.trans (by decide), ?_, ?_⟩
  · exact (hwindow "status").trans (by decide)
  · exact (hparents "Array").trans (by decide)

/-- A member that is declared in the window without being a global is lost. -/
theorem merge_loses_window_member :
    Built (empty.addMember { name := "status", owner := "Window", types := ["String"] }) ∧
    (empty.addMember { name := "status", owner := "Window", types := ["String"] }).ownMembers
      "Window" "status" = [{ name := "status", owner := "Window", types := ["String"] }] ∧
    (empty.merge (empty.addMember
        { name := "status", owner := "Window", types := ["String"] })).ownMembers
      "Window" "status" = [] :=
  ⟨BuiltWith.empty.addMember _ trivial, by decide, by decide⟩

end Index

end ScriptTypes
