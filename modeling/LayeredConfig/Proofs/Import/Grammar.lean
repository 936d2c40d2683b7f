import LayeredConfig.Proofs.Import.ReservedKey
import Mathlib.Data.List.Perm.Basic

/-!
# The grammar of the list of imports

How imports are written under their key, said without reading anything: `ImportEntry.WrittenAs` for
one item of the list, and `ListedBy` for the whole value. `Tree.takeImports_exact` is that the list
is taken out of a document exactly when it is written like this. The imports are then those written
there, in their order, and the document keeps all its other entries in their order. Any other list
is a fault of the document.

The fields of a mapping may stand in any order. Reading them goes through the entries once and fills
each field once at most; `ImportEntry.readFields?_eq_some_iff` says what that comes to for the
mapping as a whole.
-/

namespace LayeredConfig

theorem Value.itemsHaveTag_eq_false_iff {items : List Value} :
    Value.itemsHaveTag items = false ↔ ∀ v ∈ items, v.hasTag = false := by
  induction items with
  | nil => simp [Value.itemsHaveTag]
  | cons v r ih => simp [Value.itemsHaveTag, ih]

theorem Value.strings?_eq_some_iff {items : List Value} {texts : List String} :
    Value.strings? items = some texts ↔ items = texts.map Value.string := by
  induction items generalizing texts with
  | nil => cases texts <;> simp [Value.strings?]
  | cons v r ih =>
    cases v with
    | string s => cases texts <;> simp [Value.strings?, ih, and_comm]
    | null | bool _ | int _ | float _ | sequence _ | mapping _ | tagged _ _ =>
      cases texts <;> simp [Value.strings?]

namespace ImportEntry

variable {e e' : ImportEntry} {k v : Value} {entries r : List (Value × Value)} {acc f : Fields}
  {name : String}

/-! ### The fields of a mapping -/

/-- How excluded keys are written. -/
def excludeValue (paths : List String) : Value :=
  .sequence (paths.map .string)

/-- The entries that bring a field from one value to another: none, which leaves it as it is, or
one under a key of the field, if it has no value yet. -/
inductive Gives {α : Type} (isField : Value → Bool) (write : α → Value) :
    Option α → Option α → List (Value × Value) → Prop
  | nothing (a : Option α) : Gives isField write a a []
  | entry (k : Value) (a : α) (hk : isField k = true) :
    Gives isField write none (some a) [(k, write a)]

theorem isPathField_of_isExcludeField (h : isExcludeField k = true) : isPathField k = false := by
  rw [isExcludeField, Bool.or_eq_true, decide_eq_true_eq, decide_eq_true_eq] at h
  rcases h with rfl | rfl <;> rfl

theorem sequence_eq_excludeValue_iff {items : List Value} {paths : List String} :
    .sequence items = excludeValue paths ↔ Value.strings? items = some paths := by
  rw [Value.strings?_eq_some_iff, excludeValue, Value.sequence.injEq]

/-- An entry under a key of the path gives the path, if there is none yet. -/
theorem readFields?_cons_of_isPathField (hk : isPathField k = true) :
    readFields? acc ((k, v) :: r) = some f ↔
      ∃ s, acc.path = none ∧ v = .string s ∧ readFields? ⟨some s, acc.exclude⟩ r = some f := by
  obtain ⟨path, exclude⟩ := acc
  conv_lhs => unfold readFields?
  rw [if_pos hk]
  cases path <;> cases v <;> simp

/-- An entry under a key of the excluded keys gives them, if there are none yet. -/
theorem readFields?_cons_of_isExcludeField (hk : isExcludeField k = true) :
    readFields? acc ((k, v) :: r) = some f ↔ ∃ paths, acc.exclude = none ∧
      v = excludeValue paths ∧ readFields? ⟨acc.path, some paths⟩ r = some f := by
  obtain ⟨path, exclude⟩ := acc
  conv_lhs => unfold readFields?
  rw [isPathField_of_isExcludeField hk, if_neg Bool.false_ne_true, if_pos hk]
  cases exclude with
  | some paths => simp
  | none =>
    cases v with
    | sequence items =>
      simp only [sequence_eq_excludeValue_iff]
      cases Value.strings? items <;> simp
    | null | bool _ | int _ | float _ | string _ | mapping _ | tagged _ _ => simp [excludeValue]

/-- There is no entry under any other key. -/
theorem readFields?_cons_of_not_isField (hpath : isPathField k = false)
    (hexclude : isExcludeField k = false) : readFields? acc ((k, v) :: r) = none := by
  unfold readFields?
  rw [hpath, hexclude]
  rfl

/-- What is read is given by the entries, and by each of them something. -/
theorem exists_gives_of_readFields? (h : readFields? acc entries = some f) :
    ∃ forPath forExclude, entries.Perm (forPath ++ forExclude) ∧
      Gives isPathField .string acc.path f.path forPath ∧
      Gives isExcludeField excludeValue acc.exclude f.exclude forExclude := by
  obtain ⟨path', exclude'⟩ := f
  induction entries generalizing acc with
  | nil =>
    obtain ⟨rfl⟩ := h
    exact ⟨[], [], List.Perm.refl _, .nothing _, .nothing _⟩
  | cons e r ih =>
    obtain ⟨k, v⟩ := e
    obtain ⟨path, exclude⟩ := acc
    by_cases hpathField : isPathField k = true
    · obtain ⟨s, hnone, rfl, hr⟩ := (readFields?_cons_of_isPathField hpathField).1 h
      obtain rfl : path = none := hnone
      obtain ⟨forPath, forExclude, hperm, hpath, hexclude⟩ := ih hr
      -- The path is given, so no later entry gives it.
      cases hpath
      exact ⟨[(k, .string s)], forExclude, hperm.cons _, .entry k s hpathField, hexclude⟩
    by_cases hexcludeField : isExcludeField k = true
    · obtain ⟨paths, hnone, rfl, hr⟩ := (readFields?_cons_of_isExcludeField hexcludeField).1 h
      obtain rfl : exclude = none := hnone
      obtain ⟨forPath, forExclude, hperm, hpath, hexclude⟩ := ih hr
      cases hexclude
      rw [List.append_nil] at hperm
      exact ⟨forPath, [(k, excludeValue paths)],
        (hperm.cons _).trans (List.perm_append_singleton _ _).symm, hpath,
        .entry k paths hexcludeField⟩
    rw [readFields?_cons_of_not_isField (Bool.eq_false_iff.2 hpathField)
      (Bool.eq_false_iff.2 hexcludeField)] at h
    cases h

/-- Entries that give the fields are read, in any order. -/
theorem readFields?_of_gives {forPath forExclude : List (Value × Value)}
    (hperm : entries.Perm (forPath ++ forExclude))
    (hpath : Gives isPathField .string acc.path f.path forPath)
    (hexclude : Gives isExcludeField excludeValue acc.exclude f.exclude forExclude) :
    readFields? acc entries = some f := by
  obtain ⟨path', exclude'⟩ := f
  induction entries generalizing acc forPath forExclude with
  | nil =>
    obtain ⟨path, exclude⟩ := acc
    obtain ⟨rfl, rfl⟩ := List.append_eq_nil_iff.1 hperm.symm.eq_nil
    cases hpath
    cases hexclude
    rfl
  | cons e r ih =>
    obtain ⟨k, v⟩ := e
    obtain ⟨path, exclude⟩ := acc
    rcases List.mem_append.1 (hperm.subset List.mem_cons_self) with hmem | hmem
    · cases hpath with
      | nothing => cases hmem
      | entry k' s hk =>
        obtain ⟨rfl, rfl⟩ := Prod.mk.inj (List.mem_singleton.1 hmem)
        have hr : readFields? ⟨some s, exclude⟩ r = some ⟨some s, exclude'⟩ :=
          ih hperm.cons_inv (.nothing _) hexclude
        exact (readFields?_cons_of_isPathField hk).2 ⟨s, rfl, rfl, hr⟩
    · cases hexclude with
      | nothing => cases hmem
      | entry k' paths hk =>
        obtain ⟨rfl, rfl⟩ := Prod.mk.inj (List.mem_singleton.1 hmem)
        have hperm : r.Perm (forPath ++ []) := by
          rw [List.append_nil]
          exact (hperm.trans (List.perm_append_singleton _ _)).cons_inv
        have hr : readFields? ⟨path, some paths⟩ r = some ⟨path', some paths⟩ :=
          ih hperm hpath (.nothing _)
        exact (readFields?_cons_of_isExcludeField hk).2 ⟨paths, rfl, rfl, hr⟩

/-- **The fields that are read** are those that an entry gives, each one at most and in any order,
if there is no other entry. -/
theorem readFields?_eq_some_iff : readFields? acc entries = some f ↔
    ∃ forPath forExclude, entries.Perm (forPath ++ forExclude) ∧
      Gives isPathField .string acc.path f.path forPath ∧
      Gives isExcludeField excludeValue acc.exclude f.exclude forExclude :=
  ⟨exists_gives_of_readFields?, fun ⟨_, _, hperm, hpath, hexclude⟩ ↦
    readFields?_of_gives hperm hpath hexclude⟩

/-! ### Items -/

/-- The names of the path in a mapping. -/
def pathNames : List String :=
  ["path", "resource"]

/-- The name of the excluded keys in a mapping. -/
def excludeName : String := "exclude"

/-- How an import is written as an item of the list. -/
inductive WrittenAs : ImportEntry → Value → Prop
  /-- The path alone. -/
  | path (path : String) : WrittenAs ⟨path, []⟩ (.string path)
  /-- A mapping of the path, under one of its names. -/
  | mapping {path name : String} {entries : List (Value × Value)} (hname : name ∈ pathNames)
      (hentries : entries.Perm [(.string name, .string path)]) :
      WrittenAs ⟨path, []⟩ (.mapping entries)
  /-- A mapping of the path and the excluded keys, in any order. -/
  | excludingMapping {path name : String} {paths : List String} {entries : List (Value × Value)}
      (hname : name ∈ pathNames) (hentries : entries.Perm
        [(.string name, .string path), (.string excludeName, excludeValue paths)]) :
      WrittenAs ⟨path, paths⟩ (.mapping entries)
  /-- A sequence of the path. -/
  | sequence (path : String) : WrittenAs ⟨path, []⟩ (.sequence [.string path])
  /-- A sequence of the path and the excluded keys. -/
  | excludingSequence (path : String) (paths : List String) :
      WrittenAs ⟨path, paths⟩ (.sequence [.string path, excludeValue paths])

theorem isPathField_string_iff : isPathField (.string name) = true ↔ name ∈ pathNames := by
  simp [isPathField, pathNames]

theorem isExcludeField_string_iff :
    isExcludeField (.string name) = true ↔ name = excludeName := by
  simp [isExcludeField, excludeName]

/-- A mapping is read as an entry if it has the field of the path. -/
theorem ofUntagged?_mapping_iff_readFields? : ofUntagged? (.mapping entries) = some e ↔
    ∃ excluded, readFields? ⟨none, none⟩ entries = some ⟨some e.path, excluded⟩ ∧
      e.exclude = excluded.getD [] := by
  obtain ⟨path, paths⟩ := e
  cases hread : readFields? ⟨none, none⟩ entries with
  | none => simp [ofUntagged?, hread]
  | some f =>
    obtain ⟨given, excluded⟩ := f
    cases given <;> simp [ofUntagged?, hread, eq_comm]

/-- A mapping whose keys are strings is read as an entry exactly when it is written as one. -/
theorem ofUntagged?_mapping_eq_some_iff (hkeys : ∀ c ∈ entries, ∃ name, c.1 = .string name) :
    ofUntagged? (.mapping entries) = some e ↔ e.WrittenAs (.mapping entries) := by
  rw [ofUntagged?_mapping_iff_readFields?]
  constructor
  · rintro ⟨excluded, hread, hexcluded⟩
    obtain ⟨forPath, forExclude, hperm, hpath, hexclude⟩ := readFields?_eq_some_iff.1 hread
    obtain ⟨path, paths⟩ := e
    cases hpath with
    | entry k _ hk =>
      obtain ⟨name, rfl⟩ : ∃ name, k = .string name :=
        hkeys (k, .string path) (hperm.symm.subset List.mem_cons_self)
      have hname : name ∈ pathNames := isPathField_string_iff.1 hk
      cases hexclude with
      | nothing =>
        obtain rfl : paths = [] := hexcluded
        exact .mapping hname hperm
      | entry k' paths' hk' =>
        obtain rfl : paths = paths' := hexcluded
        obtain ⟨name', rfl⟩ : ∃ name, k' = .string name :=
          hkeys (k', excludeValue paths) (hperm.symm.subset (by simp))
        obtain rfl : name' = excludeName := isExcludeField_string_iff.1 hk'
        exact .excludingMapping hname hperm
  · rintro (_ | ⟨hname, hentries⟩ | ⟨hname, hentries⟩)
    · have hk := isPathField_string_iff.2 hname
      exact ⟨none, readFields?_eq_some_iff.2 ⟨[_], [], hentries, .entry _ _ hk, .nothing _⟩, rfl⟩
    · have hk := isPathField_string_iff.2 hname
      have hk' := isExcludeField_string_iff.2 rfl
      exact ⟨some _, readFields?_eq_some_iff.2
        ⟨[_], [_], hentries, .entry _ _ hk, .entry _ _ hk'⟩, rfl⟩

/-- **An item is read exactly when it is written as an import**, if it has no tag and, as a mapping,
no other keys than strings. -/
theorem ofUntagged?_eq_some_iff
    (hkeys : ∀ entries, v = .mapping entries → ∀ c ∈ entries, ∃ name, c.1 = .string name) :
    ofUntagged? v = some e ↔ e.WrittenAs v := by
  cases v with
  | string path =>
    constructor
    · rintro ⟨⟩
      exact .path path
    · rintro ⟨⟩
      rfl
  | sequence items =>
    constructor
    · intro h
      unfold ofUntagged? at h
      split at h
      · rename_i heq
        cases heq
      · rename_i path heq
        obtain rfl := Value.sequence.inj heq
        obtain rfl := Option.some.inj h
        exact .sequence path
      · rename_i path items' heq
        obtain rfl := Value.sequence.inj heq
        obtain ⟨paths, hpaths, rfl⟩ := Option.map_eq_some_iff.1 h
        rw [sequence_eq_excludeValue_iff.2 hpaths]
        exact .excludingSequence path paths
      · rename_i heq
        cases heq
      · cases h
    · rintro (_ | _ | _ | _ | ⟨path, paths⟩)
      · rfl
      · rw [excludeValue, ofUntagged?, Value.strings?_eq_some_iff.2 rfl]
        rfl
  | mapping entries => exact ofUntagged?_mapping_eq_some_iff (hkeys entries rfl)
  | null | bool _ | int _ | float _ | tagged _ _ => exact ⟨nofun, nofun⟩

theorem ofItem_eq_ok_iff (htag : v.hasTag = false)
    (hkeys : ∀ entries, v = .mapping entries → ∀ c ∈ entries, ∃ name, c.1 = .string name) :
    ofItem v = .ok e ↔ e.WrittenAs v := by
  rw [← ofUntagged?_eq_some_iff hkeys, ofItem, htag, if_neg Bool.false_ne_true]
  cases ofUntagged? v <;> simp

/-! ### The list -/

/-- The imports that the value of the key lists, one for each item. Without the key there are none.
-/
inductive ListedBy : List ImportEntry → Option Value → Prop
  /-- There is no key. -/
  | absent : ListedBy [] none
  /-- The key has no value. -/
  | null : ListedBy [] (some .null)
  /-- A path alone. -/
  | path {path : String} (hpath : Text.isAllBlank path = false) :
      ListedBy [⟨path, []⟩] (some (.string path))
  /-- A sequence of items. -/
  | items {items : List Value} {imports : List ImportEntry}
      (hitems : List.Forall₂ (fun v (e : ImportEntry) ↦ e.WrittenAs v) items imports)
      (hpaths : ∀ e ∈ imports, Text.isAllBlank e.path = false) :
      ListedBy imports (some (.sequence items))

variable {imports : List ImportEntry} {items : List Value}

theorem checkPath_eq_ok_iff :
    checkPath e = .ok e' ↔ Text.isAllBlank e.path = false ∧ e = e' := by
  rw [checkPath]
  cases Text.isAllBlank e.path <;> simp

theorem mapM_checkPath_eq_ok_iff {read : List ImportEntry} : read.mapM checkPath = .ok imports ↔
    (∀ e ∈ read, Text.isAllBlank e.path = false) ∧ read = imports := by
  simp only [mapM_eq_ok_iff, checkPath_eq_ok_iff, List.forall₂_and_left, List.forall₂_eq_eq_eq]

theorem mapM_ofItem_eq_ok_iff (htags : ∀ v ∈ items, v.hasTag = false)
    (hkeys : ∀ entries, .mapping entries ∈ items → ∀ c ∈ entries, ∃ name, c.1 = .string name) :
    items.mapM ofItem = .ok imports ↔ List.Forall₂ (fun v e ↦ WrittenAs e v) items imports := by
  have hitem (v : Value) (hv : v ∈ items) (e : ImportEntry) : ofItem v = .ok e ↔ e.WrittenAs v :=
    ofItem_eq_ok_iff (htags v hv) fun entries hentries ↦ hkeys entries (hentries ▸ hv)
  rw [mapM_eq_ok_iff]
  constructor
  · intro h
    refine ((List.forall₂_and_left _ _).2 ⟨fun _ ↦ id, h⟩).imp fun v e hve ↦ ?_
    exact (hitem v hve.1 e).1 hve.2
  · intro h
    refine ((List.forall₂_and_left _ _).2 ⟨fun _ ↦ id, h⟩).imp fun v e hve ↦ ?_
    exact (hitem v hve.1 e).2 hve.2

/-- **A value is read as a list of imports exactly when it lists them.** -/
theorem ofList_eq_ok_iff (htag : v.hasTag = false)
    (hkeys : ∀ items entries, v = .sequence items → .mapping entries ∈ items →
      ∀ c ∈ entries, ∃ name, c.1 = .string name) :
    ofList v = .ok imports ↔ ListedBy imports (some v) := by
  cases v with
  | null =>
    constructor
    · rintro ⟨⟩
      exact .null
    · rintro ⟨⟩
      rfl
  | string path =>
    rw [ofList, bind_eq_ok_iff]
    simp only [checkPath_eq_ok_iff]
    constructor
    · rintro ⟨_, ⟨hpath, rfl⟩, h⟩
      obtain rfl := Except.ok.inj h
      exact .path hpath
    · rintro (_ | _ | hpath)
      exact ⟨_, ⟨hpath, rfl⟩, rfl⟩
  | sequence items =>
    rw [Value.hasTag, Value.itemsHaveTag_eq_false_iff] at htag
    rw [ofList, bind_eq_ok_iff]
    simp only [mapM_ofItem_eq_ok_iff htag fun entries ↦ hkeys items entries rfl,
      mapM_checkPath_eq_ok_iff]
    constructor
    · rintro ⟨_, hitems, hpaths, rfl⟩
      exact .items hitems hpaths
    · rintro (_ | _ | _ | ⟨hitems, hpaths⟩)
      exact ⟨_, hitems, hpaths, rfl⟩
  | bool _ | int _ | float _ | mapping _ | tagged _ _ => exact ⟨nofun, nofun⟩

end ImportEntry

namespace Tree

variable {t own : Tree} {imports : List ImportEntry}

/-- What is taken out of a document is what the value of the key is read as. -/
theorem takeImports_eq_ok_iff : t.takeImports = .ok (imports, own) ↔
    (t.find? (.string importsKey) = none ∧ imports = [] ∨
      ∃ v, t.find? (.string importsKey) = some v ∧ ImportEntry.ofList v = .ok imports) ∧
    own = t.erase (.string importsKey) := by
  rw [takeImports]
  cases hfind : t.find? (.string importsKey) with
  | none => simp [erase_of_find?_eq_none hfind, eq_comm]
  | some v =>
    rw [bind_eq_ok_iff]
    simp [eq_comm]

/-- **Imports are taken out of a document exactly when they are listed there**, if the list has no
tags and its items no other keys than strings: one import for each item, in order, with its path and
its excluded keys. All other entries of the document are left, in order. A list of any other form is
a fault, with which the document is refused. The default layer is imported under one path alone. -/
theorem takeImports_exact (ht : t.WellFormed)
    (htags : ∀ v, t.find? (.string importsKey) = some v → v.hasTag = false)
    (hkeys : ∀ items entries, t.find? (.string importsKey) = some (.sequence items) →
      .mapping entries ∈ items → ∀ e ∈ entries, ∃ name, e.1 = .string name) :
    (∀ imports own, t.takeImports = .ok (imports, own) ↔
      ImportEntry.ListedBy imports (t.find? (.string importsKey)) ∧
        own = t.filter fun e ↦ e.1 ≠ .string importsKey) ∧
    ((¬∃ imports, ImportEntry.ListedBy imports (t.find? (.string importsKey))) →
      ∃ fault, t.takeImports = .error fault ∧ ∀ path text, Document.parse path text = .ok t →
        Sources.readDocument path text = .error (.invalidImport path fault.reason)) ∧
    ∀ e : ImportEntry, e.isDefault = true ↔ e.path = "@default" := by
  have htaken (imports : List ImportEntry) (own : Tree) : t.takeImports = .ok (imports, own) ↔
      ImportEntry.ListedBy imports (t.find? (.string importsKey)) ∧
        own = t.filter fun e ↦ e.1 ≠ .string importsKey := by
    rw [takeImports_eq_ok_iff, erase_string_eq_filter ht]
    refine and_congr_left fun _ ↦ ?_
    cases hfind : t.find? (.string importsKey) with
    | none =>
      constructor
      · rintro (⟨-, rfl⟩ | ⟨v, hv, -⟩)
        · exact .absent
        · cases hv
      · rintro ⟨⟩
        exact Or.inl ⟨rfl, rfl⟩
    | some v =>
      have hlisted : ImportEntry.ofList v = .ok imports ↔ ImportEntry.ListedBy imports (some v) :=
        ImportEntry.ofList_eq_ok_iff (htags v hfind) fun items entries hv ↦
          hkeys items entries (hv ▸ hfind)
      simp [hlisted]
  refine ⟨htaken, fun hnone ↦ ?_, fun e ↦ beq_iff_eq⟩
  cases htake : t.takeImports with
  | ok taken =>
    obtain ⟨imports, own⟩ := taken
    exact absurd ⟨imports, ((htaken imports own).1 htake).1⟩ hnone
  | error fault =>
    refine ⟨fault, rfl, fun path text hparse ↦ ?_⟩
    rw [Sources.readDocument, hparse, ok_bind, htake]

/-- Imports in several forms. -/
def manifoldItems : List Value :=
  [.string "base.yaml",
    .mapping [(.string "exclude", .sequence [.string "log", .string "db.host"]),
      (.string "path", .string "@default")],
    .mapping [(.string "resource", .string "old.yaml")],
    .sequence [.string "a.yaml", .sequence [.string "b"]]]

/-- A document that lists them between its own keys. -/
def manifoldDocument : Tree :=
  [(.string "name", .string "site"), (.string "imports", .sequence manifoldItems), (.int 1, .null)]

/-- A document that lists a blank path. -/
def blankDocument : Tree :=
  [(.string "imports", .sequence [.string " "])]

/-- All forms are read, and what is around the list is left. A blank path is refused. -/
theorem takeImports_exact_manifold :
    manifoldDocument.WellFormed ∧ blankDocument.WellFormed ∧
    manifoldDocument.takeImports = .ok ([⟨"base.yaml", []⟩, ⟨"@default", ["log", "db.host"]⟩,
      ⟨"old.yaml", []⟩, ⟨"a.yaml", ["b"]⟩], [(.string "name", .string "site"), (.int 1, .null)]) ∧
    ∃ fault, blankDocument.takeImports = .error fault := by
  have ht : manifoldDocument.WellFormed := by
    simp [manifoldDocument, manifoldItems, WellFormed, Value.WellFormed, Value.WellFormedEntries,
      Value.WellFormedItems, Value.same]
  have hblank : blankDocument.WellFormed := by
    simp [blankDocument, WellFormed, Value.WellFormed, Value.WellFormedEntries,
      Value.WellFormedItems]
  have hfind : manifoldDocument.find? (.string importsKey) = some (.sequence manifoldItems) := by
    decide +kernel
  have hfindBlank : blankDocument.find? (.string importsKey) =
      some (.sequence [.string " "]) := by decide +kernel
  refine ⟨ht, hblank, ((takeImports_exact ht ?_ ?_).1 _ _).2 ⟨?_, by decide +kernel⟩,
    ((takeImports_exact hblank ?_ ?_).2.1 ?_).imp fun _ hfault ↦ hfault.1⟩
  · rw [hfind]
    rintro v ⟨⟩
    decide
  · rw [hfind]
    rintro items entries ⟨⟩ hentries
    simp only [manifoldItems, List.mem_cons, List.not_mem_nil, reduceCtorEq, false_or, or_false,
      Value.mapping.injEq] at hentries
    rcases hentries with rfl | rfl <;> simp
  · rw [hfind]
    have hitems : List.Forall₂ (fun v (e : ImportEntry) ↦ e.WrittenAs v) manifoldItems
        [⟨"base.yaml", []⟩, ⟨"@default", ["log", "db.host"]⟩, ⟨"old.yaml", []⟩,
          ⟨"a.yaml", ["b"]⟩] :=
      .cons (.path _) (.cons (.excludingMapping (by decide) (List.Perm.swap _ _ _))
        (.cons (.mapping (by decide) (List.Perm.refl _)) (.cons (.excludingSequence _ _) .nil)))
    exact .items hitems (by decide +kernel)
  · rw [hfindBlank]
    rintro v ⟨⟩
    decide
  · rw [hfindBlank]
    rintro items entries ⟨⟩ hentries
    simp at hentries
  · rw [hfindBlank]
    rintro ⟨imports, _ | _ | _ | ⟨hitems, hpaths⟩⟩
    obtain _ | ⟨⟨path⟩, -⟩ := hitems
    exact absurd (hpaths _ List.mem_cons_self) (by decide)

end Tree

end LayeredConfig
