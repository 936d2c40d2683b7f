import LayeredConfig.Proofs.Import.Walk
import LayeredConfig.Store.Memory

/-!
# Assembling is compositional

The walk along imports carries a stack and a depth through the whole recursion, and keeps a list of
the documents. The tree that it answers depends on none of them: `Sources.documentTree` says what
the tree of a document is as a fold over its imports, where the tree of an imported document is
asked for from outside, and on success a separate load of that document alone gives the right answer
(`entryTree_eq_documentTree`).

What has to be shown is that a document which succeeds on a walk succeeds on every walk with a
smaller stack, and with the same tree (`map_tree_assemble_of_subset`). A smaller stack can only take
a reason to fail away, and the tree is a fold over trees of which the same holds.
-/

namespace LayeredConfig

namespace Sources

variable {s : Sources} {suppress : Bool} {stack stack' : List FilePath} {depth depth' : Nat}
  {path entry : FilePath} {imports : List ImportEntry} {own t : Tree}
  {load load' : FilePath → Except LoadError Tree}

/-- The tree of the default layer; without one there is nothing. -/
def defaultTree (s : Sources) : Except LoadError Tree :=
  match s.defaults with
  | none => .ok []
  | some layer => layer.tree

/-- The tree that an import contributes, when `load` answers the trees of documents. -/
def importedTree (s : Sources) (load : FilePath → Except LoadError Tree) (importer : FilePath)
    (i : ImportEntry) : Except LoadError Tree :=
  if i.isDefault then s.defaultTree
  else do
    let path ← s.importPath importer i.path
    if s.reader.has path then load path else .error (.missingImport path importer)

/-- One import laid over what was assembled before, its excluded keys taken out of both. -/
def layImport (s : Sources) (load : FilePath → Except LoadError Tree) (importer : FilePath)
    (below : Tree) (i : ImportEntry) : Except LoadError Tree := do
  let tree ← s.importedTree load importer i
  .ok (i.exclude.foldl Tree.without (below.merge tree))

/-- What comes below all imports: the default layer, unless it is suppressed or imported by name. -/
def baseTree (s : Sources) (suppress : Bool) (imports : List ImportEntry) :
    Except LoadError Tree :=
  if suppress || imports.any (·.isDefault) then .ok [] else s.defaultTree

/-- The tree of a document with the given imports and keys of its own: first what comes below, then
each import in order, then the document's own keys. -/
def documentTree (s : Sources) (load : FilePath → Except LoadError Tree) (suppress : Bool)
    (path : FilePath) (imports : List ImportEntry) (own : Tree) : Except LoadError Tree := do
  let base ← s.baseTree suppress imports
  let below ← imports.foldlM (s.layImport load path) base
  .ok (below.merge own)

/-! ### The walk, seen through its trees -/

theorem map_tree_defaultLayer : (s.defaultLayer depth).map Assembly.tree = s.defaultTree := by
  rw [defaultLayer, defaultTree]
  cases s.defaults with
  | none => rfl
  | some layer =>
    dsimp only
    cases layer.tree <;> rfl

theorem map_tree_baseLayer (depth : Nat) :
    (s.baseLayer suppress depth imports).map Assembly.tree = s.baseTree suppress imports := by
  rw [baseLayer, baseTree]
  split
  · rfl
  · exact map_tree_defaultLayer

theorem map_tree_contribution {assemble : FilePath → Except LoadError Assembly}
    {importer : FilePath} {i : ImportEntry} :
    (s.contribution assemble depth importer i).map Assembly.tree =
      s.importedTree (fun p ↦ (assemble p).map Assembly.tree) importer i := by
  rw [contribution, importedTree]
  split
  · exact map_tree_defaultLayer
  · rw [map_bind_eq]
    refine congrArg (s.importPath importer i.path >>= ·) (funext fun p ↦ ?_)
    split <;> rfl

theorem map_tree_addAll {assemble : FilePath → Except LoadError Assembly} {base : Assembly} :
    (base.addAll (s.contribution assemble depth path) imports).map Assembly.tree =
      imports.foldlM (s.layImport (fun p ↦ (assemble p).map Assembly.tree) path) base.tree := by
  induction imports generalizing base with
  | nil => rfl
  | cons i r ih =>
    rw [Assembly.addAll, map_bind_eq, List.foldlM_cons, layImport, ← map_tree_contribution]
    cases s.contribution assemble depth path i with
    | error e => rfl
    | ok b => exact ih

/-- The tree of a document is told by the trees of those that it imports. -/
theorem map_tree_assembleImports :
    (s.assembleImports suppress stack depth path imports own).map Assembly.tree =
      s.documentTree (fun p ↦
        (s.assemble true (s.reader.identity path :: stack) (depth + 1) p).map Assembly.tree)
        suppress path imports own := by
  rw [assembleImports, documentTree, map_bind_eq, ← map_tree_baseLayer depth, bind_map_eq]
  refine congrArg (s.baseLayer suppress depth imports >>= ·) (funext fun base ↦ ?_)
  rw [← map_tree_addAll, map_bind_eq, bind_map_eq]
  rfl

/-! ### Success does not hang on the walk -/

theorem layImport_mono (h : ∀ p t, load p = .ok t → load' p = .ok t) {below : Tree}
    {i : ImportEntry} (ht : s.layImport load path below i = .ok t) :
    s.layImport load' path below i = .ok t := by
  obtain ⟨tree, htree, ht⟩ := bind_eq_ok_iff.1 ht
  refine bind_eq_ok_iff.2 ⟨tree, ?_, ht⟩
  rw [importedTree] at htree ⊢
  split at htree
  · rw [if_pos ‹_›]
    exact htree
  · rw [if_neg ‹_›]
    obtain ⟨p, hp, htree⟩ := bind_eq_ok_iff.1 htree
    refine bind_eq_ok_iff.2 ⟨p, hp, ?_⟩
    split at htree
    · rw [if_pos ‹_›]
      exact h p tree htree
    · cases htree

theorem foldlM_layImport_mono (h : ∀ p t, load p = .ok t → load' p = .ok t) {below : Tree}
    (ht : imports.foldlM (s.layImport load path) below = .ok t) :
    imports.foldlM (s.layImport load' path) below = .ok t := by
  induction imports generalizing below with
  | nil => exact ht
  | cons i r ih =>
    rw [List.foldlM_cons] at ht ⊢
    obtain ⟨u, hu, ht⟩ := bind_eq_ok_iff.1 ht
    exact bind_eq_ok_iff.2 ⟨u, layImport_mono h hu, ih ht⟩

theorem documentTree_mono (h : ∀ p t, load p = .ok t → load' p = .ok t)
    (ht : s.documentTree load suppress path imports own = .ok t) :
    s.documentTree load' suppress path imports own = .ok t := by
  rw [documentTree] at ht ⊢
  obtain ⟨base, hbase, ht⟩ := bind_eq_ok_iff.1 ht
  obtain ⟨below, hbelow, ht⟩ := bind_eq_ok_iff.1 ht
  exact bind_eq_ok_iff.2 ⟨base, hbase, bind_eq_ok_iff.2 ⟨below, foldlM_layImport_mono h hbelow, ht⟩⟩

/-- **A smaller stack changes nothing** about a document that succeeds, nor does another depth. -/
theorem map_tree_assemble_of_subset {a : Assembly} (hsub : stack' ⊆ stack)
    (h : s.assemble suppress stack depth path = .ok a) :
    (s.assemble suppress stack' depth' path).map Assembly.tree = .ok a.tree := by
  induction stack, path using s.reader.walk_induction
    generalizing suppress stack' depth depth' a with
  | step stack path ih =>
    obtain ⟨hstack, text, imports, own, hlook, hread, h⟩ := assemble_eq_ok h
    have htree : (s.assembleImports suppress stack depth path imports own).map Assembly.tree =
        .ok a.tree := by rw [h]; rfl
    rw [map_tree_assembleImports] at htree
    -- The smaller stack does not hold the place of this document either.
    have hstack' : s.reader.identity path ∉ stack' := fun hmem ↦ hstack (hsub hmem)
    have hsame : s.assemble suppress stack' depth' path =
        s.assembleImports suppress stack' depth' path imports own := by
      rw [assemble_eq, if_neg hstack', hlook]
      dsimp only
      rw [hread]
      rfl
    rw [hsame, map_tree_assembleImports]
    -- Below, both stacks have this place on top.
    refine documentTree_mono (fun next t ht ↦ ?_) htree
    obtain ⟨b, hb, rfl⟩ := map_eq_ok_iff.1 ht
    exact ih text hlook hstack next (List.cons_subset_cons _ hsub) hb

/-- The tree of an entry by itself. -/
def entryTree (s : Sources) (suppress : Bool) (entry : FilePath) : Except LoadError Tree :=
  (s.assembleEntry entry suppress).map Assembly.tree

/-- A document that succeeds anywhere on a walk succeeds as an entry, with the same tree. -/
theorem entryTree_of_assemble {a : Assembly} (h : s.assemble suppress stack depth path = .ok a) :
    s.entryTree suppress path = .ok a.tree := by
  rw [entryTree, assembleEntry_of_has (has_of_assemble h)]
  exact map_tree_assemble_of_subset (List.nil_subset _) h

/-- **The tree of an entry is a fold over separate loads**, one of each document that it imports.
And wherever on a walk a document is imported, it contributes the tree of its own load. -/
theorem entryTree_eq_documentTree (hentry : s.reader.has entry = true)
    (h : s.entryTree suppress entry = .ok t) :
    (∃ text imports own, s.reader.look entry = .text text ∧
      readDocument entry text = .ok (imports, own) ∧
      s.documentTree (s.entryTree true) suppress entry imports own = .ok t) ∧
    ∀ stack depth path b, s.assemble true stack depth path = .ok b →
      s.entryTree true path = .ok b.tree := by
  refine ⟨?_, fun stack depth path b hb ↦ entryTree_of_assemble hb⟩
  obtain ⟨a, ha, rfl⟩ := map_eq_ok_iff.1 h
  rw [assembleEntry_of_has hentry] at ha
  obtain ⟨-, text, imports, own, hlook, hread, ha⟩ := assemble_eq_ok ha
  have htree : (s.assembleImports suppress [] 0 entry imports own).map Assembly.tree =
      .ok a.tree := by rw [ha]; rfl
  rw [map_tree_assembleImports] at htree
  refine ⟨text, imports, own, hlook, hread, documentTree_mono (fun p t ht ↦ ?_) htree⟩
  obtain ⟨b, hb, rfl⟩ := map_eq_ok_iff.1 ht
  exact entryTree_of_assemble hb

/-- Sources in memory: an entry that imports one document twice, once through another whose keys it
leaves out in part. -/
def diamond : Sources where
  reader := (MemoryStore.ofList [
    (⟨"/etc/app.yaml"⟩, "imports: [base.yaml, [sub/../site.yaml, [db.port]]]\nown: 1\n"),
    (⟨"/etc/site.yaml"⟩, "imports: base.yaml\nname: site\n"),
    (⟨"/etc/base.yaml"⟩, "db:\n  host: local\n  port: 5\n")]).reader
  defaults := some (.fixed [(.string "name", .string "default")])
  scope := ⟨fun _ ↦ none, .builtin, true⟩
  home := some ⟨"/home"⟩

/-- The tree of the entry. -/
def diamondTree : Tree :=
  [(.string "name", .string "site"), (.string "db", .mapping [(.string "host", .string "local")]),
    (.string "own", .int 1)]

theorem entryTree_eq_documentTree_diamond :
    (∃ text imports own, diamond.reader.look ⟨"/etc/app.yaml"⟩ = .text text ∧
      readDocument ⟨"/etc/app.yaml"⟩ text = .ok (imports, own) ∧
      diamond.documentTree (diamond.entryTree true) false ⟨"/etc/app.yaml"⟩ imports own =
        .ok diamondTree) ∧
    ∀ stack depth path b, diamond.assemble true stack depth path = .ok b →
      diamond.entryTree true path = .ok b.tree :=
  entryTree_eq_documentTree (by decide +kernel) (by decide +kernel)

end Sources

end LayeredConfig
