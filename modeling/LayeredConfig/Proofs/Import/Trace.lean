import LayeredConfig.Proofs.Import.Walk
import LayeredConfig.Store.Memory

/-!
# The order of the loaded documents

A document with all that it imports, and all that is imported from there, is a tree: an
`ImportTree`, which the documents alone decide (`Sources.Unfolds.unique`). No stack, flag or list
takes part in it. The list of loaded documents is this tree in preorder
(`Sources.documents_eq_preorder`), so no document is left out, listed twice for one import, or
listed out of order.

The default layer stands in this list where it is imported by name, and once more behind the entry
if it comes by itself. Whether it does is decided at the root of the tree alone
(`ImportTree.preorder_succ`): below, the layer is listed only where a document names it.
-/

namespace LayeredConfig

/-- A document with what it imports, down to documents that import nothing. -/
inductive ImportTree where
  /-- The default layer, imported by name. -/
  | defaultLayer
  /-- The document at a path, with what it imports in order. -/
  | document (path : FilePath) (imports : List ImportTree)

/-- The record of a default layer at a depth, if there is a default layer. -/
def defaultRecords (defaults : Option DefaultLayer) (depth : Nat) : List LoadedDocument :=
  match defaults with
  | none => []
  | some layer => [⟨⟨layer.description⟩, .default, depth⟩]

theorem kind_of_mem_defaultRecords {defaults : Option DefaultLayer} {depth : Nat} :
    ∀ d ∈ defaultRecords defaults depth, d.kind = .default := by
  cases defaults with
  | none =>
    intro d hd
    cases hd
  | some layer =>
    intro d hd
    obtain rfl := List.mem_singleton.1 hd
    rfl

namespace ImportTree

/-- The tree is an import of the default layer. -/
def isDefaultLayer : ImportTree → Bool
  | .defaultLayer => true
  | .document _ _ => false

variable (defaults : Option DefaultLayer) (suppress : Bool)

mutual

/-- The records of a tree in preorder, the root being at the given depth. The root of all is the
entry; the default layer comes right behind it, unless it is suppressed or the entry imports it. -/
def preorder (depth : Nat) : ImportTree → List LoadedDocument
  | .defaultLayer => defaultRecords defaults depth
  | .document path imports =>
    ⟨path, if depth = 0 then .entry else .imported, depth⟩ ::
      ((if depth = 0 ∧ suppress = false ∧ imports.any isDefaultLayer = false then
          defaultRecords defaults 0
        else []) ++
        preorderAll (depth + 1) imports)

/-- The records of trees, one tree after another. -/
def preorderAll (depth : Nat) : List ImportTree → List LoadedDocument
  | [] => []
  | t :: r => preorder depth t ++ preorderAll depth r

end

variable {suppress}

mutual

/-- **Below the entry the default layer does not come by itself**, suppressed or not. -/
theorem preorder_succ (suppress' : Bool) (depth : Nat) : ∀ t : ImportTree,
    t.preorder defaults suppress (depth + 1) = t.preorder defaults suppress' (depth + 1)
  | .defaultLayer => rfl
  | .document path imports => by
    rw [preorder, preorder, preorderAll_succ suppress' (depth + 1) imports]
    simp only [Nat.add_one_ne_zero, false_and, if_false]

theorem preorderAll_succ (suppress' : Bool) (depth : Nat) : ∀ trees : List ImportTree,
    preorderAll defaults suppress (depth + 1) trees =
      preorderAll defaults suppress' (depth + 1) trees
  | [] => rfl
  | t :: r => by
    rw [preorderAll, preorderAll, preorder_succ suppress' depth t,
      preorderAll_succ suppress' depth r]

end

end ImportTree

namespace Sources

variable {s : Sources} {suppress : Bool} {stack : List FilePath} {depth : Nat}
  {path importer entry : FilePath} {imports : List ImportEntry}
  {tree tree' : ImportTree} {trees trees' : List ImportTree}

mutual

/-- The tree of imports of the document at a path. -/
inductive Unfolds (s : Sources) : FilePath → ImportTree → Prop where
  /-- A document that can be read, with the trees of its imports. -/
  | document {path : FilePath} {text : String} {imports : List ImportEntry} {own : Tree}
      {trees : List ImportTree} (look : s.reader.look path = .text text)
      (read : readDocument path text = .ok (imports, own))
      (below : UnfoldsAll s path imports trees) : Unfolds s path (.document path trees)

/-- The trees of the imports of a document, in order. -/
inductive UnfoldsAll (s : Sources) : FilePath → List ImportEntry → List ImportTree → Prop where
  /-- No imports. -/
  | nil {importer : FilePath} : UnfoldsAll s importer [] []
  /-- The default layer comes first. -/
  | default {importer : FilePath} {i : ImportEntry} {r : List ImportEntry}
      {trees : List ImportTree} (isDefault : i.isDefault = true)
      (rest : UnfoldsAll s importer r trees) :
      UnfoldsAll s importer (i :: r) (.defaultLayer :: trees)
  /-- A document comes first. -/
  | document {importer next : FilePath} {i : ImportEntry} {r : List ImportEntry}
      {tree : ImportTree} {trees : List ImportTree} (isDefault : i.isDefault = false)
      (names : s.importPath importer i.path = .ok next) (first : Unfolds s next tree)
      (rest : UnfoldsAll s importer r trees) :
      UnfoldsAll s importer (i :: r) (tree :: trees)

end

/-! ### One tree for each document -/

mutual

/-- **A document has one tree of imports** at most. -/
theorem Unfolds.unique : ∀ {path : FilePath} {tree tree' : ImportTree},
    s.Unfolds path tree → s.Unfolds path tree' → tree = tree'
  | _, _, _, .document hlook hread hbelow, .document hlook' hread' hbelow' => by
    obtain rfl := Content.text.inj (hlook.symm.trans hlook')
    obtain ⟨rfl, rfl⟩ := Prod.mk.inj (Except.ok.inj (hread.symm.trans hread'))
    rw [UnfoldsAll.unique hbelow hbelow']

theorem UnfoldsAll.unique :
    ∀ {importer : FilePath} {imports : List ImportEntry} {trees trees' : List ImportTree},
      s.UnfoldsAll importer imports trees → s.UnfoldsAll importer imports trees' → trees = trees'
  | _, _, _, _, .nil, .nil => rfl
  | _, _, _, _, .default _ hrest, .default _ hrest' => by rw [UnfoldsAll.unique hrest hrest']
  | _, _, _, _, .document _ hnames hfirst hrest, .document _ hnames' hfirst' hrest' => by
    obtain rfl := Except.ok.inj (hnames.symm.trans hnames')
    rw [Unfolds.unique hfirst hfirst', UnfoldsAll.unique hrest hrest']
  | _, _, _, _, .default hdefault _, .document hdefault' _ _ _
  | _, _, _, _, .document hdefault' _ _ _, .default hdefault _ => by
    rw [hdefault] at hdefault'
    cases hdefault'

end

theorem Unfolds.isDefaultLayer_eq_false (h : s.Unfolds path tree) :
    tree.isDefaultLayer = false := by
  cases h
  rfl

/-- The default layer is among the imports exactly when it is among their trees. -/
theorem UnfoldsAll.any_isDefaultLayer (h : s.UnfoldsAll importer imports trees) :
    trees.any ImportTree.isDefaultLayer = imports.any (·.isDefault) := by
  induction imports generalizing trees with
  | nil =>
    cases h
    rfl
  | cons i r ih =>
    cases h with
    | default hdefault hrest =>
      rw [List.any_cons, List.any_cons, ih hrest, hdefault, ImportTree.isDefaultLayer]
    | document hdefault _ hfirst hrest =>
      rw [List.any_cons, List.any_cons, ih hrest, hdefault, hfirst.isDefaultLayer_eq_false]

/-! ### What a walk lists -/

theorem documents_of_defaultLayer {a : Assembly} (h : s.defaultLayer depth = .ok a) :
    a.documents = defaultRecords s.defaults depth := by
  rw [defaultLayer] at h
  cases hdefaults : s.defaults with
  | none =>
    rw [hdefaults] at h
    obtain rfl : .empty = a := Except.ok.inj h
    rfl
  | some layer =>
    rw [hdefaults] at h
    obtain ⟨t, -, h⟩ := bind_eq_ok_iff.1 h
    obtain rfl := Except.ok.inj h
    rfl

/-- The default layer comes by itself for the entry only, which alone is walked to without the layer
being suppressed. -/
theorem documents_of_baseLayer {base : Assembly} (hsuppress : depth ≠ 0 → suppress = true)
    (h : s.baseLayer suppress depth imports = .ok base) :
    base.documents =
      if depth = 0 ∧ suppress = false ∧ imports.any (·.isDefault) = false then
        defaultRecords s.defaults 0
      else [] := by
  rw [baseLayer] at h
  split at h
  · rename_i hnone
    obtain rfl : .empty = base := Except.ok.inj h
    rw [if_neg]
    · rfl
    · rintro ⟨-, hnot, hdefault⟩
      rw [hnot, hdefault] at hnone
      cases hnone
  · rename_i hcomes
    obtain ⟨hnot, hdefault⟩ : suppress = false ∧ imports.any (·.isDefault) = false := by
      simpa using hcomes
    have hdepth : depth = 0 := by
      by_contra hne
      rw [hsuppress hne] at hnot
      cases hnot
    rw [if_pos ⟨hdepth, hnot, hdefault⟩, documents_of_defaultLayer h, hdepth]

/-- The imports of a document list their trees, if the documents that they name do. -/
theorem unfoldsAll_of_addAll {assemble : FilePath → Except LoadError Assembly}
    {base layers : Assembly}
    (hassemble : ∀ next b, assemble next = .ok b →
      ∃ tree, s.Unfolds next tree ∧ b.documents = tree.preorder s.defaults suppress depth)
    (h : base.addAll (s.contribution assemble depth importer) imports = .ok layers) :
    ∃ trees, s.UnfoldsAll importer imports trees ∧ layers.documents =
      base.documents ++ ImportTree.preorderAll s.defaults suppress depth trees := by
  induction imports generalizing base with
  | nil =>
    obtain rfl : base = layers := Except.ok.inj h
    exact ⟨[], .nil, (List.append_nil _).symm⟩
  | cons i r ih =>
    obtain ⟨b, hb, h⟩ := bind_eq_ok_iff.1 h
    obtain ⟨trees, hrest, hdocuments⟩ := ih h
    rw [contribution] at hb
    split at hb
    · rename_i hdefault
      refine ⟨.defaultLayer :: trees, .default hdefault hrest, ?_⟩
      rw [hdocuments, Assembly.add, documents_of_defaultLayer hb, List.append_assoc,
        ImportTree.preorderAll, ImportTree.preorder]
    · rename_i hdefault
      obtain ⟨next, hnext, hb⟩ := bind_eq_ok_iff.1 hb
      split at hb
      · obtain ⟨tree, hfirst, htree⟩ := hassemble next b hb
        refine ⟨tree :: trees, .document (by simpa using hdefault) hnext hfirst hrest, ?_⟩
        rw [hdocuments, Assembly.add, htree, List.append_assoc, ImportTree.preorderAll]
      · cases hb

/-- **What a document on a walk lists is its tree in preorder.** -/
theorem unfolds_of_assemble {a : Assembly} (hsuppress : depth ≠ 0 → suppress = true)
    (h : s.assemble suppress stack depth path = .ok a) :
    ∃ tree, s.Unfolds path tree ∧ a.documents = tree.preorder s.defaults suppress depth := by
  induction stack, path using s.reader.walk_induction generalizing suppress depth a with
  | step stack path ih =>
    obtain ⟨hstack, text, imports, own, hlook, hread, h⟩ := assemble_eq_ok h
    obtain ⟨base, hbase, h⟩ := bind_eq_ok_iff.1 h
    obtain ⟨layers, hlayers, h⟩ := bind_eq_ok_iff.1 h
    obtain rfl := Except.ok.inj h
    have hnext : ∀ next b,
        s.assemble true (s.reader.identity path :: stack) (depth + 1) next = .ok b →
          ∃ tree, s.Unfolds next tree ∧ b.documents = tree.preorder s.defaults true (depth + 1) :=
      fun next b hb ↦ ih text hlook hstack next (fun _ ↦ rfl) hb
    obtain ⟨trees, hbelow, hdocuments⟩ := unfoldsAll_of_addAll hnext hlayers
    refine ⟨.document path trees, .document hlook hread hbelow, ?_⟩
    rw [ImportTree.preorder, hdocuments, documents_of_baseLayer hsuppress hbase,
      hbelow.any_isDefaultLayer, ImportTree.preorderAll_succ s.defaults suppress depth trees]

/-- **The list of loaded documents is the tree of imports in preorder**, whatever the documents are
and however one imports another. Without the entry it is the default layer alone, if that is not
suppressed. -/
theorem documents_eq_preorder {a : Assembly} (h : s.assembleEntry entry suppress = .ok a) :
    (s.reader.has entry = true → ∃ tree, s.Unfolds entry tree ∧
      (∀ tree', s.Unfolds entry tree' → tree' = tree) ∧
      a.documents = tree.preorder s.defaults suppress 0) ∧
    (s.reader.has entry = false →
      a.documents = if suppress = true then [] else defaultRecords s.defaults 0) := by
  constructor
  · intro hentry
    rw [assembleEntry_of_has hentry] at h
    obtain ⟨tree, htree, hdocuments⟩ := unfolds_of_assemble (fun hne ↦ absurd rfl hne) h
    exact ⟨tree, htree, fun tree' htree' ↦ htree'.unique htree, hdocuments⟩
  · intro hentry
    rw [assembleEntry, hentry, if_neg Bool.false_ne_true] at h
    split at h
    · rename_i hsuppress
      obtain rfl : .empty = a := Except.ok.inj h
      rw [if_pos hsuppress]
      rfl
    · rename_i hsuppress
      rw [if_neg hsuppress, documents_of_defaultLayer h]

/-- Sources in memory: an entry that imports one document twice, the second time through another,
which imports the default layer between its two imports. -/
def nested : Sources where
  reader := (MemoryStore.ofList [
    (⟨"/etc/app.yaml"⟩, "imports: [leaf.yaml, sub/site.yaml]\nown: 1\n"),
    (⟨"/etc/sub/site.yaml"⟩, "imports: [../leaf.yaml, '@default', end.toml]\n"),
    (⟨"/etc/sub/end.toml"⟩, "end = true\n"),
    (⟨"/etc/leaf.yaml"⟩, "leaf: 2\n")]).reader
  defaults := some (.fixed [])
  scope := ⟨fun _ ↦ none, .builtin, true⟩
  home := some ⟨"/home"⟩

/-- What the entry is assembled to. -/
def nestedAssembly : Assembly :=
  ⟨[(.string "leaf", .int 2), (.string "end", .bool true), (.string "own", .int 1)],
    [⟨⟨"/etc/app.yaml"⟩, .entry, 0⟩, ⟨⟨"<static defaults>"⟩, .default, 0⟩,
      ⟨⟨"/etc/leaf.yaml"⟩, .imported, 1⟩, ⟨⟨"/etc/sub/site.yaml"⟩, .imported, 1⟩,
      ⟨⟨"/etc/leaf.yaml"⟩, .imported, 2⟩, ⟨⟨"<static defaults>"⟩, .default, 2⟩,
      ⟨⟨"/etc/sub/end.toml"⟩, .imported, 2⟩]⟩

theorem documents_eq_preorder_nested :
    (nested.assembleEntry ⟨"/etc/app.yaml"⟩ false = .ok nestedAssembly ∧
      ∃ tree, nested.Unfolds ⟨"/etc/app.yaml"⟩ tree ∧
        (∀ tree', nested.Unfolds ⟨"/etc/app.yaml"⟩ tree' → tree' = tree) ∧
        nestedAssembly.documents = tree.preorder nested.defaults false 0) ∧
    (nested.assembleEntry ⟨"/etc/gone.yaml"⟩ true = .ok .empty ∧
      Assembly.empty.documents =
        if true = true then [] else defaultRecords nested.defaults 0) := by
  have happ : nested.assembleEntry ⟨"/etc/app.yaml"⟩ false = .ok nestedAssembly := by
    decide +kernel
  have hgone : nested.assembleEntry ⟨"/etc/gone.yaml"⟩ true = .ok .empty := by
    decide +kernel
  exact ⟨⟨happ, (documents_eq_preorder happ).1 (by decide +kernel)⟩,
    hgone, (documents_eq_preorder hgone).2 (by decide +kernel)⟩

/-- The list is that of this tree. -/
example : nestedAssembly.documents =
    (ImportTree.document ⟨"/etc/app.yaml"⟩ [.document ⟨"/etc/leaf.yaml"⟩ [],
      .document ⟨"/etc/sub/site.yaml"⟩ [.document ⟨"/etc/leaf.yaml"⟩ [], .defaultLayer,
        .document ⟨"/etc/sub/end.toml"⟩ []]]).preorder nested.defaults false 0 := by
  rfl

end Sources

end LayeredConfig
