import LayeredConfig.Proofs.Document.Toml
import LayeredConfig.Proofs.Document.Yaml
import LayeredConfig.Proofs.Import.Composition
import LayeredConfig.Proofs.Import.Exclusion

/-!
# What all assembled trees have in common

However documents import one another, there are few ways to make an assembly: nothing, the default
layer, an import laid over what was assembled before, a document laid over its imports. What holds
of the first two and is kept by the other two holds of all that a walk assembles
(`Sources.Invariant.of_assembleEntry`). Only this uses the recursion along imports.

The first application is that no assembled tree has a key twice, since no document has
(`Sources.wellFormed_of_assembleEntry`); so what is said of well-formed trees holds of them all.
-/

namespace LayeredConfig

namespace Sources

variable {s : Sources} {P : Assembly → Prop} {suppress : Bool} {stack : List FilePath} {depth : Nat}
  {path importer entry : FilePath} {a b : Assembly}

/-- Every way to make an assembly from the sources keeps the property. -/
structure Invariant (s : Sources) (P : Assembly → Prop) : Prop where
  /-- Nothing has it. -/
  empty : P .empty
  /-- The default layer has it. -/
  defaultLayer : ∀ depth a, s.defaultLayer depth = .ok a → P a
  /-- An import laid over what was assembled before has it, if both have. -/
  add : ∀ a b i, P a → P b → P (a.add i b)
  /-- A document laid over its imports has it, if they have. -/
  document : ∀ path text imports own kind depth a, readDocument path text = .ok (imports, own) →
    P a → P ⟨a.tree.merge own, ⟨path, kind, depth⟩ :: a.documents⟩

namespace Invariant

theorem of_baseLayer (hP : s.Invariant P) {imports : List ImportEntry}
    (h : s.baseLayer suppress depth imports = .ok a) : P a := by
  rw [baseLayer] at h
  split at h
  · obtain rfl : .empty = a := Except.ok.inj h
    exact hP.empty
  · exact hP.defaultLayer depth a h

theorem of_contribution (hP : s.Invariant P) {assemble : FilePath → Except LoadError Assembly}
    (hassemble : ∀ next b, assemble next = .ok b → P b) {i : ImportEntry}
    (h : s.contribution assemble depth importer i = .ok a) : P a := by
  rw [contribution] at h
  split at h
  · exact hP.defaultLayer depth a h
  · obtain ⟨next, -, h⟩ := bind_eq_ok_iff.1 h
    split at h
    · exact hassemble next a h
    · cases h

theorem of_addAll (hP : s.Invariant P) {contribution : ImportEntry → Except LoadError Assembly}
    (hcontribution : ∀ i b, contribution i = .ok b → P b) {imports : List ImportEntry} (hb : P b)
    (h : b.addAll contribution imports = .ok a) : P a := by
  induction imports generalizing b with
  | nil => exact Except.ok.inj h ▸ hb
  | cons i r ih =>
    obtain ⟨c, hc, h⟩ := bind_eq_ok_iff.1 h
    exact ih (hP.add b c i hb (hcontribution i c hc)) h

/-- **What every way to make an assembly keeps holds of a document on a walk.** -/
theorem of_assemble (hP : s.Invariant P) (h : s.assemble suppress stack depth path = .ok a) :
    P a := by
  induction stack, path using s.reader.walk_induction generalizing suppress depth a with
  | step stack path ih =>
    obtain ⟨hstack, text, imports, own, hlook, hread, h⟩ := assemble_eq_ok h
    obtain ⟨base, hbase, h⟩ := bind_eq_ok_iff.1 h
    obtain ⟨layers, hlayers, h⟩ := bind_eq_ok_iff.1 h
    obtain rfl := Except.ok.inj h
    have hcontribution : ∀ i b, s.contribution
        (s.assemble true (s.reader.identity path :: stack) (depth + 1)) (depth + 1) path i = .ok b →
          P b :=
      fun i b ↦ hP.of_contribution fun next b hb ↦ ih text hlook hstack next hb
    have hbelow : P layers := hP.of_addAll hcontribution (hP.of_baseLayer hbase) hlayers
    exact hP.document path text imports own _ depth layers hread hbelow

/-- **And it holds of an entry**, whether there is a document or not. -/
theorem of_assembleEntry (hP : s.Invariant P) (h : s.assembleEntry entry suppress = .ok a) :
    P a := by
  rw [assembleEntry] at h
  split at h
  · exact hP.of_assemble h
  · split at h
    · obtain rfl : .empty = a := Except.ok.inj h
      exact hP.empty
    · exact hP.defaultLayer 0 a h

end Invariant

theorem defaultTree_of_defaultLayer (h : s.defaultLayer depth = .ok a) :
    s.defaultTree = .ok a.tree := by
  have hmap : (s.defaultLayer depth).map Assembly.tree = s.defaultTree := map_tree_defaultLayer
  rw [← hmap, h]
  rfl

end Sources

/-! ### No key twice -/

/-- **The tree of a document is well-formed**, whichever format it is in. -/
theorem Document.wellFormed_of_parse {path : FilePath} {text : String} {t : Tree}
    (h : Document.parse path text = .ok t) : t.WellFormed := by
  rw [Document.parse] at h
  split at h
  · rw [parseYaml] at h
    split at h
    · obtain rfl : [] = t := Except.ok.inj h
      exact Tree.wellFormed_nil
    · rename_i entries hread
      obtain rfl : entries = t := Except.ok.inj h
      exact Yaml.wellFormed_of_read hread
    · cases h
    · cases h
  · rw [parseToml] at h
    split at h
    · rename_i entries hread
      obtain rfl : entries = t := Except.ok.inj h
      exact Toml.wellFormed_of_read hread
    · cases h

/-- So is the default layer of a framework. -/
theorem DefaultLayer.wellFormed_framework {r : Reader} {root : FilePath} {t : Tree}
    (h : (framework r root).tree = .ok t) : t.WellFormed := by
  rw [framework] at h
  split at h
  · rw [readDocument] at h
    split at h
    · exact Document.wellFormed_of_parse h
    · cases h
  · obtain rfl : [] = t := Except.ok.inj h
    exact Tree.wellFormed_nil

/-- Taking the imports out is erasing their key, also where there is none. -/
theorem Tree.eq_erase_of_takeImports {t own : Tree} {imports : List ImportEntry}
    (h : t.takeImports = .ok (imports, own)) : own = t.erase (.string importsKey) := by
  rw [Tree.takeImports] at h
  split at h
  · rename_i hnone
    obtain ⟨-, rfl⟩ := Prod.mk.inj (Except.ok.inj h)
    exact (erase_of_find?_eq_none hnone).symm
  · obtain ⟨_, -, h⟩ := bind_eq_ok_iff.1 h
    exact (Prod.mk.inj (Except.ok.inj h)).2.symm

namespace Sources

variable {s : Sources} {suppress : Bool} {path entry : FilePath} {a : Assembly}

/-- A document's own keys are those of a well-formed tree, without the key of the imports. -/
theorem eq_erase_of_readDocument {text : String} {imports : List ImportEntry} {own : Tree}
    (h : readDocument path text = .ok (imports, own)) :
    ∃ t : Tree, t.WellFormed ∧ own = t.erase (.string importsKey) := by
  obtain ⟨t, hparse, h⟩ := bind_eq_ok_iff.1 h
  refine ⟨t, Document.wellFormed_of_parse hparse, ?_⟩
  split at h
  · rename_i found htake
    obtain rfl : found = (imports, own) := Except.ok.inj h
    exact Tree.eq_erase_of_takeImports htake
  · cases h

theorem invariant_wellFormed (hdefaults : ∀ t, s.defaultTree = .ok t → Tree.WellFormed t) :
    s.Invariant fun a ↦ a.tree.WellFormed where
  empty := Tree.wellFormed_nil
  defaultLayer _ a h := hdefaults a.tree (defaultTree_of_defaultLayer h)
  add a b i ha hb := (ha.merge hb).foldl_without i.exclude
  document path text imports own kind depth a hread ha := by
    obtain ⟨t, ht, rfl⟩ := eq_erase_of_readDocument hread
    exact ha.merge (ht.sublist (Tree.erase_sublist _ t))

/-- **Every assembled tree is well-formed**, if the default layer is. -/
theorem wellFormed_of_assembleEntry (hdefaults : ∀ t, s.defaultTree = .ok t → Tree.WellFormed t)
    (h : s.assembleEntry entry suppress = .ok a) : a.tree.WellFormed :=
  (invariant_wellFormed hdefaults).of_assembleEntry h

end Sources

end LayeredConfig
