import LayeredConfig.Proofs.Import.Failure
import LayeredConfig.Proofs.Import.Walk
import LayeredConfig.Proofs.Placeholder.Strictness

/-!
# Imports with and without strictness

The paths of imports may hold placeholders, so a walk along imports depends on strictness too. The
walk in a strict scope and the walk in the same scope without strictness are in lockstep, with the
same stack at every document; what relates the two is an induction along the walk.

What ends the walk without strictness is collected in `Sources.Admits`: a path at fault, because a
container stands in its text or because there is no home directory, a document at fault, the default
layer, a missing file, or a document that imports itself.
-/

namespace LayeredConfig

/-- The cause lies in the path of an import: a container stands for a part of it, or it starts from
the home directory and there is none. -/
def LoadError.IsPathFault (e : LoadError) : Prop :=
  e.IsNonScalar ∨ e = .homeNotFound

namespace Sources

/-- The same sources, with null for every placeholder that has no value. -/
def lenient (s : Sources) : Sources :=
  { s with scope := s.scope.lenient }

@[simp]
theorem lenient_reader (s : Sources) : s.lenient.reader = s.reader :=
  rfl

@[simp]
theorem lenient_home (s : Sources) : s.lenient.home = s.home :=
  rfl

/-- The causes in `F` include all but placeholders without a value that can end a walk along the
imports of the sources. -/
structure Admits (s : Sources) (F : LoadError → Prop) : Prop where
  /-- A path may be at fault. -/
  path : ∀ e, e.IsPathFault → F e
  /-- A document may be at fault. -/
  document : ∀ e, e.IsDocumentFault → F e
  /-- The default layer may fail. -/
  defaults : ∀ layer ∈ s.defaults, FailsOnlyWith F layer.tree
  /-- An import may name a file that does not exist. -/
  missing : ∀ path importer, F (.missingImport path importer)
  /-- A document may import itself. -/
  circular : ∀ chain, F (.circularImport chain)

open LoadError (IsUnresolved IsPathFault)

variable {s : Sources} {F : LoadError → Prop} {depth : Nat} {importer : FilePath}

/-- Strictness matters for the placeholders in a path only: the home directory is there or is not
there in both scopes. -/
theorem lockstep_importPath (importer : FilePath) (written : String) :
    Lockstep IsUnresolved IsPathFault (s.importPath importer written)
      (s.lenient.importPath importer written) := by
  have hexpand : Lockstep IsUnresolved IsPathFault (s.scope.expand importsKey written)
      (s.lenient.scope.expand importsKey written) :=
    (Scope.lockstep_expand importsKey written).mono fun _ ↦ Or.inl
  refine .bind hexpand fun path ↦ ?_
  rw [lenient_home]
  split
  · cases s.home with
    | some home => exact .ok _
    | none => exact .error (Or.inr rfl)
  · exact .ok _

/-- One import, where the documents that it may name are in lockstep. -/
theorem lockstep_contribution (hF : s.Admits F)
    {assemble assemble' : FilePath → Except LoadError Assembly}
    (h : ∀ p, Lockstep IsUnresolved F (assemble p) (assemble' p)) (i : ImportEntry) :
    Lockstep IsUnresolved F (s.contribution assemble depth importer i)
      (s.lenient.contribution assemble' depth importer i) := by
  rw [contribution, contribution]
  split
  · exact .refl (failsOnlyWith_defaultLayer hF.defaults depth)
  · refine .bind ((lockstep_importPath importer i.path).mono hF.path) fun path ↦ ?_
    rw [lenient_reader]
    split
    · exact h path
    · exact .error (hF.missing path importer)

theorem lockstep_addAll {contribution contribution' : ImportEntry → Except LoadError Assembly}
    (h : ∀ i, Lockstep IsUnresolved F (contribution i) (contribution' i))
    (imports : List ImportEntry) (base : Assembly) :
    Lockstep IsUnresolved F (base.addAll contribution imports)
      (base.addAll contribution' imports) := by
  induction imports generalizing base with
  | nil => exact .ok base
  | cons i r ih => exact .bind (h i) fun b ↦ ih _

/-- A document that has been read, where the documents that it may name are in lockstep. -/
theorem lockstep_assembleImports (hF : s.Admits F) {stack : List FilePath} {path : FilePath}
    (h : ∀ next, Lockstep IsUnresolved F
      (s.assemble true (s.reader.identity path :: stack) (depth + 1) next)
      (s.lenient.assemble true (s.reader.identity path :: stack) (depth + 1) next))
    (suppress : Bool) (imports : List ImportEntry) (own : Tree) :
    Lockstep IsUnresolved F (s.assembleImports suppress stack depth path imports own)
      (s.lenient.assembleImports suppress stack depth path imports own) := by
  have hbase : FailsOnlyWith F (s.baseLayer suppress depth imports) := by
    rw [baseLayer]
    split
    · exact .ok _
    · exact failsOnlyWith_defaultLayer hF.defaults depth
  refine .bind (.refl hbase) fun base ↦ .bind ?_ fun _ ↦ .ok _
  exact lockstep_addAll (lockstep_contribution hF h) imports base

/-- **Two walks in lockstep**, from the same document with the same stack. -/
theorem lockstep_assemble (hF : s.Admits F) (suppress : Bool) (stack : List FilePath)
    (depth : Nat) (path : FilePath) :
    Lockstep IsUnresolved F (s.assemble suppress stack depth path)
      (s.lenient.assemble suppress stack depth path) := by
  induction stack, path using s.reader.walk_induction generalizing suppress depth with
  | step stack path ih =>
    rw [assemble_eq, assemble_eq, lenient_reader]
    split
    · exact .error (hF.circular _)
    · rename_i hstack
      cases hlook : s.reader.look path with
      | absent | unreadable => exact .error (hF.document _ (.unreadable path))
      | text text =>
        have hread : FailsOnlyWith F (readDocument path text) := fun e he ↦
          hF.document e (failsOnlyWith_readDocument path text e he)
        refine .bind (.refl hread) fun d ↦ ?_
        have hbelow := fun next ↦ ih text hlook hstack next true (depth + 1)
        exact lockstep_assembleImports hF hbelow suppress d.1 d.2

theorem lockstep_assembleEntry (hF : s.Admits F) (entry : FilePath) (suppress : Bool) :
    Lockstep IsUnresolved F (s.assembleEntry entry suppress)
      (s.lenient.assembleEntry entry suppress) := by
  rw [assembleEntry, assembleEntry, lenient_reader]
  split
  · exact lockstep_assemble hF suppress [] 0 entry
  · split
    · exact .ok _
    · exact .refl (failsOnlyWith_defaultLayer hF.defaults 0)

end Sources

end LayeredConfig
