import LayeredConfig.Proofs.Stages
import LayeredConfig.Import.Assembly

/-!
# How documents and default layers fail

A document fails by itself when it cannot be read (`LoadError.IsDocumentFault`). A default layer may
be anything that answers a tree; the two that are built in fail only as documents do
(`DefaultLayer.failsAsDocument_fixed`, `DefaultLayer.failsAsDocument_framework`), and where the
cause of a failure matters, no more is asked of a default layer.
-/

namespace LayeredConfig

/-- The cause lies in the text of one document. -/
inductive LoadError.IsDocumentFault : LoadError → Prop
  | unreadable (path : FilePath) : IsDocumentFault (.unreadable path)
  | malformedYaml (path : FilePath) : IsDocumentFault (.malformedYaml path)
  | malformedToml (path : FilePath) : IsDocumentFault (.malformedToml path)
  | rootNotMapping (path : FilePath) : IsDocumentFault (.rootNotMapping path)
  | invalidImport (path : FilePath) (reason : String) : IsDocumentFault (.invalidImport path reason)

/-! ### Documents and default layers -/

theorem Document.failsOnlyWith_parse (path : FilePath) (text : String) :
    FailsOnlyWith LoadError.IsDocumentFault (Document.parse path text) := by
  rw [Document.parse, Document.parseYaml, Document.parseToml]
  split
  · split
    · exact .ok _
    · exact .ok _
    · exact .error (.rootNotMapping path)
    · exact .error (.malformedYaml path)
  · split
    · exact .ok _
    · exact .error (.malformedToml path)

namespace DefaultLayer

/-- The layer fails only as a document does. -/
def FailsAsDocument (layer : DefaultLayer) : Prop :=
  FailsOnlyWith LoadError.IsDocumentFault layer.tree

theorem failsAsDocument_fixed (t : Tree) : (fixed t).FailsAsDocument :=
  .ok t

theorem failsAsDocument_framework (r : Reader) (root : FilePath) :
    (framework r root).FailsAsDocument := by
  rw [framework]
  split
  · rename_i path _
    show FailsOnlyWith _ (readDocument r path)
    rw [readDocument]
    split
    · exact Document.failsOnlyWith_parse path _
    · exact .error (.unreadable path)
  · exact .ok []

end DefaultLayer

namespace Sources

theorem failsOnlyWith_readDocument (path : FilePath) (text : String) :
    FailsOnlyWith LoadError.IsDocumentFault (readDocument path text) := by
  refine .bind (Document.failsOnlyWith_parse path text) fun tree ↦ ?_
  split
  · exact .ok _
  · exact .error (.invalidImport path _)

theorem failsOnlyWith_defaultLayer {s : Sources} {E : LoadError → Prop}
    (h : ∀ layer ∈ s.defaults, FailsOnlyWith E layer.tree) (depth : Nat) :
    FailsOnlyWith E (s.defaultLayer depth) := by
  rw [defaultLayer]
  split
  · exact .ok _
  · exact .bind (h _ ‹_›) fun _ ↦ .ok _

end Sources

end LayeredConfig
