import LayeredConfig.Value.WellFormed
import LayeredConfig.Main
import LayeredConfig.Store.FileTree
import LayeredConfig.Store.Memory
import LayeredConfig.Proofs.Import.Composition
import LayeredConfig.Proofs.Import.Cycles
import LayeredConfig.Proofs.Placeholder.Consistency
import LayeredConfig.Proofs.StrictMode
import LayeredConfig.Proofs.Text.Numeral
import LayeredConfig.Proofs.Legacy.Decoder
import LayeredConfig.Proofs.Legacy.IntegerKey
import LayeredConfig.Proofs.Legacy.RoundTrip
import LayeredConfig.Proofs.Tree.Merge
import LayeredConfig.Proofs.Placeholder.Noninterference
import LayeredConfig.Proofs.Placeholder.Completeness
import LayeredConfig.Proofs.Tree.Place
import LayeredConfig.Proofs.Tree.WellFormed
import LayeredConfig.Proofs.Placeholder.References
import LayeredConfig.Proofs.Placeholder.Cycles
import LayeredConfig.Proofs.Placeholder.Acyclic
import LayeredConfig.Proofs.Import.Exclusion
import LayeredConfig.Proofs.Document.Toml
import LayeredConfig.Proofs.Document.Yaml
import LayeredConfig.Proofs.Import.Invariant
import LayeredConfig.Proofs.Import.ReservedKey
import LayeredConfig.Proofs.Placeholder.StraySigns
import LayeredConfig.Proofs.Machine
import LayeredConfig.Proofs.Import.Trace
import LayeredConfig.Proofs.Import.Dependencies
import LayeredConfig.Proofs.Import.Steps
import LayeredConfig.Proofs.Import.Nesting
import LayeredConfig.Proofs.Placeholder.Nesting
import LayeredConfig.Proofs.Store.FilePath
import LayeredConfig.Proofs.Tree.Writing
import LayeredConfig.Proofs.Tree.Layering
import LayeredConfig.Proofs.Legacy.Keys
import LayeredConfig.Proofs.Tree.Regrouping
import LayeredConfig.Proofs.Placeholder.Occurrences
import LayeredConfig.Proofs.Placeholder.Expansion
import LayeredConfig.Proofs.Placeholder.Outline
import LayeredConfig.Proofs.Tree.Extraction
import LayeredConfig.Proofs.Toml.Writing
import LayeredConfig.Proofs.Tree.Pruning
import LayeredConfig.Proofs.Legacy.Sections
import LayeredConfig.Proofs.Tree.Diverging
import LayeredConfig.Proofs.Tree.Replacement
import LayeredConfig.Proofs.Tree.RemovalOrder
import LayeredConfig.Proofs.Import.Grammar
import LayeredConfig.Proofs.Store.Memory
