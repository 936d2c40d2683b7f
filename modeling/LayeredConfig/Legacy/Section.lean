import LayeredConfig.Legacy.Encoding
import LayeredConfig.Tree.DottedPath

/-!
# Sections in the legacy encoding

A section is a mapping whose entries are each handed on as one string. `Tree.encodeSections` puts
the legacy encoding in place of every mapping or sequence that is the direct value of an entry of a
section; scalars stay, and so does a path that leads to no untagged mapping.
-/

namespace LayeredConfig

/-- The section of the extensions' settings, one entry per extension. -/
def Legacy.extensionSection : String := "EXT.extConf"

namespace Tree

/-- The entries of a section, containers encoded. -/
def encodeEntries (entries : Tree) : Tree :=
  entries.map fun (k, v) ↦ (k, if v.isContainer then .string (Legacy.encode v) else v)

/-- Encodes one section. -/
def encodeSection (t : Tree) (path : String) : Tree :=
  match t.focus? path with
  | some ⟨.mapping entries, put⟩ => put (.mapping (encodeEntries entries))
  | _ => t

/-- Encodes the sections at the given paths, in order. -/
def encodeSections (t : Tree) (paths : List String) : Tree :=
  paths.foldl encodeSection t

end Tree

end LayeredConfig
