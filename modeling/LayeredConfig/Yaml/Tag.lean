/-!
# Tags of YAML

A tag is made of octets and need not be text: of the octets that a document escapes, only their
number and their leading bits are checked against UTF-8. It ends before its first octet that is
zero, and so no tag and no part of one holds such an octet.
-/

namespace LayeredConfig.Yaml

/-- A tag, or a part of one. -/
structure Tag where
  /-- The octets of the tag. -/
  octets : List UInt8
  /-- No octet is zero. -/
  ne_zero : ∀ o ∈ octets, o ≠ 0
deriving DecidableEq

namespace Tag

/-- The octets up to the first that is zero. -/
def ofOctets (octets : List UInt8) : Tag :=
  ⟨octets.takeWhile (· ≠ 0), fun o ho ↦ by
    simpa using List.all_eq_true.1 List.all_takeWhile o ho⟩

/-- A tag that is text. -/
def ofString (s : String) : Tag :=
  ofOctets (s.toList.flatMap String.utf8EncodeChar)

instance : Append Tag where
  append a b :=
    ⟨a.octets ++ b.octets, fun o ho ↦ (List.mem_append.1 ho).elim (a.ne_zero o) (b.ne_zero o)⟩

/-- The tag is the empty one. -/
def isEmpty (tag : Tag) : Bool :=
  tag.octets.isEmpty

/-- The tag belongs to an application: it begins with an exclamation mark. -/
def isLocal (tag : Tag) : Bool :=
  tag.octets.head? = some (UInt8.ofNat '!'.toNat)

/-- The tag as text, if it is text. -/
def text? (tag : Tag) : Option String :=
  String.fromUTF8? ⟨tag.octets.toArray⟩

end Tag

end LayeredConfig.Yaml
