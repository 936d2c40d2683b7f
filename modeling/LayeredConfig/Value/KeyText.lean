import LayeredConfig.Text.Blank
import LayeredConfig.Yaml.Render

/-!
# The text of a key

A segment of a dotted path names a key by its text. A string is its own text, null has the empty
text, numbers and truth values are written as in a document. Any other key is named by the document
that holds it, without the blanks at its end, and by the empty text if it has no written form.
-/

namespace LayeredConfig

namespace Value

/-- The text that names the value as a key. -/
def keyText : Value → String
  | .string s => s
  | .int i => Text.signedNumeral i
  | .float x => NumberFormat.document.render x
  | .bool b => if b then "true" else "false"
  | .null => ""
  | v => ((Yaml.render? v).map Text.trimEnd).getD ""

@[simp] theorem keyText_string (s : String) : (Value.string s).keyText = s := rfl

/-- The text that a scalar adds to a string it is embedded in; `none` for a mapping or a sequence.
A tag is passed over. -/
def scalarText? : Value → Option String
  | .null => some ""
  | .bool b => some (if b then "true" else "false")
  | .int i => some (Text.signedNumeral i)
  | .float x => some (NumberFormat.document.render x)
  | .string s => some s
  | .tagged _ v => v.scalarText?
  | .sequence _ | .mapping _ => none

end Value

end LayeredConfig
