import LayeredConfig.Value.Basic

/-!
# When two keys are the same

`Value.same` compares keys. Kinds are kept apart: the integer `1`, the number `1.0` and the text `1`
are three keys. Numbers compare as numbers, so that the two zeros are one key and NaN is one key.
Sequences compare item by item, mappings without regard to the order of their entries.
-/

namespace LayeredConfig

namespace Value

mutual
/-- The two values are one and the same key. -/
def same : Value → Value → Bool
  | .null, .null => true
  | .bool a, .bool b => a == b
  | .int a, .int b => a == b
  | .float a, .float b => a.same b
  | .string a, .string b => a == b
  | .sequence a, .sequence b => sameItems a b
  | .mapping a, .mapping b => a.length == b.length && sameEntries a b
  | .tagged s a, .tagged t b => s == t && same a b
  | _, _ => false

/-- The same items in the same order. -/
def sameItems : List Value → List Value → Bool
  | [], [] => true
  | a :: r, b :: s => same a b && sameItems r s
  | _, _ => false

/-- Every entry of the first list is found in the second. -/
def sameEntries : List (Value × Value) → List (Value × Value) → Bool
  | [], _ => true
  | (k, v) :: r, s => s.any (fun e ↦ same k e.1 && same v e.2) && sameEntries r s
end

@[simp] theorem same_string (s t : String) :
    (Value.string s).same (.string t) = (s == t) := by
  simp [same]

end Value

end LayeredConfig
