import LayeredConfig.Value.Same

/-!
# Well-formed values

A value is well-formed when no mapping in it has the same key twice. Every value that a document
brings is well-formed, since a document with a repeated key is refused.
-/

namespace LayeredConfig

namespace Value

mutual
/-- No mapping in the value, at any depth, has the same key twice. -/
def WellFormed : Value → Prop
  | .sequence items => WellFormedItems items
  | .mapping entries =>
    entries.Pairwise (fun e f ↦ e.1.same f.1 = false) ∧ WellFormedEntries entries
  | .tagged _ v => WellFormed v
  | _ => True

/-- Every item is well-formed. -/
def WellFormedItems : List Value → Prop
  | [] => True
  | v :: r => WellFormed v ∧ WellFormedItems r

/-- Keys and values of all entries are well-formed. -/
def WellFormedEntries : List (Value × Value) → Prop
  | [] => True
  | (k, v) :: r => WellFormed k ∧ WellFormed v ∧ WellFormedEntries r
end

end Value

/-- A tree is well-formed when it is so as a mapping. -/
def Tree.WellFormed (t : Tree) : Prop :=
  (Value.mapping t).WellFormed

end LayeredConfig
