import LayeredConfig.Value.Basic

/-!
# A tree without nulls

A format that cannot write null gets the tree without its nulls: entries whose value is null and
items that are null are left out, at every depth. A tag on a null does not save it. What stands
below a tag is kept as it is.
-/

namespace LayeredConfig

mutual
/-- The value without the nulls inside it. -/
def Value.withoutNulls : Value → Value
  | .mapping entries => .mapping (Tree.withoutNulls entries)
  | .sequence items => .sequence (Value.itemsWithoutNulls items)
  | v => v

/-- The items that are not null, each without the nulls inside it. -/
def Value.itemsWithoutNulls : List Value → List Value
  | [] => []
  | v :: r =>
    if v.isNull then Value.itemsWithoutNulls r
    else v.withoutNulls :: Value.itemsWithoutNulls r

/-- The entries whose value is not null, each without the nulls inside it. -/
def Tree.withoutNulls : List (Value × Value) → Tree
  | [] => []
  | (k, v) :: r =>
    if v.isNull then Tree.withoutNulls r
    else (k, v.withoutNulls) :: Tree.withoutNulls r
end

end LayeredConfig
