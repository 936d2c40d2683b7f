import LayeredConfig.Tree.Entries

/-!
# Laying one tree over another

`Tree.merge base overlay` is the tree of two layers. Where both have a mapping under a key, the two
are merged in turn; anything else in the overlay takes the place of what the base has there. Keys of
the base keep their places, new keys follow in the overlay's order.
-/

namespace LayeredConfig

mutual
/-- What stands under a key when a layer brings `v` for it and the layers below have `below`. -/
def Value.over (v : Value) (below : Option Value) : Value :=
  match v, below with
  | .mapping overlay, some (.mapping base) => .mapping (Tree.mergeEntries overlay base)
  | v, _ => v

/-- Lays entries over a tree, one after another. -/
def Tree.mergeEntries (overlay : List (Value × Value)) (base : Tree) : Tree :=
  match overlay with
  | [] => base
  | (k, v) :: r => Tree.mergeEntries r (base.insert k (Value.over v (base.find? k)))
end

/-- The tree with `overlay` laid over `base`. -/
def Tree.merge (base overlay : Tree) : Tree :=
  Tree.mergeEntries overlay base

@[simp] theorem Tree.merge_nil (base : Tree) : base.merge [] = base := rfl

theorem Tree.merge_cons (base : Tree) (k v : Value) (r : Tree) :
    base.merge ((k, v) :: r) = (base.insert k (v.over (base.find? k))).merge r := rfl

end LayeredConfig
