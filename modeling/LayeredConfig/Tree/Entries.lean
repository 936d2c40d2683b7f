import LayeredConfig.Value.Same

/-!
# Entries of a tree

Look-up, insertion and removal by key, keys compared by `Value.same`. Insertion under a key that is
there already keeps that key and its place and changes the value only; a new key goes to the end.
Removal keeps the order of what is left.
-/

namespace LayeredConfig

namespace Tree

/-- The value under a key. -/
def find? (k : Value) : Tree → Option Value
  | [] => none
  | (k', v) :: r => if k'.same k then some v else find? k r

/-- The tree has an entry under the key. -/
def contains (k : Value) (t : Tree) : Bool :=
  (find? k t).isSome

/-- The tree with `v` under the key `k`. -/
def insert (k v : Value) : Tree → Tree
  | [] => [(k, v)]
  | (k', v') :: r => if k'.same k then (k', v) :: r else (k', v') :: insert k v r

/-- The tree without the entry under the key. -/
def erase (k : Value) : Tree → Tree
  | [] => []
  | (k', v') :: r => if k'.same k then r else (k', v') :: erase k r

/-- The tree that has the given entries, later ones replacing earlier ones of the same key. -/
def ofEntries (entries : List (Value × Value)) : Tree :=
  entries.foldl (fun t e ↦ insert e.1 e.2 t) []

/-- The keys in order. -/
def keys (t : Tree) : List Value :=
  t.map Prod.fst

/-- Erasing a key that is not there changes nothing. -/
theorem erase_of_find?_eq_none {k : Value} {t : Tree} (h : find? k t = none) : erase k t = t := by
  induction t with
  | nil => rfl
  | cons e r ih =>
    simp only [find?] at h
    split at h
    · simp at h
    · rename_i hk
      simp [erase, hk, ih h]

end Tree

end LayeredConfig
