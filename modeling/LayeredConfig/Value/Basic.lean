import LayeredConfig.Number.Binary64

/-!
# Configuration values

A configuration is a tree: an ordered list of entries, each a key and a value, where both are values
of the one type `Value`. Documents of every format are read into it, all rules of the library work
on it, and it is written back in every format.

A mapping is kept as the list of its entries in order. That no two keys of a mapping are the same is
the predicate `Value.WellFormed` of the module `LayeredConfig.Value.WellFormed`, and not part of the
type, so that the recursion on values stays structural.

Equality is decidable and means equality of the representation. Keys are compared by the coarser
`Value.same` of the module `LayeredConfig.Value.Same`.
-/

namespace LayeredConfig

/-- A configuration value. Documents bring integers from `-2 ^ 63` to `2 ^ 64 - 1`. A tag is kept
without its leading exclamation mark. -/
inductive Value where
  /-- The absent value. -/
  | null
  /-- A truth value. -/
  | bool (b : Bool)
  /-- A whole number. -/
  | int (i : Int)
  /-- A floating point number. -/
  | float (x : Binary64)
  /-- A text. -/
  | string (s : String)
  /-- A list of values. -/
  | sequence (items : List Value)
  /-- Entries in order. -/
  | mapping (entries : List (Value × Value))
  /-- A value under an application's own tag. -/
  | tagged (tag : String) (content : Value)
deriving Inhabited

/-- A configuration tree: the entries of a mapping, in order. -/
abbrev Tree := List (Value × Value)

namespace Value

/-! ### Equality is decidable -/

mutual
/-- Decides equality of values. -/
def decEq : (a b : Value) → Decidable (a = b)
  | .null, .null => isTrue rfl
  | .bool a, .bool b => if h : a = b then isTrue (by rw [h]) else isFalse (by simp [h])
  | .int a, .int b => if h : a = b then isTrue (by rw [h]) else isFalse (by simp [h])
  | .float a, .float b => if h : a = b then isTrue (by rw [h]) else isFalse (by simp [h])
  | .string a, .string b => if h : a = b then isTrue (by rw [h]) else isFalse (by simp [h])
  | .sequence a, .sequence b =>
    match decEqItems a b with
    | isTrue h => isTrue (by rw [h])
    | isFalse h => isFalse (by simp [h])
  | .mapping a, .mapping b =>
    match decEqEntries a b with
    | isTrue h => isTrue (by rw [h])
    | isFalse h => isFalse (by simp [h])
  | .tagged s a, .tagged t b =>
    if hs : s = t then
      match decEq a b with
      | isTrue h => isTrue (by rw [hs, h])
      | isFalse h => isFalse (by simp [h])
    else isFalse (by simp [hs])
  | .null, .bool _ | .null, .int _ | .null, .float _ | .null, .string _ | .null, .sequence _
  | .null, .mapping _ | .null, .tagged .. | .bool _, .null | .bool _, .int _ | .bool _, .float _
  | .bool _, .string _ | .bool _, .sequence _ | .bool _, .mapping _ | .bool _, .tagged ..
  | .int _, .null | .int _, .bool _ | .int _, .float _ | .int _, .string _ | .int _, .sequence _
  | .int _, .mapping _ | .int _, .tagged .. | .float _, .null | .float _, .bool _
  | .float _, .int _ | .float _, .string _ | .float _, .sequence _ | .float _, .mapping _
  | .float _, .tagged .. | .string _, .null | .string _, .bool _ | .string _, .int _
  | .string _, .float _ | .string _, .sequence _ | .string _, .mapping _ | .string _, .tagged ..
  | .sequence _, .null | .sequence _, .bool _ | .sequence _, .int _ | .sequence _, .float _
  | .sequence _, .string _ | .sequence _, .mapping _ | .sequence _, .tagged ..
  | .mapping _, .null | .mapping _, .bool _ | .mapping _, .int _ | .mapping _, .float _
  | .mapping _, .string _ | .mapping _, .sequence _ | .mapping _, .tagged ..
  | .tagged .., .null | .tagged .., .bool _ | .tagged .., .int _ | .tagged .., .float _
  | .tagged .., .string _ | .tagged .., .sequence _ | .tagged .., .mapping _ => isFalse nofun

/-- Decides equality of lists of values. -/
def decEqItems : (a b : List Value) → Decidable (a = b)
  | [], [] => isTrue rfl
  | a :: r, b :: s =>
    match decEq a b with
    | isTrue h =>
      match decEqItems r s with
      | isTrue h' => isTrue (by rw [h, h'])
      | isFalse h' => isFalse (by simp [h'])
    | isFalse h => isFalse (by simp [h])
  | [], _ :: _ | _ :: _, [] => isFalse nofun

/-- Decides equality of lists of entries. -/
def decEqEntries : (a b : List (Value × Value)) → Decidable (a = b)
  | [], [] => isTrue rfl
  | (k, v) :: r, (l, w) :: s =>
    match decEq k l with
    | isTrue hk =>
      match decEq v w with
      | isTrue hv =>
        match decEqEntries r s with
        | isTrue h => isTrue (by rw [hk, hv, h])
        | isFalse h => isFalse (by simp [h])
      | isFalse h => isFalse (by simp [h])
    | isFalse h => isFalse (by simp [h])
  | [], _ :: _ | _ :: _, [] => isFalse nofun
end

instance : DecidableEq Value := decEq

/-! ### Tags -/

/-- The name of a tag: what stands behind its exclamation mark, if anything does. -/
def tagName (tag : String) : String :=
  match tag.toList with
  | '!' :: c :: r => String.ofList (c :: r)
  | _ => tag

/-! ### Kinds of values -/

/-- The value below all its tags. -/
def untagged : Value → Value
  | .tagged _ v => v.untagged
  | v => v

/-- A string, tagged or not. -/
def isString (v : Value) : Bool :=
  match v.untagged with
  | .string _ => true
  | _ => false

/-- Null, tagged or not. -/
def isNull (v : Value) : Bool :=
  match v.untagged with
  | .null => true
  | _ => false

/-- A mapping, tagged or not. -/
def isMapping (v : Value) : Bool :=
  match v.untagged with
  | .mapping _ => true
  | _ => false

/-- A mapping or a sequence, tagged or not. -/
def isContainer (v : Value) : Bool :=
  match v.untagged with
  | .mapping _ | .sequence _ => true
  | _ => false

mutual
/-- Somewhere in the value, keys included, there is a tag. -/
def hasTag : Value → Bool
  | .tagged .. => true
  | .sequence items => itemsHaveTag items
  | .mapping entries => entriesHaveTag entries
  | _ => false

/-- Somewhere in the items there is a tag. -/
def itemsHaveTag : List Value → Bool
  | [] => false
  | v :: r => v.hasTag || itemsHaveTag r

/-- Somewhere in the entries there is a tag. -/
def entriesHaveTag : List (Value × Value) → Bool
  | [] => false
  | (k, v) :: r => k.hasTag || v.hasTag || entriesHaveTag r
end

/-- The strings of a list that holds nothing but strings. -/
def strings? : List Value → Option (List String)
  | [] => some []
  | .string s :: r => (strings? r).map (s :: ·)
  | _ :: _ => none

end Value

end LayeredConfig
