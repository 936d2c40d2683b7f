import LayeredConfig.Store.Reader

/-!
# A tree of files

Files, directories and symbolic links below a root, and a directory that relative paths start from.
A path is followed name by name: `..` leads to the directory above the one that was reached, a link
leads on to its target, and nothing lies below a file, not even the empty name behind a separator at
the end. At most 40 links are followed.

`FileTree.follow?` answers the place that a path leads to with what lies there
(`find?_eq_of_follow?`), so all spellings of a file's path have one identity.
-/

namespace LayeredConfig

/-- A place below the root: the names on the way to it. -/
abbrev Place := List String

/-- What lies at a place. -/
inductive FileNode where
  /-- A file with its bytes. -/
  | file (bytes : ByteArray)
  /-- A directory. -/
  | directory
  /-- A link with the path that it leads on to. -/
  | link (target : String)

/-- A tree of files. -/
structure FileTree where
  /-- What lies below the root, by place. -/
  nodes : List (Place × FileNode)
  /-- The directory that relative paths start from. -/
  current : Place

namespace FileTree

/-- What lies at a place; the root is a directory. -/
def find? (t : FileTree) : Place → Option FileNode
  | [] => some .directory
  | place => t.nodes.lookup place

/-- Where a path starts. -/
def startOf (path : String) (current : Place) : Place :=
  if path.toList.head? = some '/' then [] else current

/-- Follows names from a directory; `onLink` goes on from a link with the names behind it. -/
def followNames (t : FileTree) (onLink : Place → List String → Option (Place × FileNode))
    (here : Place) : List String → Option (Place × FileNode)
  | [] => some (here, .directory)
  | name :: r =>
    if name = "" ∨ name = "." then followNames t onLink here r
    else if name = ".." then followNames t onLink here.dropLast r
    else
      let place := here ++ [name]
      match t.find? place with
      | none => none
      | some .directory => followNames t onLink place r
      -- Even a separator at the end asks for something below the file.
      | some (.file bytes) => if r = [] then some (place, .file bytes) else none
      | some (.link target) => onLink (startOf target here) (Text.split '/' target ++ r)

/-- Follows names from a directory over at most `links` links. -/
def followLinks (t : FileTree) : (links : Nat) → Place → List String → Option (Place × FileNode)
  | 0 => t.followNames fun _ _ ↦ none
  | links + 1 => t.followNames (t.followLinks links)

/-- How many links a path may lead over. -/
def maxLinks : Nat := 40

/-- The place that a path leads to, and what lies there. The empty path leads nowhere, nor does one
with a null character. -/
def follow? (t : FileTree) (p : FilePath) : Option (Place × FileNode) :=
  if p.text = "" ∨ p.text.toList.any (·.toNat = 0) then none
  else t.followLinks maxLinks (startOf p.text t.current) (Text.split '/' p.text)

/-- What is found at a path. A directory is no file. -/
def look (t : FileTree) (p : FilePath) : Content :=
  match t.follow? p with
  | some (_, .file bytes) =>
    match String.fromUTF8? bytes with
    | some s => .text s
    | none => .unreadable
  | _ => .absent

/-- The path of a place from the root. -/
def pathOf (place : Place) : FilePath :=
  ⟨"/" ++ Text.joinWith "/" place⟩

/-- The path of the place that a path leads to; a path that leads nowhere is folded. -/
def identity (t : FileTree) (p : FilePath) : FilePath :=
  match t.follow? p with
  | some (place, _) => pathOf place
  | none => p.normalize

theorem find?_eq_of_followNames {t : FileTree}
    {onLink : Place → List String → Option (Place × FileNode)} {bytes : ByteArray} {place : Place}
    (honLink : ∀ here names, onLink here names = some (place, .file bytes) →
      t.find? place = some (.file bytes))
    {here : Place} {names : List String}
    (h : t.followNames onLink here names = some (place, .file bytes)) :
    t.find? place = some (.file bytes) := by
  induction names generalizing here with
  | nil => simp [followNames] at h
  | cons name r ih =>
    simp only [followNames] at h
    split at h
    · exact ih h
    · split at h
      · exact ih h
      · split at h
        · simp at h
        · exact ih h
        · rename_i hfile
          split at h
          · simp only [Option.some.injEq, Prod.mk.injEq] at h
            obtain ⟨rfl, hbytes⟩ := h
            rw [hfile, hbytes]
          · simp at h
        · exact honLink _ _ h

theorem find?_eq_of_followLinks {t : FileTree} {bytes : ByteArray} {place : Place} {links : Nat}
    {here : Place} {names : List String}
    (h : t.followLinks links here names = some (place, .file bytes)) :
    t.find? place = some (.file bytes) := by
  induction links generalizing here names with
  | zero => exact find?_eq_of_followNames (by simp) h
  | succ links ih => exact find?_eq_of_followNames (fun _ _ ↦ ih) h

/-- Where a path leads to a file, that file lies at the place. -/
theorem find?_eq_of_follow? {t : FileTree} {p : FilePath} {bytes : ByteArray} {place : Place}
    (h : t.follow? p = some (place, .file bytes)) : t.find? place = some (.file bytes) := by
  unfold follow? at h
  split at h
  · simp at h
  · exact find?_eq_of_followLinks h

theorem identity_mem_of_look {t : FileTree} {p : FilePath} (h : t.look p ≠ .absent) :
    t.identity p ∈ t.nodes.map fun n ↦ pathOf n.1 := by
  unfold look at h
  split at h
  · rename_i place bytes hfollow
    have hfind := find?_eq_of_follow? hfollow
    simp only [identity, hfollow]
    unfold find? at hfind
    split at hfind
    · simp at hfind
    · obtain ⟨before, after, heq, -⟩ := List.lookup_eq_some_iff.1 hfind
      simp [heq]
  · exact absurd rfl h

/-- The tree as a source of documents. -/
def reader (t : FileTree) : Reader where
  look := t.look
  identity := t.identity
  places := t.nodes.map fun n ↦ pathOf n.1
  identity_mem _ := identity_mem_of_look

end FileTree

end LayeredConfig
