import LayeredConfig.Store.Reader

/-!
# Documents in memory

A store of texts under folded paths: two paths that fold to the same path name the same document,
and a text that is put in replaces the one before. It is a source of documents in which every path
leads to itself, folded.
-/

namespace LayeredConfig

/-- The fault of asking for a text that is not there. -/
structure NotFound where
  /-- The path as it was asked for. -/
  path : FilePath
deriving DecidableEq

/-- The message for a reader. -/
def NotFound.message (e : NotFound) : String :=
  e.path.text

/-- Texts under folded paths. -/
structure MemoryStore where
  /-- The documents, the latest first. -/
  documents : List (FilePath × String)

namespace MemoryStore

/-- The store without documents. -/
def empty : MemoryStore := ⟨[]⟩

/-- The text under a path. -/
def get? (m : MemoryStore) (p : FilePath) : Option String :=
  m.documents.lookup p.normalize

/-- There is a text under the path. -/
def contains (m : MemoryStore) (p : FilePath) : Bool :=
  (m.get? p).isSome

/-- The text under a path, for one who cannot do without it. -/
def read (m : MemoryStore) (p : FilePath) : Except NotFound String :=
  match m.get? p with
  | some s => .ok s
  | none => .error ⟨p⟩

/-- The store with a text under a path. -/
def insert (m : MemoryStore) (p : FilePath) (text : String) : MemoryStore :=
  ⟨(p.normalize, text) :: m.documents.filter (·.1 ≠ p.normalize)⟩

/-- The store with the given texts, put in one after another. -/
def ofList (documents : List (FilePath × String)) : MemoryStore :=
  documents.foldl (fun m d ↦ m.insert d.1 d.2) empty

/-- What is found under a path. -/
def look (m : MemoryStore) (p : FilePath) : Content :=
  match m.get? p with
  | some s => .text s
  | none => .absent

theorem look_eq_text_iff {m : MemoryStore} {p : FilePath} {s : String} :
    m.look p = .text s ↔ m.get? p = some s := by
  unfold look
  split <;> simp_all

theorem normalize_mem_of_look {m : MemoryStore} {p : FilePath} (h : m.look p ≠ .absent) :
    p.normalize ∈ m.documents.map Prod.fst := by
  unfold look get? at h
  split at h
  · rename_i s hs
    obtain ⟨before, after, heq, -⟩ := List.lookup_eq_some_iff.1 hs
    simp [heq]
  · exact absurd rfl h

/-- The store as a source of documents. -/
def reader (m : MemoryStore) : Reader where
  look := m.look
  identity := FilePath.normalize
  places := m.documents.map Prod.fst
  identity_mem _ := normalize_mem_of_look

end MemoryStore

end LayeredConfig
