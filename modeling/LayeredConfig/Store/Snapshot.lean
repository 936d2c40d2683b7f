import LayeredConfig.Store.Reader

/-!
# What was found at some paths

A snapshot holds what was found at the paths that were looked at, each with the place that the path
leads to. A path that was not looked at counts as one without a file. A program that reads files one
at a time keeps what it found in a snapshot, and looks at one more path whenever a load ends because
a file is missing.
-/

namespace LayeredConfig

/-- What was found at one path. -/
structure Finding where
  /-- The path. -/
  path : FilePath
  /-- What was found. -/
  content : Content
  /-- The place that the path leads to. -/
  place : FilePath

/-- What was found at some paths. -/
structure Snapshot where
  /-- The findings. -/
  findings : List Finding

namespace Snapshot

/-- What was found at a path, if it was looked at. -/
def find? (s : Snapshot) (p : FilePath) : Option Finding :=
  s.findings.find? (·.path = p)

/-- The snapshot with one more finding. -/
def add (s : Snapshot) (f : Finding) : Snapshot :=
  ⟨f :: s.findings⟩

/-- What is found at a path. -/
def look (s : Snapshot) (p : FilePath) : Content :=
  match s.find? p with
  | some f => f.content
  | none => .absent

/-- The place that a path leads to; a path that was not looked at is folded. -/
def identity (s : Snapshot) (p : FilePath) : FilePath :=
  match s.find? p with
  | some f => f.place
  | none => p.normalize

theorem identity_mem_of_look {s : Snapshot} {p : FilePath} (h : s.look p ≠ .absent) :
    s.identity p ∈ s.findings.map Finding.place := by
  unfold look at h
  split at h
  · rename_i f hf
    simp only [identity, hf]
    exact List.mem_map_of_mem (List.mem_of_find?_eq_some hf)
  · exact absurd rfl h

/-- The snapshot as a source of documents. -/
def reader (s : Snapshot) : Reader where
  look := s.look
  identity := s.identity
  places := s.findings.map Finding.place
  identity_mem _ := identity_mem_of_look

end Snapshot

end LayeredConfig
