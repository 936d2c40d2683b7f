import LayeredConfig.CommandLine.Home
import LayeredConfig.CommandLine.Outcome
import LayeredConfig.Store.Snapshot

/-!
# The program

Reads the command line, the environment and the files, and writes the outcome. Files are looked at
one by one: the entry and the documents that may hold the defaults at first, and then every import
that a load misses. What is not well-formed on the command line ends the program with status 2, any
other failure with status 1.
-/

namespace LayeredConfig

/-- The text of a file, if it is one. -/
def readText (p : FilePath) : IO Content := do
  try
    let bytes ← IO.FS.readBinFile p.text
    return match String.fromUTF8? bytes with
      | some s => .text s
      | none => .unreadable
  catch _ => return .unreadable

/-- Looks at a path. -/
def lookAt (p : FilePath) : IO Finding := do
  try
    let real ← IO.FS.realPath p.text
    let info ← real.metadata
    let place : FilePath := ⟨real.toString⟩
    let content ← if info.type == .file then readText place else pure .absent
    return ⟨p, content, place⟩
  catch _ => return ⟨p, .absent, p.normalize⟩

/-- The environment variables of the program. Each is set in octets up to one that is zero, and one
that is no text counts as not set. -/
def readEnvironment : IO Environment := do
  let bytes ← try IO.FS.readBinFile "/proc/self/environ" catch _ => pure .empty
  let settings := (bytes.data.toList.splitBy fun _ o ↦ o ≠ 0).filterMap fun octets ↦
    String.fromUTF8? ⟨(octets.filter (· ≠ 0)).toArray⟩
  let pairs := settings.map fun s ↦
    let name := s.toList.takeWhile (· ≠ '=')
    (String.ofList name, String.ofList (s.toList.drop (name.length + 1)))
  return fun name ↦ pairs.lookup name

/-- The lines of a file; none where there is no text to read. -/
def readLines (p : FilePath) : IO (List String) := do
  match ← readText p with
  | .text s => return Text.split '\n' s
  | _ => return []

/-- The number of the user for whom the program runs. -/
def readUser : IO (Option Nat) := do
  let status ← readLines ⟨"/proc/self/status"⟩
  return status.findSome? fun line ↦
    match Text.split '\t' line with
    | "Uid:" :: number :: _ => Text.ofDigits? 10 number.toList
    | _ => none

/-- The home directory of the user, if there is one. -/
def readHome (environment : Environment) : IO (Option FilePath) := do
  let accounts ← readLines ⟨"/etc/passwd"⟩
  let user ← readUser
  return homeDirectory environment accounts user

/-- The host with what was found so far. -/
def hostOf (environment : Environment) (home : Option FilePath) (s : Snapshot) : Host :=
  ⟨s.reader, environment, home⟩

/-- Looks at every import that a load misses, until it misses none that was not looked at. `host`
is the host with what was found so far. -/
partial def settle (host : Snapshot → Host) (c : Command) (s : Snapshot) : IO Snapshot := do
  match (c.loader (host s)).load with
  | .error (.missingImport path _) =>
    -- An import that is missing although it was looked at does not exist.
    if (s.find? path).isSome then return s
    let finding ← lookAt path
    settle host c (s.add finding)
  | _ => return s

end LayeredConfig

open LayeredConfig

/-- Runs the program. -/
def main (args : List String) : IO UInt32 := do
  let environment ← readEnvironment
  let host := hostOf environment (← readHome environment)
  let request := Request.read environment args
  let mut snapshot : Snapshot := ⟨[]⟩
  if let .run c := request then
    for path in c.path :: DefaultLayer.candidates (frameworkRoot environment) do
      let finding ← lookAt path
      snapshot := snapshot.add finding
    snapshot ← settle host c snapshot
  match request.answer? (host snapshot) with
  | some outcome =>
    IO.print outcome.output
    unless outcome.error.isEmpty do IO.eprintln outcome.error
    return if outcome.succeeded then 0 else 1
  | none =>
    IO.eprint usage
    return 2
