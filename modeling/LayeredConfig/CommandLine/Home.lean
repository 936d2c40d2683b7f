import LayeredConfig.Placeholder.Scope
import LayeredConfig.Store.FilePath
import LayeredConfig.Text.Numeral

/-!
# The home directory

An environment variable names the home directory. Where it is not set, or set to nothing
(`homeDirectory_of_unnamed`), the list of accounts tells the directory of the user, who is known by
a number. There may be none at all: a directory is never made up, and the empty path is none
(`homeDirectory_ne_empty`).
-/

namespace LayeredConfig

/-- The environment variable that names the home directory. -/
def homeVariable : String := "HOME"

/-- The directory on a line of the list of accounts, if the line is that of the user. A line has its
fields between colons: a name, a password, the number of the user, that of a group, a comment, the
directory and a program. -/
def accountHome? (user : Nat) (line : String) : Option String :=
  match Text.split ':' line with
  | _ :: _ :: number :: _ :: _ :: home :: _ =>
    if Text.ofDigits? 10 number.toList = some user then some home else none
  | _ => none

/-- The path with this text, if there is any text. -/
def nonemptyPath? (text : String) : Option FilePath :=
  if text = "" then none else some ⟨text⟩

/-- The home directory of a user, if there is one. -/
def homeDirectory (environment : Environment) (accounts : List String) (user : Option Nat) :
    Option FilePath :=
  match (environment homeVariable).bind nonemptyPath? with
  | some home => some home
  | none => do
    let number ← user
    let text ← accounts.findSome? (accountHome? number)
    nonemptyPath? text

theorem nonemptyPath?_ne_empty {text : String} {p : FilePath} (h : nonemptyPath? text = some p) :
    p.text ≠ "" := by
  rw [nonemptyPath?] at h
  split at h
  · cases h
  · obtain rfl := Option.some.inj h
    assumption

/-- A home directory is never the empty path. -/
theorem homeDirectory_ne_empty {environment : Environment} {accounts : List String}
    {user : Option Nat} {home : FilePath}
    (h : homeDirectory environment accounts user = some home) : home.text ≠ "" := by
  rw [homeDirectory] at h
  split at h
  · rename_i named hnamed
    obtain rfl := Option.some.inj h
    obtain ⟨text, -, htext⟩ := Option.bind_eq_some_iff.1 hnamed
    exact nonemptyPath?_ne_empty htext
  · obtain ⟨number, -, h⟩ := Option.bind_eq_some_iff.1 h
    obtain ⟨text, -, htext⟩ := Option.bind_eq_some_iff.1 h
    exact nonemptyPath?_ne_empty htext

/-- A variable that is set to nothing counts as one that is not set. -/
theorem homeDirectory_of_unnamed {environment : Environment}
    (h : ∀ text ∈ environment homeVariable, text = "") (accounts : List String)
    (user : Option Nat) :
    homeDirectory environment accounts user = homeDirectory (fun _ ↦ none) accounts user := by
  have hnone : (environment homeVariable).bind nonemptyPath? = none :=
    Option.bind_eq_none_iff.2 fun text htext ↦ if_pos (h text htext)
  rw [homeDirectory, homeDirectory, hnone, Option.bind_none]

example : homeDirectory (fun _ ↦ some "") ["root:x:0:0::/root:/bin/sh", "ann:x:7:7::/home/ann:"]
    (some 7) = some ⟨"/home/ann"⟩ := by decide

end LayeredConfig
