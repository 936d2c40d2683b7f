/-!
# Where placeholder values come from

Environment variables are a function from names to values, constants a table that can be extended.
A `Scope` holds both, and says whether a placeholder without a value is an error.
-/

namespace LayeredConfig

/-- Environment variables by name. -/
abbrev Environment := String → Option String

/-- A table of named constants, no name twice. -/
structure Constants where
  /-- Names with their values. -/
  entries : List (String × String)
deriving DecidableEq

namespace Constants

/-- The table without constants. -/
def empty : Constants := ⟨[]⟩

/-- The value of a constant. -/
def get? (c : Constants) (name : String) : Option String :=
  c.entries.lookup name

/-- The table with a constant added or replaced. -/
def insert (c : Constants) (name value : String) : Constants :=
  ⟨(name, value) :: c.entries.filter (·.1 ≠ name)⟩

/-- The constants that every configuration has: the line terminator, the separator of path
components and the separator of search path entries, each under two names. -/
def builtin : Constants :=
  ⟨[("LINE_SEP", "\n"), ("PHP_EOL", "\n"), ("DIR_SEP", "/"), ("DIRECTORY_SEPARATOR", "/"),
    ("PATH_SEP", ":"), ("PATH_SEPARATOR", ":")]⟩

/-- A constant that was put in is found. -/
theorem get?_insert_self (c : Constants) (name value : String) :
    (c.insert name value).get? name = some value := by
  simp [insert, get?]

end Constants

/-- What placeholders are replaced from. -/
structure Scope where
  /-- Values of `%env(…)%`. -/
  environment : Environment
  /-- Values of `%const(…)%`. -/
  constants : Constants
  /-- A placeholder without a value is an error, and not null. -/
  strict : Bool

end LayeredConfig
