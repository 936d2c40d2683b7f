import LayeredConfig.Tree.DottedPath
import LayeredConfig.Tree.Location

/-!
# Where a dotted path leads

A dotted path names a place by the texts of keys, a location by the keys themselves. Two paths may
name one place, such as `list.0` and `list.+0`; a location is the way to one place only.
`Tree.locate?` takes a path to the location that it leads to, and reading the path is reading the
location (`Tree.get?_eq_some_iff_locate?`). A location goes on inside of what it leads to
(`Value.at?_append`).
-/

namespace LayeredConfig

namespace Value

variable {v x : Value} {segment : String} {segments : List String} {step : Step} {l : Location}

/-- The step that a segment names in a container. -/
def step? (segment : String) : Value → Option Step
  | .mapping t => (Tree.keyNamed? segment t).map .key
  | .sequence _ => (segmentIndex? segment).map .index
  | _ => none

/-- The location that segments lead to. -/
def locate? : List String → Value → Option Location
  | [], _ => some []
  | s :: r, v =>
    (v.step? s).bind fun step ↦ (v.child? s).bind fun c ↦ (locate? r c).map (step :: ·)

/-- Going on from a location is going on from what it leads to. -/
theorem at?_append (l r : Location) (v : Value) : v.at? (l ++ r) = (v.at? l).bind (at? r) := by
  induction l generalizing v with
  | nil => rfl
  | cons step l ih =>
    cases v with
    | mapping t =>
      cases step with
      | key k =>
        simp only [List.cons_append, at?, Option.bind_assoc]
        exact congrArg (Option.bind _) (funext ih)
      | index i => rfl
    | sequence items =>
      cases step with
      | key k => rfl
      | index i =>
        simp only [List.cons_append, at?, Option.bind_assoc]
        exact congrArg (Option.bind _) (funext ih)
    | null | bool _ | int _ | float _ | string _ | tagged _ _ => simp [at?]

/-- The part that a segment names stands behind the step that it names. -/
theorem at?_cons_of_step? (h : v.step? segment = some step) (r : Location) :
    v.at? (step :: r) = (v.child? segment).bind (at? r) := by
  cases v with
  | mapping t =>
    obtain ⟨k, hk, rfl⟩ := Option.map_eq_some_iff.1 h
    rw [at?, child?, hk, Option.bind_some]
  | sequence items =>
    obtain ⟨i, hi, rfl⟩ := Option.map_eq_some_iff.1 h
    rw [at?, child?, hi, Option.bind_some]
  | null | bool _ | int _ | float _ | string _ | tagged _ _ => cases h

/-- A segment that names a part names the step to it. -/
theorem exists_step?_of_child? (h : v.child? segment = some x) :
    ∃ step, v.step? segment = some step := by
  cases v with
  | mapping t =>
    obtain ⟨k, hk, -⟩ := Option.bind_eq_some_iff.1 h
    exact ⟨.key k, by rw [step?, hk, Option.map_some]⟩
  | sequence items =>
    obtain ⟨i, hi, -⟩ := Option.bind_eq_some_iff.1 h
    exact ⟨.index i, by rw [step?, hi, Option.map_some]⟩
  | null | bool _ | int _ | float _ | string _ | tagged _ _ => cases h

/-- What stands at the location of segments is what the segments lead to. -/
theorem at?_of_locate? (h : v.locate? segments = some l) : v.at? l = v.descend? segments := by
  induction segments generalizing v l with
  | nil =>
    obtain rfl : [] = l := Option.some.inj h
    rfl
  | cons s r ih =>
    obtain ⟨step, hstep, h⟩ := Option.bind_eq_some_iff.1 h
    obtain ⟨c, hc, h⟩ := Option.bind_eq_some_iff.1 h
    obtain ⟨l', hl', rfl⟩ := Option.map_eq_some_iff.1 h
    rw [at?_cons_of_step? hstep, descend?, hc]
    exact ih hl'

/-- Segments that lead somewhere have a location. -/
theorem exists_locate?_of_descend? (h : v.descend? segments = some x) :
    ∃ l, v.locate? segments = some l := by
  induction segments generalizing v with
  | nil => exact ⟨[], rfl⟩
  | cons s r ih =>
    obtain ⟨c, hc, h⟩ := Option.bind_eq_some_iff.1 h
    obtain ⟨step, hstep⟩ := exists_step?_of_child? hc
    obtain ⟨l, hl⟩ := ih h
    exact ⟨step :: l, by simp [locate?, hstep, hc, hl]⟩

end Value

namespace Tree

variable {t : Tree} {path : String} {v : Value}

/-- The location that a path leads to. -/
def locate? (t : Tree) (path : String) : Option Location :=
  if path = "" then none else (Value.mapping t).locate? (segments path)

/-- **Reading a path is reading its location.** -/
theorem get?_eq_some_iff_locate? :
    t.get? path = some v ↔ ∃ l, t.locate? path = some l ∧ t.at? l = some v := by
  rw [get?, locate?]
  split
  · simp
  · constructor
    · intro h
      obtain ⟨l, hl⟩ := Value.exists_locate?_of_descend? h
      exact ⟨l, hl, (Value.at?_of_locate? hl).trans h⟩
    · rintro ⟨l, hl, hv⟩
      exact (Value.at?_of_locate? hl).symm.trans hv

end Tree

end LayeredConfig
