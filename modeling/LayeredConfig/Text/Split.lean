/-!
# Splitting a text at a separator

`splitOn sep cs` cuts a list of characters at every `sep`. It never answers the empty list: a text
without a separator is one piece, and `n` separators give `n + 1` pieces. `cutLast` cuts once, at
the last separator, and agrees with the full split (`splitOn_eq_of_cutLast`). `joinWith` puts pieces
together, which splitting undoes (`split_joinWith`).
-/

namespace LayeredConfig.Text

/-- The pieces of `cs` between its separators, outer pieces included. -/
def splitOn (sep : Char) : List Char → List (List Char)
  | [] => [[]]
  | c :: r =>
    if c = sep then [] :: splitOn sep r
    else match splitOn sep r with
      | [] => [[c]]
      | piece :: pieces => (c :: piece) :: pieces

theorem splitOn_ne_nil (sep : Char) (cs : List Char) : splitOn sep cs ≠ [] := by
  induction cs with
  | nil => simp [splitOn]
  | cons c r _ =>
    simp only [splitOn]
    split
    · simp
    · split <;> simp

/-- The pieces of a text between its separators. -/
def split (sep : Char) (s : String) : List String :=
  (splitOn sep s.toList).map String.ofList

/-- The parts before and after the last separator; `none` when there is no separator. -/
def cutLast (sep : Char) : List Char → Option (List Char × List Char)
  | [] => none
  | c :: r =>
    match cutLast sep r with
    | some (before, after) => some (c :: before, after)
    | none => if c = sep then some ([], r) else none

theorem splitOn_of_cutLast_eq_none {sep : Char} {cs : List Char} (h : cutLast sep cs = none) :
    splitOn sep cs = [cs] := by
  induction cs with
  | nil => rfl
  | cons c r ih =>
    simp only [cutLast] at h
    split at h
    · simp at h
    · rename_i hr
      split at h
      · simp at h
      · rename_i hc
        simp [splitOn, hc, ih hr]

theorem splitOn_eq_of_cutLast {sep : Char} {cs before after : List Char}
    (h : cutLast sep cs = some (before, after)) :
    splitOn sep cs = splitOn sep before ++ [after] := by
  induction cs generalizing before with
  | nil => simp [cutLast] at h
  | cons c r ih =>
    simp only [cutLast] at h
    split at h
    · rename_i b a hr
      simp only [Option.some.injEq, Prod.mk.injEq] at h
      obtain ⟨rfl, rfl⟩ := h
      by_cases hc : c = sep
      · simp [splitOn, hc, ih hr]
      · simp only [splitOn, hc, if_false, ih hr]
        cases hb : splitOn sep b with
        | nil => exact absurd hb (splitOn_ne_nil sep b)
        | cons piece pieces => simp
    · rename_i hr
      split at h
      · rename_i hc
        simp only [Option.some.injEq, Prod.mk.injEq] at h
        obtain ⟨rfl, rfl⟩ := h
        simp [splitOn, hc, splitOn_of_cutLast_eq_none hr]
      · simp at h

/-! ### Joining -/

/-- The pieces one after another with `sep` between two of them. -/
def joinWith (sep : String) : List String → String
  | [] => ""
  | [s] => s
  | s :: r => s ++ sep ++ joinWith sep r

/-- A text without a separator is one piece. -/
theorem splitOn_of_not_mem {sep : Char} {cs : List Char} (h : sep ∉ cs) :
    splitOn sep cs = [cs] := by
  induction cs with
  | nil => rfl
  | cons c r ih =>
    have hc : c ≠ sep := fun hc ↦ h (hc ▸ List.mem_cons_self)
    rw [splitOn, if_neg hc, ih fun hr ↦ h (List.mem_cons_of_mem _ hr)]

/-- The first separator ends the first piece. -/
theorem splitOn_append_cons {sep : Char} {before : List Char} (h : sep ∉ before)
    (after : List Char) : splitOn sep (before ++ sep :: after) = before :: splitOn sep after := by
  induction before with
  | nil => simp [splitOn]
  | cons c r ih =>
    have hc : c ≠ sep := fun hc ↦ h (hc ▸ List.mem_cons_self)
    rw [List.cons_append, splitOn, if_neg hc, ih fun hr ↦ h (List.mem_cons_of_mem _ hr)]

/-- No piece holds the separator. -/
theorem not_mem_of_mem_splitOn {sep : Char} {cs piece : List Char} (h : piece ∈ splitOn sep cs) :
    sep ∉ piece := by
  induction cs generalizing piece with
  | nil =>
    rw [List.mem_singleton.1 h]
    exact List.not_mem_nil
  | cons c r ih =>
    rw [splitOn] at h
    split at h
    · rcases List.mem_cons.1 h with rfl | h
      · exact List.not_mem_nil
      · exact ih h
    · rename_i hc
      split at h
      · rename_i hr
        exact absurd hr (splitOn_ne_nil sep r)
      · rename_i first rest hr
        rcases List.mem_cons.1 h with rfl | h
        · rw [List.mem_cons, not_or]
          exact ⟨fun hsep ↦ hc hsep.symm, ih (hr ▸ List.mem_cons_self)⟩
        · exact ih (hr ▸ List.mem_cons_of_mem _ h)

theorem not_mem_of_mem_split {sep : Char} {s piece : String} (h : piece ∈ split sep s) :
    sep ∉ piece.toList := by
  obtain ⟨cs, hcs, rfl⟩ := List.mem_map.1 h
  rw [String.toList_ofList]
  exact not_mem_of_mem_splitOn hcs

/-- **Joined pieces are split again**, if none of them holds the separator. -/
theorem split_joinWith {sep : Char} {pieces : List String} (hne : pieces ≠ [])
    (h : ∀ s ∈ pieces, sep ∉ s.toList) :
    split sep (joinWith (String.singleton sep) pieces) = pieces := by
  induction pieces with
  | nil => exact absurd rfl hne
  | cons s r ih =>
    have hs : sep ∉ s.toList := h s List.mem_cons_self
    cases r with
    | nil => rw [joinWith, split, splitOn_of_not_mem hs, List.map_singleton, String.ofList_toList]
    | cons s' r =>
      have ih := ih (List.cons_ne_nil _ _) fun t ht ↦ h t (List.mem_cons_of_mem _ ht)
      have hjoin : joinWith (String.singleton sep) (s :: s' :: r) =
          s ++ String.singleton sep ++ joinWith (String.singleton sep) (s' :: r) := rfl
      rw [split] at ih
      rw [hjoin, split, String.toList_append, String.toList_append, String.toList_singleton,
        List.append_assoc, List.singleton_append, splitOn_append_cons hs, List.map_cons, ih,
        String.ofList_toList]

end LayeredConfig.Text
