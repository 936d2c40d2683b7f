/-!
# Walks that visit no place twice

A walk that keeps the places it is in on a stack, and never enters a place that is on it, ends when
there are only so many places: `unvisited` counts those that are left, and entering one leaves fewer
(`unvisited_cons_lt`). Following imports and following references both end for this reason, and what
is proved of them is proved by `unvisited_induction`.
-/

namespace LayeredConfig

variable {α : Type} [DecidableEq α]

/-- How many of the places are not on the stack. -/
def unvisited (places stack : List α) : Nat :=
  places.countP (· ∉ stack)

theorem unvisited_cons_le (places stack : List α) (here : α) :
    unvisited places (here :: stack) ≤ unvisited places stack :=
  List.countP_mono_left fun _ _ h ↦ by
    simp only [List.mem_cons, not_or, decide_eq_true_eq] at h ⊢
    exact h.2

/-- Entering a place that is not on the stack leaves fewer to enter. -/
theorem unvisited_cons_lt {places stack : List α} {here : α} (hmem : here ∈ places)
    (hstack : here ∉ stack) : unvisited places (here :: stack) < unvisited places stack := by
  obtain ⟨before, after, rfl⟩ := List.append_of_mem hmem
  have hb := unvisited_cons_le before stack here
  have ha := unvisited_cons_le after stack here
  simp only [unvisited, List.countP_append, List.countP_cons, List.mem_cons, true_or,
    not_true_eq_false, decide_false, Bool.false_eq_true, if_false, hstack, not_false_eq_true,
    decide_true, if_true] at ha hb ⊢
  omega

/-- **Induction along a walk.** What holds of a stack as soon as it holds with one more place on it,
whichever is left to enter, holds of every stack. -/
theorem unvisited_induction (places : List α) {motive : List α → Prop}
    (step : ∀ stack, (∀ here ∈ places, here ∉ stack → motive (here :: stack)) → motive stack)
    (stack : List α) : motive stack := by
  induction hn : unvisited places stack using Nat.strongRecOn generalizing stack with
  | ind n ih =>
    refine step stack fun here hmem hstack ↦ ?_
    exact ih _ (hn ▸ unvisited_cons_lt hmem hstack) _ rfl

end LayeredConfig
