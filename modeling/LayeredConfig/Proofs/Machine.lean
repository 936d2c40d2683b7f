import LayeredConfig.Proofs.Stages
import Mathlib.Data.Finset.Card

/-!
# Machines

A recursion that ends for a reason outside of its arguments is best looked at one step at a time. A
`Machine` goes from state to state until a step answers or fails. Nothing in it says that it ends;
that it does, and with what, is `Machine.Ends`.

* What every step keeps holds at every moment of a run (`invariant_of_run`).
* `Machine.Computes` says that a machine works a stage out: it comes to the state that holds the
  answer of the stage, or fails as the stage does. It passes from stages to sequences of stages, so
  that a machine is compared with a recursive definition one stage at a time.
* A stack that never holds one thing twice is bounded by where its entries come from
  (`length_le_card_of_nodup`).
-/

namespace LayeredConfig

/-- A machine with states `C`: a step leads to the next state, answers, or fails. -/
structure Machine (ε C α : Type) where
  /-- One step. -/
  step : C → Except ε (C ⊕ α)

namespace Machine

variable {ε C α β γ : Type} {M : Machine ε C α} {c c' : C} {n : Nat} {a : α} {e : ε}

/-- Where the machine is after `n` steps, or how it has ended by then. -/
def run (M : Machine ε C α) : (n : Nat) → C → Except ε (C ⊕ α)
  | 0, c => .ok (.inl c)
  | n + 1, c =>
    match M.step c with
    | .ok (.inl c') => M.run n c'
    | ending => ending

/-- The machine comes from one state to the other. -/
def Reaches (M : Machine ε C α) (c c' : C) : Prop :=
  ∃ n, M.run n c = .ok (.inl c')

/-- The machine ends after finitely many steps, with the given answer or failure. -/
def Ends (M : Machine ε C α) (c : C) (r : Except ε α) : Prop :=
  ∃ n, M.run n c = r.map .inr

/-! ### Runs -/

theorem run_of_step (h : M.step c = .ok (.inl c')) (n : Nat) : M.run (n + 1) c = M.run n c' := by
  rw [run, h]

theorem run_of_step_eq_error (h : M.step c = .error e) : M.run 1 c = .error e := by
  rw [run, h]

theorem run_of_step_eq_answer (h : M.step c = .ok (.inr a)) : M.run 1 c = .ok (.inr a) := by
  rw [run, h]

/-- A run can be taken apart at every moment. -/
theorem run_add (h : M.run n c = .ok (.inl c')) (m : Nat) : M.run (n + m) c = M.run m c' := by
  induction n generalizing c with
  | zero =>
    obtain rfl : c = c' := Sum.inl.inj (Except.ok.inj h)
    rw [Nat.zero_add]
  | succ n ih =>
    rw [run] at h
    split at h
    · rename_i d hd
      rw [Nat.add_right_comm, run_of_step hd, ih h]
    · rename_i hending
      exact absurd h (hending c')

/-- **What every step keeps holds at every moment.** -/
theorem invariant_of_run {P : C → Prop} (hstep : ∀ c c', M.step c = .ok (.inl c') → P c → P c')
    (hc : P c) (h : M.run n c = .ok (.inl c')) : P c' := by
  induction n generalizing c with
  | zero =>
    obtain rfl : c = c' := Sum.inl.inj (Except.ok.inj h)
    exact hc
  | succ n ih =>
    rw [run] at h
    split at h
    · rename_i d hd
      exact ih (hstep c d hd hc) h
    · rename_i hending
      exact absurd h (hending c')

/-- A machine may end with its first step. -/
theorem ends_of_step {r : Except ε α} (h : M.step c = r >>= fun a ↦ .ok (.inr a)) :
    M.Ends c r := by
  cases r with
  | error e => exact ⟨1, run_of_step_eq_error h⟩
  | ok a => exact ⟨1, run_of_step_eq_answer h⟩

/-- An answer is given by the step after some moment of the run. -/
theorem exists_step_of_run (h : M.run n c = .ok (.inr a)) :
    ∃ m d, M.run m c = .ok (.inl d) ∧ M.step d = .ok (.inr a) := by
  induction n generalizing c with
  | zero => cases h
  | succ n ih =>
    rw [run] at h
    split at h
    · rename_i d hd
      obtain ⟨m, d', hm, hd'⟩ := ih h
      exact ⟨m + 1, d', by rw [run_of_step hd, hm], hd'⟩
    · exact ⟨0, c, rfl, h⟩

namespace Reaches

theorem refl (c : C) : M.Reaches c c :=
  ⟨0, rfl⟩

theorem trans {d : C} (h : M.Reaches c c') (h' : M.Reaches c' d) : M.Reaches c d := by
  obtain ⟨n, hn⟩ := h
  obtain ⟨m, hm⟩ := h'
  exact ⟨n + m, by rw [run_add hn, hm]⟩

theorem single (h : M.step c = .ok (.inl c')) : M.Reaches c c' :=
  ⟨1, by rw [run_of_step h, run]⟩

end Reaches

/-! ### Working a stage out -/

/-- From the state `c` on, the machine works the stage `x` out: it comes to the state `k b` when the
stage answers `b`, and fails as the stage does. -/
def Computes (M : Machine ε C α) (c : C) (x : Except ε β) (k : β → C) : Prop :=
  match x with
  | .ok b => M.Reaches c (k b)
  | .error e => ∃ n, M.run n c = .error e

namespace Computes

variable {x : Except ε β} {f : β → Except ε γ} {k : β → C} {k' : γ → C}

theorem ok {b : β} (h : c = k b) : M.Computes c (.ok b) k :=
  h ▸ Reaches.refl c

theorem of_reaches (h : M.Reaches c c') (hx : M.Computes c' x k) : M.Computes c x k := by
  cases x with
  | error e =>
    obtain ⟨n, hn⟩ := h
    obtain ⟨m, hm⟩ := hx
    exact ⟨n + m, by rw [run_add hn, hm]⟩
  | ok b => exact h.trans hx

/-- A step before. -/
theorem of_step (h : M.step c = .ok (.inl c')) (hx : M.Computes c' x k) : M.Computes c x k :=
  hx.of_reaches (.single h)

/-- A step that fails. -/
theorem of_error (h : M.step c = .error e) : M.Computes c (.error e) k :=
  ⟨1, run_of_step_eq_error h⟩

/-- A step that works the stage out. -/
theorem of_stage (h : M.step c = x >>= fun b ↦ .ok (.inl (k b))) : M.Computes c x k := by
  cases x with
  | error e => exact of_error h
  | ok b => exact .single h

/-- A step that begins with a stage: it fails as the stage does, or goes on with its answer. -/
theorem of_begin {g : β → Except ε (C ⊕ α)} (h : M.step c = x >>= g)
    (hf : ∀ b, x = .ok b → M.step c = g b → M.Computes c (f b) k') :
    M.Computes c (x >>= f) k' := by
  cases hx : x with
  | error e =>
    rw [hx] at h
    exact of_error h
  | ok b =>
    rw [hx] at h
    exact hf b hx h

/-- One stage after the other. -/
theorem bind (hx : M.Computes c x k) (hf : ∀ b, x = .ok b → M.Computes (k b) (f b) k') :
    M.Computes c (x >>= f) k' := by
  cases x with
  | error e => exact hx
  | ok b => exact (hf b rfl).of_reaches hx

/-- A step afterwards. -/
theorem then_step {k' : β → C} (hx : M.Computes c x k)
    (hk : ∀ b, x = .ok b → M.step (k b) = .ok (.inl (k' b))) : M.Computes c x k' := by
  cases x with
  | error e => exact hx
  | ok b => exact Reaches.trans hx (.single (hk b rfl))

/-- A machine that works out its answer, and then gives it, ends. -/
theorem ends {r : Except ε α} {k : α → C} (hr : M.Computes c r k)
    (hk : ∀ a, r = .ok a → M.step (k a) = .ok (.inr a)) : M.Ends c r := by
  cases r with
  | error e => exact hr
  | ok a =>
    obtain ⟨n, hn⟩ := hr
    exact ⟨n + 1, by rw [run_add hn, run_of_step_eq_answer (hk a rfl)]; rfl⟩

end Computes

end Machine

/-- A stack whose entries are all different and come from a list is no longer than the list has
different entries. -/
theorem length_le_card_of_nodup {α : Type} [DecidableEq α] {stack l : List α}
    (hnodup : stack.Nodup) (hsub : stack ⊆ l) : stack.length ≤ l.toFinset.card := by
  rw [← List.toFinset_card_of_nodup hnodup]
  refine Finset.card_le_card fun a ha ↦ ?_
  exact List.mem_toFinset.2 (hsub (List.mem_toFinset.1 ha))

end LayeredConfig
