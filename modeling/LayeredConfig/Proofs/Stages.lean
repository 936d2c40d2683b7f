import LayeredConfig.Error
import Mathlib.Control.Monad.Basic
import Mathlib.Data.List.Forall2

/-!
# Stages one after another

A load is a sequence of stages, each of which answers a result or ends everything with a cause. What
a sequence answers, and how it ends, is read off its stages here, once for all stages:

* `bind_eq_ok_iff` and `bind_eq_error_iff` take a sequence apart, `mapM_eq_ok_iff` takes the stages
  for the items of a list apart;
* `FailsOnlyWith E` says which causes can end a stage, and passes from the stages to the sequence;
* `Lockstep E F` compares two runs that go the same way except that the first may be stopped by a
  cause in `E`; it too passes from the stages to the sequence.
-/

namespace LayeredConfig

variable {α β γ : Type}

/-! ### Taking a sequence apart -/

/-- A sequence answers exactly when both of its halves do. -/
theorem bind_eq_ok_iff {ε : Type} {x : Except ε α} {f : α → Except ε β} {b : β} :
    (x >>= f) = .ok b ↔ ∃ a, x = .ok a ∧ f a = .ok b := by
  cases x with
  | error e => simp [bind, Except.bind]
  | ok a => simp [bind, Except.bind]

/-- A sequence ends early in its first half, or else in its second. -/
theorem bind_eq_error_iff {ε : Type} {x : Except ε α} {f : α → Except ε β} {e : ε} :
    (x >>= f) = .error e ↔ x = .error e ∨ ∃ a, x = .ok a ∧ f a = .error e := by
  cases x with
  | error e' => simp [bind, Except.bind]
  | ok a => simp [bind, Except.bind]

theorem ok_bind {ε : Type} (a : α) (f : α → Except ε β) : (Except.ok a >>= f) = f a := rfl

/-- A list is read through exactly when each of its items is. -/
theorem mapM_eq_ok_iff {ε : Type} {f : α → Except ε β} {l : List α} {l' : List β} :
    l.mapM f = .ok l' ↔ List.Forall₂ (fun a b ↦ f a = .ok b) l l' := by
  induction l generalizing l' with
  | nil =>
    rw [List.mapM_nil, List.forall₂_nil_left_iff]
    exact ⟨fun h ↦ (Except.ok.inj h).symm, fun h ↦ congrArg Except.ok h.symm⟩
  | cons a r ih =>
    rw [List.mapM_cons, bind_eq_ok_iff, List.forall₂_cons_left_iff]
    constructor
    · rintro ⟨b, hb, hrest⟩
      obtain ⟨r', hr', h⟩ := bind_eq_ok_iff.1 hrest
      exact ⟨b, r', hb, ih.1 hr', (Except.ok.inj h).symm⟩
    · rintro ⟨b, r', hb, hr', rfl⟩
      exact ⟨b, hb, bind_eq_ok_iff.2 ⟨r', ih.2 hr', rfl⟩⟩

/-- Where the second half answers alike to everything, a sequence answers if both halves do. -/
theorem exists_bind_iff {ε : Type} {x : Except ε α} {f : α → Except ε β} {P : Prop}
    (hf : ∀ a, (∃ b, f a = .ok b) ↔ P) :
    (∃ b, (x >>= f) = .ok b) ↔ (∃ a, x = .ok a) ∧ P := by
  cases x with
  | error e => simp [bind, Except.bind]
  | ok a => simp [bind, Except.bind, hf]

/-- Where the second half always answers, a sequence answers if the first half does. -/
theorem exists_bind_ok_iff {ε : Type} {x : Except ε α} {f : α → β} :
    (∃ b, (x >>= fun a ↦ Except.ok (f a)) = .ok b) ↔ ∃ a, x = .ok a := by
  cases x <;> simp [bind, Except.bind]

theorem map_eq_ok_iff {ε : Type} {x : Except ε α} {f : α → β} {b : β} :
    x.map f = .ok b ↔ ∃ a, x = .ok a ∧ f a = b := by
  cases x with
  | error e => simp [Except.map]
  | ok a => simp [Except.map]

/-- Changing the answer of a sequence is changing the answer of its second half. -/
theorem map_bind_eq {ε : Type} {x : Except ε α} {f : α → Except ε β} {g : β → γ} :
    (x >>= f).map g = x >>= fun a ↦ (f a).map g := by
  cases x <;> rfl

/-- A sequence that takes only a part of the first answer can be told with that part. -/
theorem bind_map_eq {ε : Type} {x : Except ε α} {g : α → β} {f : β → Except ε γ} :
    x.map g >>= f = x >>= fun a ↦ f (g a) := by
  cases x <;> rfl

/-! ### The causes that can end a stage -/

/-- If the stage ends early, then with a cause in `E`. -/
def FailsOnlyWith (E : LoadError → Prop) (x : Except LoadError α) : Prop :=
  ∀ e, x = .error e → E e

namespace FailsOnlyWith

variable {E : LoadError → Prop}

theorem ok (a : α) : FailsOnlyWith E (.ok a : Except LoadError α) := by
  intro e h
  cases h

theorem error {e : LoadError} (h : E e) : FailsOnlyWith E (.error e : Except LoadError α) := by
  rintro _ ⟨⟩
  exact h

theorem bind {x : Except LoadError α} {f : α → Except LoadError β} (hx : FailsOnlyWith E x)
    (hf : ∀ a, FailsOnlyWith E (f a)) : FailsOnlyWith E (x >>= f) := by
  intro e h
  rcases bind_eq_error_iff.1 h with h | ⟨a, -, h⟩
  · exact hx e h
  · exact hf a e h

end FailsOnlyWith

/-! ### Two runs in lockstep -/

/-- The two runs come to the same end, unless a cause in `E` stops the first of them; the second
fails only with a cause in `F`. -/
structure Lockstep (E F : LoadError → Prop) (x y : Except LoadError α) : Prop where
  /-- The first run is stopped, or ends like the second. -/
  same_or_stopped : x = y ∨ ∃ e, x = .error e ∧ E e
  /-- The causes of the second run. -/
  failsOnlyWith : FailsOnlyWith F y

namespace Lockstep

variable {E F F' : LoadError → Prop} {x y : Except LoadError α}

/-- A run is in lockstep with itself. -/
theorem refl (h : FailsOnlyWith F x) : Lockstep E F x x :=
  ⟨Or.inl rfl, h⟩

theorem ok (a : α) : Lockstep E F (.ok a : Except LoadError α) (.ok a) :=
  refl (.ok a)

theorem error {e : LoadError} (h : F e) : Lockstep E F (.error e : Except LoadError α) (.error e) :=
  refl (.error h)

theorem stopped {e : LoadError} (he : E e) (hy : FailsOnlyWith F y) : Lockstep E F (.error e) y :=
  ⟨Or.inr ⟨e, rfl, he⟩, hy⟩

theorem bind {f g : α → Except LoadError β} (hxy : Lockstep E F x y)
    (hfg : ∀ a, Lockstep E F (f a) (g a)) : Lockstep E F (x >>= f) (y >>= g) := by
  have hfails : FailsOnlyWith F (y >>= g) :=
    hxy.failsOnlyWith.bind fun a ↦ (hfg a).failsOnlyWith
  rcases hxy.same_or_stopped with rfl | ⟨e, rfl, he⟩
  · cases x with
    | error e => exact refl hfails
    | ok a => exact hfg a
  · exact stopped he hfails

theorem mono (hF : ∀ e, F e → F' e) (h : Lockstep E F x y) : Lockstep E F' x y :=
  ⟨h.same_or_stopped, fun e he ↦ hF e (h.failsOnlyWith e he)⟩

/-- What the first run answers, the second answers too. -/
theorem eq_ok {a : α} (h : Lockstep E F x y) (hx : x = .ok a) : y = .ok a := by
  rcases h.same_or_stopped with rfl | ⟨e, rfl, -⟩
  · exact hx
  · cases hx

/-- A cause outside `E` ends both runs. -/
theorem eq_error {e : LoadError} (h : Lockstep E F x y) (hx : x = .error e) (he : ¬E e) :
    y = .error e := by
  rcases h.same_or_stopped with rfl | ⟨e', rfl, he'⟩
  · exact hx
  · cases hx
    exact absurd he' he

/-- The causes of the first run are those of either kind. -/
theorem failsOnlyWith_left (h : Lockstep E F x y) : FailsOnlyWith (fun e ↦ E e ∨ F e) x := by
  intro e hx
  by_cases he : E e
  · exact Or.inl he
  · exact Or.inr (h.failsOnlyWith e (h.eq_error hx he))

end Lockstep

end LayeredConfig
