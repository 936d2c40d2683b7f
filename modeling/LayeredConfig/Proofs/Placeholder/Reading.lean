import LayeredConfig.Proofs.Placeholder.Rendering
import LayeredConfig.Proofs.Tree.Overwriting
import LayeredConfig.Proofs.Tree.Strings

/-!
# What references read in a tree

`Scope.reading σ t depth` follows references at most `depth` deep: a reference reads the value at
its path, rendered under the reading one level below. No stack and no key takes part, so there is
nothing that ends a cycle; a reference on a cycle just reads nothing at any depth.

This is the meaning of substitution on demand. In a strict scope whatever `Scope.reference?` answers
is read at every depth that leaves room for the references not yet on their way
(`reading_of_reference?`): the stack never decides a value, it only decides a failure.

Reading is stable in two directions, and the consistency of a resolved tree rests on both. Going
deeper keeps what was read (`extends_reading`). And so does writing over a string what the string
renders to, provided that the new value is settled (`extends_reading_of_overwritten`): a reference
that used to render the string now finds the rendering in its place.
-/

namespace LayeredConfig

namespace Scope

variable {σ : Scope} {t t' : Tree}

/-- What references read when they are followed at most `depth` deep. -/
def reading (σ : Scope) (t : Tree) : (depth : Nat) → Reading
  | 0 => fun _ ↦ none
  | depth + 1 => fun path ↦ (t.get? path).bind (σ.renderValue (σ.reading t depth))

theorem reading_succ_eq_some_iff {depth : Nat} {path : String} {w : Value} :
    σ.reading t (depth + 1) path = some w ↔
      ∃ v, t.get? path = some v ∧ σ.renderValue (σ.reading t depth) v = some w :=
  Option.bind_eq_some_iff

/-! ### Going deeper -/

theorem extends_reading_succ (σ : Scope) (t : Tree) (depth : Nat) :
    (σ.reading t (depth + 1)).Extends (σ.reading t depth) := by
  induction depth with
  | zero =>
    intro path w h
    cases h
  | succ depth ih =>
    intro path w h
    obtain ⟨v, hv, hw⟩ := reading_succ_eq_some_iff.1 h
    exact reading_succ_eq_some_iff.2 ⟨v, hv, renderValue_mono ih hw⟩

/-- What is read at some depth is read at every greater one. -/
theorem extends_reading (σ : Scope) (t : Tree) {shallow deep : Nat} (h : shallow ≤ deep) :
    (σ.reading t deep).Extends (σ.reading t shallow) := by
  induction h with
  | refl => exact fun _ _ hw ↦ hw
  | step _ ih => exact fun _ _ hw ↦ extends_reading_succ σ t _ (ih hw)

/-- A text renders to one value, at whatever depth. -/
theorem render_reading_unique {depth depth' : Nat} {text : String} {v w : Value}
    (hv : σ.render (σ.reading t depth) text = some v)
    (hw : σ.render (σ.reading t depth') text = some w) : v = w := by
  have hv' := render_mono (extends_reading σ t (Nat.le_max_left depth depth')) hv
  have hw' := render_mono (extends_reading σ t (Nat.le_max_right depth depth')) hw
  exact Option.some.inj (hv'.symm.trans hw')

/-! ### Substitution on demand -/

/-- All that an answered reference has gone through: it is not on its way, it leads somewhere, and
what it leads to is substituted with the reference on its way. -/
theorem reference?_eq_ok_some {names stack : List String} {path key : String} {w : Value}
    (h : σ.reference? t names stack path key = .ok (some w)) :
    path ∈ names ∧ path ∉ stack ∧ ∃ v, t.get? path = some v ∧
      σ.substituteValue (fun p k ↦ σ.reference? t names (path :: stack) p k) path v = .ok w := by
  rw [reference?_eq] at h
  split at h
  · cases h
  · split at h
    · rename_i hvisit
      cases hget : t.get? path with
      | none => simp [hget] at h
      | some v =>
        rw [hget] at h
        obtain ⟨w', hw', h⟩ := bind_eq_ok_iff.1 h
        obtain rfl : w' = w := by simpa using h
        exact ⟨hvisit.1, hvisit.2, v, rfl, hw'⟩
    · cases h

/-- **What strict substitution finds on demand is read**, at every depth that leaves room for the
references not on their way. -/
theorem reading_of_reference? (hσ : σ.strict = true) {names stack : List String}
    {path key : String} {w : Value} {depth : Nat} (hdepth : unvisited names stack ≤ depth)
    (h : σ.reference? t names stack path key = .ok (some w)) :
    σ.reading t depth path = some w := by
  obtain ⟨hnames, hstack, v, hv, hw⟩ := reference?_eq_ok_some h
  have hlt := unvisited_cons_lt hnames hstack
  -- The stack grows with every reference, so the induction is on the depth that is left.
  induction depth generalizing stack path key v w with
  | zero => omega
  | succ depth ih =>
    have hbelow : unvisited names (path :: stack) ≤ depth := by omega
    refine reading_succ_eq_some_iff.2 ⟨v, hv, renderValue_of_substituteValue hσ ?_ hw⟩
    intro p k x hx
    obtain ⟨hnames', hstack', v', hv', hx'⟩ := reference?_eq_ok_some hx
    exact ih hbelow hx hnames' hstack' v' hv' hx' (unvisited_cons_lt hnames' hstack')

/-- What a strict scope answers for a string of a tree is a rendering of it. -/
theorem render_of_substituteIn (hσ : σ.strict = true) {key text : String} {w : Value}
    (h : σ.substituteIn t key text = .ok w) :
    ∃ depth, σ.render (σ.reading t depth) text = some w := by
  have hagrees : (σ.reading t (unvisited t.references [])).Agrees
      (σ.reference? t t.references []) :=
    fun _ _ _ hx ↦ reading_of_reference? hσ (Nat.le_refl _) hx
  exact ⟨_, render_of_substitute hσ hagrees h⟩

/-! ### Writing over a string -/

section Overwritten

variable {ρ : Reading} {s : String} {v v' w x : Value}

/-- An item may give way to one that renders to the same value. -/
theorem renderItems_overwrite {before after items : List Value}
    (hvv' : ∀ x, σ.renderValue ρ v = some x → σ.renderValue ρ v' = some x)
    (h : σ.renderItems ρ (before ++ v :: after) = some items) :
    σ.renderItems ρ (before ++ v' :: after) = some items := by
  induction before generalizing items with
  | nil =>
    obtain ⟨x, hx, h⟩ := Option.bind_eq_some_iff.1 h
    rw [List.nil_append, renderItems, hvv' x hx]
    exact h
  | cons c r ih =>
    obtain ⟨c', hc, h⟩ := Option.bind_eq_some_iff.1 h
    obtain ⟨items', hitems, rfl⟩ := Option.map_eq_some_iff.1 h
    rw [List.cons_append, renderItems, hc, Option.bind_some, ih hitems, Option.map_some]

/-- And so may the value of an entry. -/
theorem renderEntries_overwrite {before after entries : List (Value × Value)} {k : Value}
    (hvv' : ∀ x, σ.renderValue ρ v = some x → σ.renderValue ρ v' = some x)
    (h : σ.renderEntries ρ (before ++ (k, v) :: after) = some entries) :
    σ.renderEntries ρ (before ++ (k, v') :: after) = some entries := by
  induction before generalizing entries with
  | nil =>
    obtain ⟨x, hx, h⟩ := Option.bind_eq_some_iff.1 h
    rw [List.nil_append, renderEntries, hvv' x hx]
    exact h
  | cons e r ih =>
    obtain ⟨ke, c⟩ := e
    obtain ⟨c', hc, h⟩ := Option.bind_eq_some_iff.1 h
    obtain ⟨entries', hentries, rfl⟩ := Option.map_eq_some_iff.1 h
    rw [List.cons_append, renderEntries, hc, Option.bind_some, ih hentries, Option.map_some]

/-- A string that renders to nothing but `w` may give way to `w`, if `w` is settled. -/
theorem renderValue_of_overwritten (hs : ∀ x, σ.render ρ s = some x → x = w)
    (hw : w.isSettled = true) (h : Value.Overwritten s w v v')
    (hx : σ.renderValue ρ v = some x) : σ.renderValue ρ v' = some x := by
  induction h generalizing x with
  | here =>
    obtain rfl : x = w := hs x hx
    exact renderValue_of_isSettled hw
  | item _ ih =>
    obtain ⟨items, hitems, rfl⟩ := Option.map_eq_some_iff.1 hx
    rw [renderValue, renderItems_overwrite (fun _ ↦ ih) hitems, Option.map_some]
  | entry _ ih =>
    obtain ⟨entries, hentries, rfl⟩ := Option.map_eq_some_iff.1 hx
    rw [renderValue, renderEntries_overwrite (fun _ ↦ ih) hentries, Option.map_some]

/-- **Writing over a string what it renders to keeps all that is read**, if the new value is
settled. -/
theorem extends_reading_of_overwritten {depth₀ : Nat}
    (hs : σ.render (σ.reading t depth₀) s = some w) (hw : w.isSettled = true)
    (h : Value.Overwritten s w (.mapping t) (.mapping t')) (depth : Nat) :
    (σ.reading t' depth).Extends (σ.reading t depth) := by
  induction depth with
  | zero =>
    intro path x hx
    cases hx
  | succ depth ih =>
    intro path x hx
    obtain ⟨v, hv, hx⟩ := reading_succ_eq_some_iff.1 hx
    obtain ⟨v', hv', hvv'⟩ := Tree.get?_of_overwritten h hv
    refine reading_succ_eq_some_iff.2 ⟨v', hv', renderValue_mono ih ?_⟩
    rcases hvv' with rfl | hvv'
    · exact hx
    · -- At this depth too the string renders to nothing but the value that is written over it.
      have honly : ∀ y, σ.render (σ.reading t depth) s = some y → y = w :=
        fun y hy ↦ render_reading_unique hy hs
      exact renderValue_of_overwritten honly hw hvv' hx

/-- The rendering of a string gives way to the string again. -/
theorem renderValue_before_overwritten (hs : σ.render ρ s = some w) (hw : w.isSettled = true)
    (h : Value.Overwritten s w v v') (hx : σ.renderValue ρ v' = some x) :
    σ.renderValue ρ v = some x := by
  induction h generalizing x with
  | here =>
    rw [renderValue_of_isSettled hw] at hx
    exact hs.trans hx
  | item _ ih =>
    obtain ⟨items, hitems, rfl⟩ := Option.map_eq_some_iff.1 hx
    rw [renderValue, renderItems_overwrite (fun _ ↦ ih) hitems, Option.map_some]
  | entry _ ih =>
    obtain ⟨entries, hentries, rfl⟩ := Option.map_eq_some_iff.1 hx
    rw [renderValue, renderEntries_overwrite (fun _ ↦ ih) hentries, Option.map_some]

end Overwritten

end Scope

/-! ### Settled trees -/

namespace Value

mutual

/-- A value is settled when none of its strings holds a placeholder. -/
theorem isSettled_iff :
    ∀ {v : Value}, v.isSettled = true ↔ ∀ s ∈ v.strings, Placeholder.occursIn s = false
  | .string s => by simp [isSettled, strings]
  | .sequence items => itemsSettled_iff
  | .mapping entries => entriesSettled_iff
  | .null | .bool _ | .int _ | .float _ | .tagged _ _ => by simp [isSettled, strings]

theorem itemsSettled_iff : ∀ {items : List Value}, itemsSettled items = true ↔
    ∀ s ∈ itemStrings items, Placeholder.occursIn s = false
  | [] => by simp [itemsSettled, itemStrings]
  | v :: r => by
    rw [itemsSettled, Bool.and_eq_true, isSettled_iff, itemsSettled_iff, itemStrings,
      List.forall_mem_append]

theorem entriesSettled_iff : ∀ {entries : List (Value × Value)}, entriesSettled entries = true ↔
    ∀ s ∈ entryStrings entries, Placeholder.occursIn s = false
  | [] => by simp [entriesSettled, entryStrings]
  | (k, v) :: r => by
    rw [entriesSettled, Bool.and_eq_true, isSettled_iff, entriesSettled_iff, entryStrings,
      List.forall_mem_append]

end

/-- What a path reads in a settled tree is settled. -/
theorem isSettled_of_get? {t : Tree} {path : String} {v : Value}
    (ht : (Value.mapping t).isSettled = true) (hv : t.get? path = some v) : v.isSettled = true :=
  isSettled_iff.2 fun s hs ↦ isSettled_iff.1 ht s (Tree.strings_subset_of_get? hv hs)

end Value

/-- A reading that has all that is read in a tree, at whatever depth. -/
def Reading.Covers (ρ : Reading) (σ : Scope) (t : Tree) : Prop :=
  ∀ depth, ρ.Extends (σ.reading t depth)

/-- In a settled tree, reading is looking up. -/
theorem Reading.covers_get? {σ : Scope} {t : Tree} (ht : (Value.mapping t).isSettled = true) :
    Reading.Covers t.get? σ t := by
  intro depth path w hw
  cases depth with
  | zero => cases hw
  | succ depth =>
    obtain ⟨v, hv, hw⟩ := Scope.reading_succ_eq_some_iff.1 hw
    rw [Scope.renderValue_of_isSettled (Value.isSettled_of_get? ht hv)] at hw
    obtain rfl : v = w := Option.some.inj hw
    exact hv

end LayeredConfig
