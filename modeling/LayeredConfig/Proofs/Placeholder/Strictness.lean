import LayeredConfig.Proofs.Stages
import LayeredConfig.Placeholder.Substitution

/-!
# Substitution with and without strictness

A strict scope and the same scope without strictness (`Scope.lenient`) substitute alike, until the
strict one is stopped by a placeholder without a value. Every stage of substitution is compared with
itself in the two scopes: a value by recursion on the value, references along the stack, a tree
string by string. The two runs see the same tree at every step, so that no invariant relates
different trees.

Along with it comes all that can end a substitution: a placeholder without a value, in a strict
scope only, and a mapping or a sequence that is to be embedded in a text.
-/

namespace LayeredConfig

namespace LoadError

/-- The cause is a placeholder without a value. -/
def IsUnresolved (e : LoadError) : Prop :=
  ∃ placeholder key, e = .unresolvedPlaceholder placeholder key

/-- The cause is a container that a text cannot hold. -/
def IsNonScalar (e : LoadError) : Prop :=
  ∃ placeholder key, e = .nonScalarInterpolation placeholder key

end LoadError

namespace Scope

/-- The same scope, with null for every placeholder that has no value. -/
def lenient (σ : Scope) : Scope :=
  { σ with strict := false }

variable {σ : Scope} {lookup lookup' : Lookup} {key : String}

/-! ### Substitution with given references -/

open LoadError (IsUnresolved IsNonScalar)

/-- **Where the two runs part.** -/
theorem lockstep_absent {α : Type} (p : Placeholder) (otherwise : α) :
    Lockstep IsUnresolved IsNonScalar (σ.absent key p otherwise)
      (σ.lenient.absent key p otherwise) := by
  have hlenient : σ.lenient.absent key p otherwise = .ok otherwise := rfl
  rw [hlenient, absent]
  split
  · exact .stopped ⟨_, _, rfl⟩ (.ok otherwise)
  · exact .ok otherwise

section Lookups

variable (h : ∀ p k, Lockstep IsUnresolved IsNonScalar (lookup p k) (lookup' p k))

include h

theorem lockstep_value? (p : Placeholder) : Lockstep IsUnresolved IsNonScalar
    (σ.value? lookup key p) (σ.lenient.value? lookup' key p) := by
  rw [value?, value?]
  split
  · exact .ok _
  · exact .ok _
  · exact h _ _

theorem lockstep_pieceText (piece : Piece) : Lockstep IsUnresolved IsNonScalar
    (σ.pieceText lookup key piece) (σ.lenient.pieceText lookup' key piece) := by
  cases piece with
  | literal text => exact .ok _
  | placeholder p =>
    refine .bind (lockstep_value? h p) ?_
    rintro (_ | v)
    · exact lockstep_absent p ""
    · dsimp only
      split
      · exact .ok _
      · exact .error ⟨_, _, rfl⟩

theorem lockstep_piecesText (ps : List Piece) : Lockstep IsUnresolved IsNonScalar
    (σ.piecesText lookup key ps) (σ.lenient.piecesText lookup' key ps) := by
  induction ps with
  | nil => exact .ok _
  | cons piece r ih =>
    exact .bind (lockstep_pieceText h piece) fun _ ↦ .bind ih fun _ ↦ .ok _

theorem lockstep_substitute (text : String) : Lockstep IsUnresolved IsNonScalar
    (σ.substitute lookup key text) (σ.lenient.substitute lookup' key text) := by
  rw [substitute, substitute]
  split
  · refine .bind (lockstep_value? h _) ?_
    rintro (_ | v)
    · exact lockstep_absent _ Value.null
    · exact .ok v
  · exact .bind (lockstep_piecesText h _) fun _ ↦ .ok _

end Lookups

mutual

theorem lockstep_substituteValue
    (h : ∀ p k, Lockstep IsUnresolved IsNonScalar (lookup p k) (lookup' p k)) :
    ∀ (v : Value) (key : String), Lockstep IsUnresolved IsNonScalar
      (σ.substituteValue lookup key v) (σ.lenient.substituteValue lookup' key v)
  | .string s, _ => lockstep_substitute h s
  | .sequence items, key => .bind (lockstep_substituteItems h items key) fun _ ↦ .ok _
  | .mapping entries, key => .bind (lockstep_substituteEntries h entries key) fun _ ↦ .ok _
  | .null, _ | .bool _, _ | .int _, _ | .float _, _ | .tagged _ _, _ => .ok _

theorem lockstep_substituteItems
    (h : ∀ p k, Lockstep IsUnresolved IsNonScalar (lookup p k) (lookup' p k)) :
    ∀ (items : List Value) (key : String), Lockstep IsUnresolved IsNonScalar
      (σ.substituteItems lookup key items) (σ.lenient.substituteItems lookup' key items)
  | [], _ => .ok _
  | v :: r, key =>
    .bind (lockstep_substituteValue h v key) fun _ ↦
      .bind (lockstep_substituteItems h r key) fun _ ↦ .ok _

theorem lockstep_substituteEntries
    (h : ∀ p k, Lockstep IsUnresolved IsNonScalar (lookup p k) (lookup' p k)) :
    ∀ (entries : List (Value × Value)) (key : String), Lockstep IsUnresolved IsNonScalar
      (σ.substituteEntries lookup key entries) (σ.lenient.substituteEntries lookup' key entries)
  | [], _ => .ok _
  | (_, v) :: r, key =>
    .bind (lockstep_substituteValue h v _) fun _ ↦
      .bind (lockstep_substituteEntries h r key) fun _ ↦ .ok _

end

/-! ### References and whole trees -/

theorem lockstep_reference? (t : Tree) (names stack : List String) (path key : String) :
    Lockstep IsUnresolved IsNonScalar (σ.reference? t names stack path key)
      (σ.lenient.reference? t names stack path key) := by
  induction stack using unvisited_induction names generalizing path key with
  | step stack ih =>
    rw [reference?_eq, reference?_eq]
    split
    · exact .ok none
    · split
      · rename_i hvisit
        have hbelow := ih path hvisit.1 hvisit.2
        split
        · exact .bind (lockstep_substituteValue hbelow _ _) fun _ ↦ .ok _
        · exact .ok none
      · exact .ok none

theorem lockstep_substituteIn (t : Tree) (key text : String) :
    Lockstep IsUnresolved IsNonScalar (σ.substituteIn t key text)
      (σ.lenient.substituteIn t key text) :=
  lockstep_substitute (lockstep_reference? t _ _) text

/-- A text outside any tree behaves alike. -/
theorem lockstep_expand (key text : String) :
    Lockstep IsUnresolved IsNonScalar (σ.expand key text) (σ.lenient.expand key text) :=
  .bind (lockstep_substituteIn [] key text) fun _ ↦ .ok _

theorem lockstep_resolveAt (t : Tree) (l : Location) :
    Lockstep IsUnresolved IsNonScalar (σ.resolveAt t l) (σ.lenient.resolveAt t l) := by
  rw [resolveAt, resolveAt]
  split
  · exact .bind (lockstep_substituteIn t _ _) fun _ ↦ .ok _
  · exact .ok t

theorem lockstep_resolveAll (ls : List Location) (t : Tree) :
    Lockstep IsUnresolved IsNonScalar (σ.resolveAll ls t) (σ.lenient.resolveAll ls t) := by
  induction ls generalizing t with
  | nil => exact .ok t
  | cons l r ih => exact .bind (lockstep_resolveAt t l) ih

/-- **A strict resolution answers what a lenient one does**, or is stopped by a placeholder without
a value. -/
theorem lockstep_resolve (t : Tree) :
    Lockstep IsUnresolved IsNonScalar (σ.resolve t) (σ.lenient.resolve t) :=
  lockstep_resolveAll _ t

end Scope

end LayeredConfig
