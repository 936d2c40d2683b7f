import LayeredConfig.Proofs.Tree.Entries
import Mathlib.Logic.Relation

/-!
# Positions

A location names the entries on its way by their keys, and several keys may name one entry: a key
finds every entry whose key is the same, and `0.0` and `-0.0` are. A position counts instead. It is
the number of the entry or item at each level, so that two positions are two places, and one place
is inside of another exactly when its position goes on from the other's. Tags are not entered.

`Value.within?` reads a position, and a dotted path that leads somewhere leads to a position
(`Tree.get?_eq_some_iff_position?`). Two values agree at a position when they have the same
*surface* there, which is all of a value but what is inside of its parts. Which part a segment names
is read off the surface alone (`Value.number?_congr`), so segments lead to one position in all
values that agree on the way there (`Value.position?_congr`).

`Value.Replaced x x' l v v'` says that `v` and `v'` are one value around the position `l`, where the
first has `x` and the second has `x'`. Whatever is apart from the position is the same in both, and
what encloses it keeps its surface. What is done to a value in many places is taken apart into
changes at one position each (`Value.Changes`).
-/

namespace LayeredConfig

/-- The numbers of the parts on the way from the root to a value, counted from zero. -/
abbrev Position := List Nat

namespace Value

variable {v v' w w' x x' : Value} {l m : Position} {segment : String} {path : List String} {i : Nat}

/-- What a container holds, in order. -/
def parts : Value → List Value
  | .mapping t => t.map Prod.snd
  | .sequence items => items
  | _ => []

/-- The value at a position. -/
def within? : Position → Value → Option Value
  | [], v => some v
  | i :: r, v => v.parts[i]?.bind (within? r)

@[simp] theorem within?_nil (v : Value) : v.within? [] = some v := rfl

theorem within?_cons (i : Nat) (r : Position) (v : Value) :
    v.within? (i :: r) = v.parts[i]?.bind (within? r) := rfl

theorem within?_cons_of_parts {before after : List Value} (h : v.parts = before ++ x :: after)
    (r : Position) : v.within? (before.length :: r) = x.within? r := by
  simp [within?_cons, h]

/-- Going on from a position is going on from what is there. -/
theorem within?_append (l m : Position) (v : Value) :
    v.within? (l ++ m) = (v.within? l).bind (within? m) := by
  induction l generalizing v with
  | nil => rfl
  | cons i r ih =>
    rw [List.cons_append, within?_cons, within?_cons, Option.bind_assoc]
    exact congrArg _ (funext ih)

theorem within?_concat_eq_some_iff : v.within? (l ++ [i]) = some x ↔
    ∃ c, v.within? l = some c ∧ c.parts[i]? = some x := by
  simp [within?_append, within?_cons, Option.bind_eq_some_iff]

/-- Nothing is inside of a value without parts. -/
theorem eq_nil_of_within? (hparts : v.parts = []) (h : v.within? m = some x) : m = [] := by
  cases m with
  | nil => rfl
  | cons i r =>
    rw [within?_cons, hparts] at h
    cases h

/-! ### Surfaces -/

/-- The value with null in place of each of its parts. -/
def surface : Value → Value
  | .mapping t => .mapping ((Tree.keys t).map fun k ↦ (k, .null))
  | .sequence items => .sequence (items.map fun _ ↦ .null)
  | v => v

/-- Mappings of one surface have the same keys in the same order. -/
theorem surface_eq_mapping_iff {t : Tree} : v.surface = (mapping t).surface ↔
    ∃ t', v = .mapping t' ∧ Tree.keys t' = Tree.keys t := by
  cases v with
  | mapping t' =>
    rw [surface, surface, mapping.injEq, List.map_inj_right fun _ _ h ↦ (Prod.mk.inj h).1]
    simp
  | null | bool _ | int _ | float _ | string _ | sequence _ | tagged _ _ => simp [surface]

/-- Sequences of one surface have the same length. -/
theorem surface_eq_sequence_iff {items : List Value} : v.surface = (sequence items).surface ↔
    ∃ items', v = .sequence items' ∧ items'.length = items.length := by
  cases v with
  | sequence items' => simp [surface, List.map_const', List.replicate_inj]
  | null | bool _ | int _ | float _ | string _ | mapping _ | tagged _ _ => simp [surface]

theorem isContainer_surface (v : Value) : v.surface.isContainer = v.isContainer := by
  cases v <;> rfl

theorem isContainer_congr (h : v.surface = w.surface) : v.isContainer = w.isContainer := by
  rw [← isContainer_surface v, h, isContainer_surface]

theorem length_parts_surface (v : Value) : v.surface.parts.length = v.parts.length := by
  cases v <;> simp [surface, parts, Tree.keys]

theorem length_parts_congr (h : v.surface = w.surface) : v.parts.length = w.parts.length := by
  rw [← length_parts_surface v, h, length_parts_surface]

/-! ### Positions of paths -/

/-- The number of the part that a segment names. In a sequence there may be fewer parts. -/
def number? (segment : String) : Value → Option Nat
  | .mapping t => (Tree.keyNamed? segment t).bind fun k ↦ (Tree.keys t).findIdx? (·.same k)
  | .sequence _ => segmentIndex? segment
  | _ => none

/-- **Which part a segment names is read off the surface.** -/
theorem number?_congr (h : v.surface = w.surface) (segment : String) :
    v.number? segment = w.number? segment := by
  cases w with
  | mapping t =>
    obtain ⟨t', rfl, hkeys⟩ := surface_eq_mapping_iff.1 h
    rw [number?, number?, Tree.keyNamed?_of_keys_eq hkeys, hkeys]
  | sequence items =>
    obtain ⟨items', rfl, -⟩ := surface_eq_sequence_iff.1 h
    rfl
  | null | bool _ | int _ | float _ | string _ | tagged _ _ =>
    cases v <;> simp_all [surface]

theorem child?_eq_number? (segment : String) (v : Value) :
    v.child? segment = (v.number? segment).bind (v.parts[·]?) := by
  cases v with
  | mapping t =>
    rw [child?, number?, Option.bind_assoc]
    exact congrArg _ (funext fun k ↦ Tree.find?_eq_findIdx? k t)
  | sequence items => rfl
  | null | bool _ | int _ | float _ | string _ | tagged _ _ => rfl

theorem child?_eq_some_iff : v.child? segment = some x ↔
    ∃ i, v.number? segment = some i ∧ v.parts[i]? = some x := by
  rw [child?_eq_number?, Option.bind_eq_some_iff]

/-- Going on from what segments lead to is going on along the segments. -/
theorem descend?_append (before after : List String) (v : Value) :
    v.descend? (before ++ after) = (v.descend? before).bind (descend? after) := by
  induction before generalizing v with
  | nil => rfl
  | cons s r ih =>
    rw [List.cons_append, descend?, descend?, Option.bind_assoc]
    exact congrArg _ (funext ih)

/-- The position that segments lead to. -/
def position? : List String → Value → Option Position
  | [], _ => some []
  | s :: r, v => (v.number? s).bind fun i ↦ v.parts[i]?.bind fun c ↦ (position? r c).map (i :: ·)

theorem position?_cons_eq_some_iff {s : String} : v.position? (s :: path) = some l ↔
    ∃ i c m, v.number? s = some i ∧ v.parts[i]? = some c ∧ c.position? path = some m ∧
      i :: m = l := by
  simp [position?, Option.bind_eq_some_iff]

/-- What stands at the position of segments is what they lead to. -/
theorem within?_of_position? (h : v.position? path = some l) : v.within? l = v.descend? path := by
  induction path generalizing v l with
  | nil =>
    obtain rfl : [] = l := Option.some.inj h
    rfl
  | cons s r ih =>
    obtain ⟨i, c, m, hi, hc, hm, rfl⟩ := position?_cons_eq_some_iff.1 h
    rw [within?_cons, hc, Option.bind_some, descend?, child?_eq_some_iff.2 ⟨i, hi, hc⟩,
      Option.bind_some, ih hm]

theorem exists_position?_of_descend? (h : v.descend? path = some x) :
    ∃ l, v.position? path = some l := by
  induction path generalizing v with
  | nil => exact ⟨[], rfl⟩
  | cons s r ih =>
    obtain ⟨c, hc, h⟩ := Option.bind_eq_some_iff.1 h
    obtain ⟨i, hi, hc⟩ := child?_eq_some_iff.1 hc
    obtain ⟨m, hm⟩ := ih h
    exact ⟨i :: m, position?_cons_eq_some_iff.2 ⟨i, c, m, hi, hc, hm, rfl⟩⟩

/-- Segments lead to what stands at their position. -/
theorem descend?_eq_some_iff_position? : v.descend? path = some x ↔
    ∃ l, v.position? path = some l ∧ v.within? l = some x := by
  constructor
  · intro h
    obtain ⟨l, hl⟩ := exists_position?_of_descend? h
    exact ⟨l, hl, (within?_of_position? hl).trans h⟩
  · rintro ⟨l, hl, hx⟩
    exact (within?_of_position? hl).symm.trans hx

/-- **Segments lead the same way** where everything on the way has the same surface. -/
theorem position?_congr (hl : v.position? path = some l)
    (h : ∀ m, m <+: l → m ≠ l → (v.within? m).map surface = (w.within? m).map surface) :
    w.position? path = some l := by
  induction path generalizing v w l with
  | nil => exact hl
  | cons s r ih =>
    obtain ⟨i, c, m, hi, hc, hm, rfl⟩ := position?_cons_eq_some_iff.1 hl
    have hroot : v.surface = w.surface :=
      Option.some.inj (h [] List.nil_prefix (List.cons_ne_nil i m).symm)
    obtain ⟨hlt, -⟩ := List.getElem?_eq_some_iff.1 hc
    have hc' := List.getElem?_eq_getElem (length_parts_congr hroot ▸ hlt)
    refine position?_cons_eq_some_iff.2 ⟨i, _, m, ?_, hc', ih hm fun n hn hne ↦ ?_, rfl⟩
    · rw [← number?_congr hroot, hi]
    · have hpart := h (i :: n) (List.cons_prefix_cons.2 ⟨rfl, hn⟩) fun heq ↦
        hne (List.cons.inj heq).2
      rwa [within?_cons, within?_cons, hc, hc', Option.bind_some, Option.bind_some] at hpart

/-! ### One value at a position in place of another -/

/-- The second value is the first with `x'` in place of the `x` at a position. -/
inductive Replaced (x x' : Value) : Position → Value → Value → Prop where
  /-- The value itself is in that place. -/
  | here : Replaced x x' [] x x'
  /-- The place is in the value of an entry. -/
  | entry {before after : List (Value × Value)} {k v v' : Value} {l : Position}
    (h : Replaced x x' l v v') : Replaced x x' (before.length :: l)
      (.mapping (before ++ (k, v) :: after)) (.mapping (before ++ (k, v') :: after))
  /-- The place is in an item. -/
  | item {before after : List Value} {v v' : Value} {l : Position}
    (h : Replaced x x' l v v') : Replaced x x' (before.length :: l)
      (.sequence (before ++ v :: after)) (.sequence (before ++ v' :: after))

namespace Replaced

/-- One level down: around the part with the place in it both values have the same. -/
theorem exists_parts (h : Replaced x x' (i :: l) v v') : v.surface = v'.surface ∧
    ∃ before after c c', before.length = i ∧ v.parts = before ++ c :: after ∧
      v'.parts = before ++ c' :: after ∧ Replaced x x' l c c' := by
  cases h with
  | @entry before after k c c' _ h =>
    refine ⟨by simp [surface, Tree.keys], before.map Prod.snd, after.map Prod.snd, c, c', ?_⟩
    simpa [parts] using h
  | @item before after c c' _ h =>
    refine ⟨by simp [surface], before, after, c, c', rfl, rfl, rfl, h⟩

/-- At the place and inside of it, the values are read in what is there. -/
theorem within?_append (h : Replaced x x' l v v') (m : Position) :
    v.within? (l ++ m) = x.within? m ∧ v'.within? (l ++ m) = x'.within? m := by
  induction l generalizing v v' with
  | nil =>
    cases h
    exact ⟨rfl, rfl⟩
  | cons i r ih =>
    obtain ⟨-, before, after, c, c', rfl, hv, hv', h⟩ := h.exists_parts
    rw [List.cons_append, within?_cons_of_parts hv, within?_cons_of_parts hv']
    exact ih h

theorem within?_self (h : Replaced x x' l v v') :
    v.within? l = some x ∧ v'.within? l = some x' := by
  simpa using h.within?_append []

/-- **Apart from the place, both values have the same.** -/
theorem within?_of_apart (h : Replaced x x' l v v') (hlm : ¬l <+: m) (hml : ¬m <+: l) :
    v'.within? m = v.within? m := by
  induction l generalizing v v' m with
  | nil => exact absurd List.nil_prefix hlm
  | cons i r ih =>
    cases m with
    | nil => exact absurd List.nil_prefix hml
    | cons j m =>
      obtain ⟨-, before, after, c, c', rfl, hv, hv', h⟩ := h.exists_parts
      rcases Nat.lt_trichotomy j before.length with hj | rfl | hj
      · rw [within?_cons, within?_cons, hv, hv', List.getElem?_append_left hj,
          List.getElem?_append_left hj]
      · -- Both ways go into the part with the place in it, and leave each other further down.
        rw [within?_cons_of_parts hv, within?_cons_of_parts hv']
        refine ih h (fun hrm ↦ hlm ?_) (fun hmr ↦ hml ?_)
        · exact List.cons_prefix_cons.2 ⟨rfl, hrm⟩
        · exact List.cons_prefix_cons.2 ⟨rfl, hmr⟩
      · obtain ⟨n, hn⟩ : ∃ n, j - before.length = n + 1 := ⟨j - before.length - 1, by omega⟩
        rw [within?_cons, within?_cons, hv, hv', List.getElem?_append_right (Nat.le_of_lt hj),
          List.getElem?_append_right (Nat.le_of_lt hj), hn, List.getElem?_cons_succ,
          List.getElem?_cons_succ]

/-- **What encloses the place keeps its surface.** -/
theorem surface_of_above (h : Replaced x x' l v v') (hml : m <+: l) (hne : m ≠ l) :
    (v.within? m).map surface = (v'.within? m).map surface := by
  induction l generalizing v v' m with
  | nil => exact absurd (List.prefix_nil.1 hml) hne
  | cons i r ih =>
    obtain ⟨hsurface, before, after, c, c', rfl, hv, hv', h⟩ := h.exists_parts
    cases m with
    | nil => exact congrArg some hsurface
    | cons j m =>
      obtain ⟨rfl, hmr⟩ := List.cons_prefix_cons.1 hml
      rw [within?_cons_of_parts hv, within?_cons_of_parts hv']
      exact ih h hmr fun hm ↦ hne (congrArg _ hm)

/-- So what is not inside of the place has the same surface in both. -/
theorem surface_of_not_inside (h : Replaced x x' l v v') (hlm : ¬l <+: m) :
    (v.within? m).map surface = (v'.within? m).map surface := by
  by_cases hml : m <+: l
  · exact h.surface_of_above hml fun heq ↦ hlm (heq ▸ List.prefix_rfl)
  · rw [h.within?_of_apart hlm hml]

/-- With the same value in the place both are the same. -/
theorem eq (h : Replaced x x l v v') : v = v' := by
  induction h with
  | here => rfl
  | entry _ ih => rw [ih]
  | item _ ih => rw [ih]

end Replaced

/-! ### One change after another -/

section Changes

variable {R S : Position → Value → Value → Prop}

/-- What stands at a position gives way to another value, and `R` allows it. -/
def Changes (R : Position → Value → Value → Prop) (v v' : Value) : Prop :=
  ∃ l x x', R l x x' ∧ Replaced x x' l v v'

theorem Changes.entry (before after : List (Value × Value)) (k : Value)
    (h : Changes (fun l ↦ R (before.length :: l)) v v') :
    Changes R (.mapping (before ++ (k, v) :: after)) (.mapping (before ++ (k, v') :: after)) := by
  obtain ⟨l, x, x', hR, hreplaced⟩ := h
  exact ⟨_, x, x', hR, .entry hreplaced⟩

theorem Changes.item (before after : List Value)
    (h : Changes (fun l ↦ R (before.length :: l)) v v') :
    Changes R (.sequence (before ++ v :: after)) (.sequence (before ++ v' :: after)) := by
  obtain ⟨l, x, x', hR, hreplaced⟩ := h
  exact ⟨_, x, x', hR, .item hreplaced⟩

theorem reflTransGen_changes_mono (hRS : ∀ l x x', R l x x' → S l x x')
    (h : Relation.ReflTransGen (Changes R) v v') : Relation.ReflTransGen (Changes S) v v' :=
  Relation.ReflTransGen.mono (fun _ _ ⟨l, x, x', hR, hreplaced⟩ ↦
    ⟨l, x, x', hRS l x x' hR, hreplaced⟩) _ _ h

/-- **Changes inside of a place** are changes inside of the whole. -/
theorem reflTransGen_changes_of_replaced (hv : Replaced x x' l v v')
    (h : Relation.ReflTransGen (Changes fun m ↦ R (l ++ m)) x x') :
    Relation.ReflTransGen (Changes R) v v' := by
  induction hv generalizing R with
  | here => exact h
  | @entry before after k _ _ _ _ ih =>
    exact (ih h).lift (fun v ↦ mapping (before ++ (k, v) :: after)) fun _ _ ↦ .entry before after k
  | @item before after _ _ _ _ ih =>
    exact (ih h).lift (fun v ↦ sequence (before ++ v :: after)) fun _ _ ↦ .item before after

end Changes

end Value

namespace Tree

variable {t : Tree} {path : String} {l : Position} {v : Value}

/-- The value at a position. -/
def within? (l : Position) (t : Tree) : Option Value :=
  (Value.mapping t).within? l

/-- The position that a path leads to. -/
def position? (t : Tree) (path : String) : Option Position :=
  if path = "" then none else (Value.mapping t).position? (segments path)

/-- **Reading a path is reading its position.** -/
theorem get?_eq_some_iff_position? :
    t.get? path = some v ↔ ∃ l, t.position? path = some l ∧ t.within? l = some v := by
  rw [get?, position?]
  split
  · simp
  · exact Value.descend?_eq_some_iff_position?

end Tree

end LayeredConfig
