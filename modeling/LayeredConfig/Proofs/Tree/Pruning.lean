import LayeredConfig.Proofs.Toml.Writing
import LayeredConfig.Proofs.Tree.Removal
import LayeredConfig.Tree.Prune

/-!
# What is left of a tree without its nulls

`Tree.withoutNulls` leaves out one null after another (`Value.DropsNull`), entries and items, until
there is none at any position, and it leaves out nothing else. A value that is not null keeps its
place among the others, and its own nulls are left out in turn.

Positions do not lead below tags, and neither does the pruning. A tag on a null is left out with it,
but a null inside of a tagged container stays (`Tree.HidesNull`). Exactly then there is a null left
at some depth, and exactly then a tree keyed by strings still cannot be written as TOML. So it is
not true that no null is left (`Tree.withoutNulls_keeps_hidden`).
-/

namespace LayeredConfig

theorem Value.itemsWithoutNulls_eq (items : List Value) :
    itemsWithoutNulls items = (items.filter fun v ↦ !v.isNull).map withoutNulls := by
  induction items with
  | nil => rfl
  | cons v r ih =>
    rw [itemsWithoutNulls]
    cases hv : v.isNull <;> simp [hv, ih]

theorem Tree.withoutNulls_eq (t : Tree) : withoutNulls t =
    (t.filter fun e ↦ !e.2.isNull).map fun e ↦ (e.1, e.2.withoutNulls) := by
  induction t with
  | nil => rfl
  | cons e r ih =>
    obtain ⟨k, v⟩ := e
    rw [withoutNulls]
    cases hv : v.isNull <;> simp [hv, ih]

namespace Value

variable {v v' x y : Value} {l m : Position}

/-! ### What stands at positions -/

/-- The parts that are left are those that are not null, each without its nulls. -/
theorem parts_withoutNulls (v : Value) :
    v.withoutNulls.parts = (v.parts.filter fun c ↦ !c.isNull).map withoutNulls := by
  cases v with
  | mapping t =>
    rw [withoutNulls, parts, parts, Tree.withoutNulls_eq, List.map_map, List.filter_map,
      List.map_map]
    rfl
  | sequence items => rw [withoutNulls, parts, parts, itemsWithoutNulls_eq]
  | null | bool _ | int _ | float _ | string _ | tagged _ _ => rfl

theorem mem_parts_withoutNulls_iff : y ∈ v.withoutNulls.parts ↔
    ∃ c ∈ v.parts, c.isNull = false ∧ c.withoutNulls = y := by
  simp [parts_withoutNulls, and_assoc]

/-- **What is left was there**, is not null, and has lost its nulls. -/
theorem exists_of_within?_withoutNulls (hv : v.isNull = false)
    (h : v.withoutNulls.within? l = some y) :
    ∃ m x, v.within? m = some x ∧ x.isNull = false ∧ x.withoutNulls = y := by
  induction l generalizing v with
  | nil => exact ⟨[], v, rfl, hv, Option.some.inj h⟩
  | cons i r ih =>
    obtain ⟨c', hc', h⟩ := Option.bind_eq_some_iff.1 h
    obtain ⟨c, hc, hnull, rfl⟩ := mem_parts_withoutNulls_iff.1 (List.mem_of_getElem? hc')
    obtain ⟨m, x, hx, hxnull, hxy⟩ := ih hnull h
    obtain ⟨j, hj⟩ := List.getElem?_of_mem hc
    exact ⟨j :: m, x, by rw [within?_cons, hj, Option.bind_some, hx], hxnull, hxy⟩

/-- A null has nothing inside of it. -/
theorem isNull_of_within? (h : v.within? l = some x) (hx : x.isNull = false) :
    v.isNull = false := by
  cases l with
  | nil => exact Option.some.inj h ▸ hx
  | cons i r =>
    cases v with
    | mapping t => rfl
    | sequence items => rfl
    | null | bool _ | int _ | float _ | string _ | tagged _ _ => cases h

/-- **What is not null is left**, without its nulls. -/
theorem exists_within?_withoutNulls (h : v.within? m = some x) (hx : x.isNull = false) :
    ∃ l, v.withoutNulls.within? l = some x.withoutNulls := by
  induction m generalizing v with
  | nil => exact ⟨[], by rw [Option.some.inj h, within?_nil]⟩
  | cons j r ih =>
    obtain ⟨c, hc, h⟩ := Option.bind_eq_some_iff.1 h
    have hmem : c.withoutNulls ∈ v.withoutNulls.parts :=
      mem_parts_withoutNulls_iff.2 ⟨c, List.mem_of_getElem? hc, isNull_of_within? h hx, rfl⟩
    obtain ⟨i, hi⟩ := List.getElem?_of_mem hmem
    obtain ⟨l, hl⟩ := ih h
    exact ⟨i :: l, by rw [within?_cons, hi, Option.bind_some, hl]⟩

/-! ### One null after another -/

/-- Somewhere in the value, and not below a tag, a null is taken out of a container. -/
def DropsNull : Value → Value → Prop :=
  Changes fun _ c c' ↦ ∃ x, Loses x c c' ∧ x.isNull = true

mutual

/-- **The nulls are left out one by one**, and nothing else is. -/
theorem drops_withoutNulls : ∀ v : Value, Relation.ReflTransGen DropsNull v v.withoutNulls
  | .mapping entries => drops_entriesWithoutNulls [] entries
  | .sequence items => drops_itemsWithoutNulls [] items
  | .null | .bool _ | .int _ | .float _ | .string _ | .tagged _ _ => .refl

/-- The items in front are done already. -/
theorem drops_itemsWithoutNulls : ∀ before items : List Value,
    Relation.ReflTransGen DropsNull (.sequence (before ++ items))
      (.sequence (before ++ itemsWithoutNulls items))
  | before, [] => .refl
  | before, v :: r => by
    rw [itemsWithoutNulls]
    split
    · rename_i hv
      exact (drops_itemsWithoutNulls before r).head ⟨[], _, _, ⟨v, .item, hv⟩, .here⟩
    · have hfirst : Relation.ReflTransGen DropsNull (.sequence (before ++ v :: r))
          (.sequence (before ++ v.withoutNulls :: r)) :=
        reflTransGen_changes_of_replaced (.item .here) (drops_withoutNulls v)
      have hrest := drops_itemsWithoutNulls (before ++ [v.withoutNulls]) r
      rw [List.append_assoc, List.append_assoc] at hrest
      exact hfirst.trans hrest

theorem drops_entriesWithoutNulls : ∀ before entries : List (Value × Value),
    Relation.ReflTransGen DropsNull (.mapping (before ++ entries))
      (.mapping (before ++ Tree.withoutNulls entries))
  | before, [] => .refl
  | before, (k, v) :: r => by
    rw [Tree.withoutNulls]
    split
    · rename_i hv
      exact (drops_entriesWithoutNulls before r).head ⟨[], _, _, ⟨v, .entry, hv⟩, .here⟩
    · have hfirst : Relation.ReflTransGen DropsNull (.mapping (before ++ (k, v) :: r))
          (.mapping (before ++ (k, v.withoutNulls) :: r)) :=
        reflTransGen_changes_of_replaced (.entry .here) (drops_withoutNulls v)
      have hrest := drops_entriesWithoutNulls (before ++ [(k, v.withoutNulls)]) r
      rw [List.append_assoc, List.append_assoc] at hrest
      exact hfirst.trans hrest

end

/-! ### Nulls at any depth -/

theorem itemsHoldNull_iff {items : List Value} :
    itemsHoldNull items = true ↔ ∃ v ∈ items, v.holdsNull = true := by
  induction items with
  | nil => simp [itemsHoldNull]
  | cons v r ih => simp [itemsHoldNull, ih]

theorem entriesHoldNull_iff {entries : List (Value × Value)} :
    entriesHoldNull entries = true ↔ ∃ e ∈ entries, e.2.holdsNull = true := by
  induction entries with
  | nil => simp [entriesHoldNull]
  | cons e r ih =>
    obtain ⟨k, v⟩ := e
    simp [entriesHoldNull, ih]

theorem holdsNull_of_mem_parts (hx : x ∈ v.parts) (h : x.holdsNull = true) :
    v.holdsNull = true := by
  cases v with
  | mapping t =>
    obtain ⟨e, he, rfl⟩ := List.mem_map.1 hx
    exact entriesHoldNull_iff.2 ⟨e, he, h⟩
  | sequence items => exact itemsHoldNull_iff.2 ⟨x, hx, h⟩
  | null | bool _ | int _ | float _ | string _ | tagged _ _ => cases hx

theorem holdsNull_of_within? (hx : v.within? l = some x) (h : x.holdsNull = true) :
    v.holdsNull = true := by
  induction l generalizing v with
  | nil => exact Option.some.inj hx ▸ h
  | cons i r ih =>
    obtain ⟨c, hc, hx⟩ := Option.bind_eq_some_iff.1 hx
    exact holdsNull_of_mem_parts (List.mem_of_getElem? hc) (ih hx)

mutual

/-- **A null at some depth** is at a position, or below the tag at one. -/
theorem exists_within?_of_holdsNull : ∀ {v : Value}, v.holdsNull = true →
    ∃ l x, v.within? l = some x ∧ (x = .null ∨ ∃ tag c, x = .tagged tag c ∧ c.holdsNull = true)
  | .null, _ => ⟨[], .null, rfl, Or.inl rfl⟩
  | .tagged tag c, h => ⟨[], .tagged tag c, rfl, Or.inr ⟨tag, c, rfl, h⟩⟩
  | .sequence items, h => by
    obtain ⟨c, hc, l, x, hx, hnull⟩ := exists_mem_of_itemsHoldNull h
    obtain ⟨i, hi⟩ := List.getElem?_of_mem hc
    exact ⟨i :: l, x, by rw [within?_cons, parts, hi, Option.bind_some, hx], hnull⟩
  | .mapping entries, h => by
    obtain ⟨e, he, l, x, hx, hnull⟩ := exists_mem_of_entriesHoldNull h
    obtain ⟨i, hi⟩ := List.getElem?_of_mem (List.mem_map_of_mem he)
    exact ⟨i :: l, x, by rw [within?_cons, parts, hi, Option.bind_some, hx], hnull⟩
  | .bool _, h | .int _, h | .float _, h | .string _, h => by cases h

theorem exists_mem_of_itemsHoldNull : ∀ {items : List Value}, itemsHoldNull items = true →
    ∃ v ∈ items, ∃ l x, v.within? l = some x ∧
      (x = .null ∨ ∃ tag c, x = .tagged tag c ∧ c.holdsNull = true)
  | [], h => by cases h
  | v :: r, h => by
    rcases (Bool.or_eq_true _ _).mp h with h | h
    · exact ⟨v, List.mem_cons_self, exists_within?_of_holdsNull h⟩
    · obtain ⟨c, hc, hnull⟩ := exists_mem_of_itemsHoldNull h
      exact ⟨c, List.mem_cons_of_mem _ hc, hnull⟩

theorem exists_mem_of_entriesHoldNull : ∀ {entries : List (Value × Value)},
    entriesHoldNull entries = true → ∃ e ∈ entries, ∃ l x, e.2.within? l = some x ∧
      (x = .null ∨ ∃ tag c, x = .tagged tag c ∧ c.holdsNull = true)
  | [], h => by cases h
  | (k, v) :: r, h => by
    rcases (Bool.or_eq_true _ _).mp h with h | h
    · exact ⟨(k, v), List.mem_cons_self, exists_within?_of_holdsNull h⟩
    · obtain ⟨e, he, hnull⟩ := exists_mem_of_entriesHoldNull h
      exact ⟨e, List.mem_cons_of_mem _ he, hnull⟩

end

/-! ### Keys -/

mutual

theorem KeyedByStrings.withoutNulls : ∀ {v : Value}, v.KeyedByStrings →
    v.withoutNulls.KeyedByStrings
  | .mapping _, h => EntriesKeyedByStrings.withoutNulls h
  | .sequence _, h => ItemsKeyedByStrings.withoutNulls h
  | .null, h | .bool _, h | .int _, h | .float _, h | .string _, h | .tagged _ _, h => h

theorem ItemsKeyedByStrings.withoutNulls : ∀ {items : List Value}, ItemsKeyedByStrings items →
    ItemsKeyedByStrings (itemsWithoutNulls items)
  | [], h => h
  | v :: r, h => by
    rw [itemsWithoutNulls]
    split
    · exact ItemsKeyedByStrings.withoutNulls h.2
    · exact ⟨KeyedByStrings.withoutNulls h.1, ItemsKeyedByStrings.withoutNulls h.2⟩

theorem EntriesKeyedByStrings.withoutNulls : ∀ {entries : List (Value × Value)},
    EntriesKeyedByStrings entries → EntriesKeyedByStrings (Tree.withoutNulls entries)
  | [], h => h
  | (k, v) :: r, h => by
    rw [Tree.withoutNulls]
    split
    · exact EntriesKeyedByStrings.withoutNulls h.2.2
    · exact ⟨h.1, KeyedByStrings.withoutNulls h.2.1, EntriesKeyedByStrings.withoutNulls h.2.2⟩

end

end Value

namespace Tree

variable {t : Tree}

/-- Somewhere in the tree a tagged value that is not null itself has a null inside of it. -/
def HidesNull (t : Tree) : Prop :=
  ∃ l tag c, t.within? l = some (.tagged tag c) ∧ c.isNull = false ∧ c.holdsNull = true

/-- **A null is left exactly where a tag hides it.** -/
theorem holdsNull_withoutNulls_iff :
    (Value.mapping (withoutNulls t)).holdsNull = true ↔ t.HidesNull := by
  constructor
  · intro h
    obtain ⟨l, y, hy, hnull⟩ := Value.exists_within?_of_holdsNull h
    obtain ⟨m, x, hx, hxnull, rfl⟩ :=
      Value.exists_of_within?_withoutNulls (v := .mapping t) rfl hy
    rcases hnull with hnull | ⟨tag, c, htag, hc⟩
    · cases x <;> cases hnull
      cases hxnull
    · obtain rfl : x = .tagged tag c := by
        cases x <;> cases htag
        rfl
      exact ⟨m, tag, c, hx, hxnull, hc⟩
  · rintro ⟨m, tag, c, hx, hxnull, hc⟩
    obtain ⟨l, hl⟩ := Value.exists_within?_withoutNulls hx hxnull
    exact Value.holdsNull_of_within? hl hc

/-- **A tree without its nulls** has no null at any position, and is the tree with nulls left out
and nothing else. A null is left at some depth exactly if a tag hides it; and if all keys are
strings, the tree without its nulls can be written as TOML exactly if no tag hides one. -/
theorem withoutNulls_exact (t : Tree) :
    (∀ l v, (withoutNulls t).within? l = some v → v.isNull = false) ∧
    Relation.ReflTransGen Value.DropsNull (.mapping t) (.mapping (withoutNulls t)) ∧
    ((Value.mapping (withoutNulls t)).holdsNull = true ↔ t.HidesNull) ∧
    ((Value.mapping t).KeyedByStrings →
      ((∃ s, Toml.render (withoutNulls t) = .ok s) ↔ ¬t.HidesNull)) := by
  refine ⟨fun l v hv ↦ ?_, Value.drops_withoutNulls (.mapping t), holdsNull_withoutNulls_iff,
    fun hkeys ↦ ?_⟩
  · obtain ⟨-, x, -, hx, rfl⟩ := Value.exists_of_within?_withoutNulls (v := .mapping t) rfl hv
    rw [← hx]
    cases x <;> rfl
  · rw [Toml.exists_render_iff (Value.KeyedByStrings.withoutNulls hkeys),
      ← holdsNull_withoutNulls_iff, Bool.not_eq_true]

/-- Settings of which some are unresolved: null, tagged or not, as an entry and as an item. -/
def unresolvedSettings : Tree :=
  [(.string "host", .null),
    (.string "db", .mapping [(.string "user", .tagged "secret" .null), (.string "port", .int 1)]),
    (.string "mirrors", .sequence [.string "a", .null, .mapping [(.string "b", .null)]]),
    (.string "image", .tagged "ref" (.sequence [.string "c"]))]

/-- No tag hides a null there, so nothing is in the way of writing what is left. -/
theorem withoutNulls_exact_unresolvedSettings :
    withoutNulls unresolvedSettings =
      [(.string "db", .mapping [(.string "port", .int 1)]),
        (.string "mirrors", .sequence [.string "a", .mapping []]),
        (.string "image", .tagged "ref" (.sequence [.string "c"]))] ∧
    (Value.mapping unresolvedSettings).KeyedByStrings ∧ ¬unresolvedSettings.HidesNull ∧
    ∃ s, Toml.render (withoutNulls unresolvedSettings) = .ok s := by
  have hkeys : (Value.mapping unresolvedSettings).KeyedByStrings := by
    simp [unresolvedSettings, Value.KeyedByStrings, Value.EntriesKeyedByStrings,
      Value.ItemsKeyedByStrings]
  obtain ⟨-, -, hholds, hrender⟩ := withoutNulls_exact unresolvedSettings
  have hhides : ¬unresolvedSettings.HidesNull := by
    rw [← hholds]
    decide +kernel
  exact ⟨by decide +kernel, hkeys, hhides, (hrender hkeys).2 hhides⟩

/-- **A null in a tagged list is left**, and the tree cannot be written. -/
theorem withoutNulls_keeps_hidden :
    (¬∀ t : Tree, t.WellFormed → (Value.mapping (withoutNulls t)).holdsNull = false) ∧
    ¬∀ t : Tree, t.WellFormed → (Value.mapping t).KeyedByStrings →
      ∃ s, Toml.render (withoutNulls t) = .ok s := by
  let t : Tree := [(.string "k", .tagged "t" (.sequence [.null, .int 1]))]
  have ht : t.WellFormed := by
    simp [t, WellFormed, Value.WellFormed, Value.WellFormedEntries, Value.WellFormedItems]
  have hkeys : (Value.mapping t).KeyedByStrings := by
    simp [t, Value.KeyedByStrings, Value.EntriesKeyedByStrings, Value.ItemsKeyedByStrings]
  have hholds : (Value.mapping (withoutNulls t)).holdsNull = true := by decide +kernel
  refine ⟨fun h ↦ ?_, fun h ↦ ?_⟩
  · rw [h t ht] at hholds
    cases hholds
  · have hwritten := Toml.exists_render_iff (Value.KeyedByStrings.withoutNulls hkeys)
    rw [hwritten.1 (h t ht hkeys)] at hholds
    cases hholds

end Tree

end LayeredConfig
