import LayeredConfig.Proofs.Stages
import LayeredConfig.Toml.Render

/-!
# What can be written as TOML

A null has no written form, at whatever depth it stands, below a tag as well. Otherwise only keys
can be in the way: a tree with strings for keys throughout is written exactly when there is no null
in it (`Toml.exists_render_iff`).
-/

namespace LayeredConfig

namespace Value

mutual

/-- Somewhere in the value, below a tag or not, there is a null. Keys do not count. -/
def holdsNull : Value → Bool
  | .null => true
  | .sequence items => itemsHoldNull items
  | .mapping entries => entriesHoldNull entries
  | .tagged _ v => v.holdsNull
  | _ => false

/-- Somewhere in the items there is a null. -/
def itemsHoldNull : List Value → Bool
  | [] => false
  | v :: r => v.holdsNull || itemsHoldNull r

/-- Somewhere in the values of the entries there is a null. -/
def entriesHoldNull : List (Value × Value) → Bool
  | [] => false
  | (_, v) :: r => v.holdsNull || entriesHoldNull r

end

mutual

/-- Every key in the value, at any depth and below tags as well, is a string. -/
def KeyedByStrings : Value → Prop
  | .sequence items => ItemsKeyedByStrings items
  | .mapping entries => EntriesKeyedByStrings entries
  | .tagged _ v => v.KeyedByStrings
  | _ => True

/-- Every key in the items is a string. -/
def ItemsKeyedByStrings : List Value → Prop
  | [] => True
  | v :: r => v.KeyedByStrings ∧ ItemsKeyedByStrings r

/-- Every key of the entries, and in their values, is a string. -/
def EntriesKeyedByStrings : List (Value × Value) → Prop
  | [] => True
  | (k, v) :: r => (∃ s, k = .string s) ∧ v.KeyedByStrings ∧ EntriesKeyedByStrings r

end

end Value

namespace Toml

open Value

/-! ### On one line -/

mutual

/-- A value is written on one line exactly when there is no null in it. -/
theorem exists_inlineValue_iff : ∀ {v : Value}, v.KeyedByStrings →
    ((∃ s, inlineValue v = .ok s) ↔ v.holdsNull = false)
  | .null, _ => by simp [inlineValue, holdsNull]
  | .bool _, _ | .int _, _ | .float _, _ | .string _, _ => by simp [inlineValue, holdsNull]
  | .sequence items, h => by
    rw [inlineValue, exists_bind_ok_iff, holdsNull]
    exact exists_inlineItems_iff h
  | .mapping entries, h => by
    rw [inlineValue, exists_bind_ok_iff, holdsNull]
    exact exists_inlineEntries_iff h
  | .tagged tag v, h => by
    rw [inlineValue, exists_bind_ok_iff, holdsNull]
    exact exists_inlineValue_iff h

theorem exists_inlineItems_iff : ∀ {items : List Value}, ItemsKeyedByStrings items →
    ((∃ texts, inlineItems items = .ok texts) ↔ itemsHoldNull items = false)
  | [], _ => by simp [inlineItems, itemsHoldNull]
  | v :: r, h => by
    rw [inlineItems, exists_bind_iff fun _ ↦ exists_bind_ok_iff, exists_inlineValue_iff h.1,
      exists_inlineItems_iff h.2, itemsHoldNull, Bool.or_eq_false_iff]

theorem exists_inlineEntries_iff : ∀ {entries : List (Value × Value)},
    EntriesKeyedByStrings entries →
      ((∃ texts, inlineEntries entries = .ok texts) ↔ entriesHoldNull entries = false)
  | [], _ => by simp [inlineEntries, entriesHoldNull]
  | (k, v) :: r, h => by
    obtain ⟨⟨key, rfl⟩, hv, hr⟩ := h
    have hkey : keyText (.string key) = .ok key := rfl
    rw [inlineEntries, hkey, ok_bind, exists_bind_iff fun _ ↦ exists_bind_ok_iff,
      exists_inlineValue_iff hv, exists_inlineEntries_iff hr, entriesHoldNull,
      Bool.or_eq_false_iff]

end

/-! ### In sections -/

mutual

/-- An entry of a table is written exactly when there is no null in it. -/
theorem exists_memberParts_iff : ∀ {v : Value} (path : List String) (key : String),
    v.KeyedByStrings → ((∃ p, memberParts path key v = .ok p) ↔ v.holdsNull = false)
  | .mapping entries, path, key, h => by
    rw [memberParts, exists_bind_ok_iff, holdsNull]
    exact exists_tableParts_iff (path ++ [key]) h
  | .tagged tag v, path, key, h => by
    rw [memberParts, exists_bind_ok_iff, holdsNull]
    exact exists_memberParts_iff (path ++ [key]) (tagKey tag) h
  | .sequence items, path, key, h => by
    rw [memberParts]
    split
    · rename_i htables
      rw [Bool.and_eq_true] at htables
      rw [exists_bind_ok_iff, holdsNull]
      exact exists_itemSections_iff (path ++ [key]) htables.2 h
    · rw [exists_bind_ok_iff]
      exact exists_inlineValue_iff h
  | .null, path, key, h | .bool _, path, key, h | .int _, path, key, h | .float _, path, key, h
  | .string _, path, key, h => by
    rw [memberParts, exists_bind_ok_iff]
    · exact exists_inlineValue_iff h
    all_goals simp

/-- The entries of a table are written exactly when there is no null in them. -/
theorem exists_tableParts_iff : ∀ {entries : List (Value × Value)} (path : List String),
    EntriesKeyedByStrings entries →
      ((∃ p, tableParts path entries = .ok p) ↔ entriesHoldNull entries = false)
  | [], _, _ => by simp [tableParts, entriesHoldNull]
  | (k, v) :: r, path, h => by
    obtain ⟨⟨key, rfl⟩, hv, hr⟩ := h
    have hkey : keyText (.string key) = .ok key := rfl
    rw [tableParts, hkey, ok_bind, exists_bind_iff fun _ ↦ exists_bind_ok_iff,
      exists_memberParts_iff path key hv, exists_tableParts_iff path hr, entriesHoldNull,
      Bool.or_eq_false_iff]

/-- The tables of a sequence are written exactly when there is no null in them. -/
theorem exists_itemSections_iff : ∀ {items : List Value} (path : List String),
    items.all isTable = true → ItemsKeyedByStrings items →
      ((∃ s, itemSections path items = .ok s) ↔ itemsHoldNull items = false)
  | [], _, _, _ => by simp [itemSections, itemsHoldNull]
  | v :: r, path, htables, h => by
    rw [List.all_cons, Bool.and_eq_true] at htables
    rw [itemSections, exists_bind_iff fun _ ↦ exists_bind_ok_iff,
      exists_itemParts_iff path htables.1 h.1, exists_itemSections_iff path htables.2 h.2,
      itemsHoldNull, Bool.or_eq_false_iff]

theorem exists_itemParts_iff : ∀ {v : Value} (path : List String), isTable v = true →
    v.KeyedByStrings → ((∃ p, itemParts path v = .ok p) ↔ v.holdsNull = false)
  | .mapping entries, path, _, h => by
    rw [itemParts, holdsNull]
    exact exists_tableParts_iff path h
  | .tagged tag v, path, _, h => by
    rw [itemParts, holdsNull]
    exact exists_memberParts_iff path (tagKey tag) h
  | .null, _, htable, _ | .bool _, _, htable, _ | .int _, _, htable, _ | .float _, _, htable, _
  | .string _, _, htable, _ | .sequence _, _, htable, _ => by
    cases htable

end

/-- **A tree keyed by strings can be written exactly when there is no null in it.** -/
theorem exists_render_iff {t : Tree} (ht : (Value.mapping t).KeyedByStrings) :
    (∃ s, render t = .ok s) ↔ (Value.mapping t).holdsNull = false := by
  rw [render, exists_bind_ok_iff, holdsNull]
  exact exists_tableParts_iff [] ht

end Toml

end LayeredConfig
