import LayeredConfig.Processor.Basic
import LayeredConfig.Proofs.Tree.Removal

/-!
# Reading back what was written

`Tree.set` writes a value where a path leads, and makes room for it: whatever is in the way gives
way to a mapping, a scalar as well as a sequence. So the path reads the value afterwards
(`Tree.get?_set_iff`), and a value that is moved to a path is found there.

One kind of value does not give way. A tagged mapping counts as a mapping, so it stays, but it is
not entered either: behind one, nothing is written at all (`Tree.set_of_isBarred`). That a segment
before the last leads to a tagged mapping, through mappings alone, is `Tree.IsBarred`, and it is the
only exception. Moving a value behind a tagged mapping loses it (`Tree.renameKey_loses_value`).
-/

namespace LayeredConfig

namespace Value

/-- The value that segments lead to through mappings alone. -/
def descendMappings? : List String → Value → Option Value
  | [], v => some v
  | s :: r, .mapping t => ((Value.mapping t).child? s).bind (descendMappings? r)
  | _ :: _, _ => none

variable {v w : Value} {before : List String}

theorem descend?_of_descendMappings? (h : v.descendMappings? before = some w) :
    v.descend? before = some w := by
  induction before generalizing v with
  | nil => exact h
  | cons s r ih =>
    cases v with
    | mapping t =>
      obtain ⟨c, hc, h⟩ := Option.bind_eq_some_iff.1 h
      rw [descend?, hc, Option.bind_some]
      exact ih h
    | null | bool _ | int _ | float _ | string _ | sequence _ | tagged _ _ => cases h

end Value

namespace Tree

variable {t : Tree} {k v w : Value} {s path : String} {r : List String}

/-! ### One entry -/

/-- An entry that was put in is found. -/
theorem find?_insert_self (k w : Value) (t : Tree) : find? k (t.insert k w) = some w := by
  induction t with
  | nil => rw [insert, find?, if_pos (Value.same_refl k)]
  | cons e r ih =>
    obtain ⟨c, x⟩ := e
    rw [insert]
    split
    · rename_i hc
      rw [find?, if_pos hc]
    · rename_i hc
      rw [find?, if_neg hc, ih]

/-- Putting in what is there changes nothing. -/
theorem insert_of_find? (h : find? k t = some w) : t.insert k w = t := by
  obtain ⟨before, c, after, rfl, hbefore, hc⟩ := find?_split h
  exact insert_append_cons hbefore hc

/-- The key that a segment writes under finds what the segment names. -/
theorem find?_keyFor (s : String) (t : Tree) :
    find? (t.keyFor s) t = (Value.mapping t).child? s := by
  rw [keyFor, Value.child?]
  cases hk : t.keyNamed? s with
  | some k => rfl
  | none =>
    have hnew := (keyNamed?_eq_none_iff.1 hk).1
    rw [contains, Option.isSome_eq_false_iff, Option.isNone_iff_eq_none] at hnew
    exact hnew

/-- **What a segment writes it names.** -/
theorem child?_insert_keyFor (s : String) (w : Value) (t : Tree) :
    (Value.mapping (t.insert (t.keyFor s) w)).child? s = some w := by
  have hnamed : (t.insert (t.keyFor s) w).keyNamed? s = some (t.keyFor s) := by
    rw [keyFor]
    cases hk : t.keyNamed? s with
    | some k =>
      have hcontains : t.contains k = true := contains_of_mem_keys (mem_keys_of_keyNamed? hk).1
      have hkeys : (t.insert k w).keys = t.keys := by rw [keys_insert, if_pos hcontains]
      exact (keyNamed?_of_keys_eq hkeys s).trans hk
    | none =>
      refine keyNamed?_eq_string_iff.2 ?_
      rw [contains, Option.getD_none, find?_insert_self]
      rfl
  rw [Value.child?, hnamed, Option.bind_some, find?_insert_self]

/-! ### Tagged mappings on the way -/

/-- On the way along the segments stands a tagged mapping: some of the segments, but not all of
them, lead to one through mappings alone. -/
def IsBarred (segments : List String) (t : Tree) : Prop :=
  ∃ before after tag content, segments = before ++ after ∧ after ≠ [] ∧
    (Value.mapping t).descendMappings? before = some (.tagged tag content) ∧
      content.isMapping = true

theorem not_isBarred_nil (t : Tree) : ¬t.IsBarred [] := by
  rintro ⟨before, after, tag, content, hsplit, hafter, -, -⟩
  exact hafter (List.append_eq_nil_iff.1 hsplit.symm).2

/-- The first segment leads to the tagged mapping itself, or to a mapping with one behind. -/
theorem isBarred_cons_iff : t.IsBarred (s :: r) ↔
    (∃ inner, (Value.mapping t).child? s = some (.mapping inner) ∧ IsBarred r inner) ∨
      r ≠ [] ∧ ∃ tag content, (Value.mapping t).child? s = some (.tagged tag content) ∧
        content.isMapping = true := by
  constructor
  · rintro ⟨before, after, tag, content, hsplit, hafter, hbefore, hcontent⟩
    cases before with
    | nil => cases hbefore
    | cons s' before =>
      obtain ⟨rfl, rfl⟩ := List.cons.inj hsplit
      obtain ⟨c, hc, hbefore⟩ := Option.bind_eq_some_iff.1 hbefore
      cases before with
      | nil =>
        obtain rfl := Option.some.inj hbefore
        exact Or.inr ⟨hafter, tag, content, hc, hcontent⟩
      | cons s' before =>
        cases c with
        | mapping inner =>
          have hinner : IsBarred (s' :: before ++ after) inner :=
            ⟨s' :: before, after, tag, content, rfl, hafter, hbefore, hcontent⟩
          exact Or.inl ⟨inner, hc, hinner⟩
        | null | bool _ | int _ | float _ | string _ | sequence _ | tagged _ _ => cases hbefore
  · rintro (⟨inner, hc, before, after, tag, content, rfl, hafter, hbefore, hcontent⟩ |
      ⟨hr, tag, content, hc, hcontent⟩)
    · refine ⟨s :: before, after, tag, content, rfl, hafter, ?_, hcontent⟩
      rw [Value.descendMappings?, hc, Option.bind_some, hbefore]
    · refine ⟨[s], r, tag, content, rfl, hr, ?_, hcontent⟩
      rw [Value.descendMappings?, hc]
      rfl

theorem not_isBarred_singleton (s : String) (t : Tree) : ¬t.IsBarred [s] := by
  rw [isBarred_cons_iff]
  rintro (⟨inner, -, h⟩ | ⟨h, -⟩)
  · exact not_isBarred_nil inner h
  · exact h rfl

/-- In an empty tree nothing stands in the way. -/
theorem not_isBarred_empty (segments : List String) : ¬IsBarred segments [] := by
  cases segments with
  | nil => exact not_isBarred_nil []
  | cons s r =>
    rw [isBarred_cons_iff]
    rintro (⟨inner, h, -⟩ | ⟨-, tag, content, h, -⟩) <;> cases h

/-- The tree in which a path goes on when it is written behind what a segment names: the mapping
there, or an empty tree in place of something else. Behind a tagged mapping there is none. -/
def room? : Option Value → Option Tree
  | some (.mapping inner) => some inner
  | some (.tagged _ content) => if content.isMapping then none else some []
  | _ => some []

theorem setSegments_cons_cons (v : Value) (s s' : String) (r : List String) (t : Tree) :
    t.setSegments v (s :: s' :: r) =
      match room? ((Value.mapping t).child? s) with
      | some inner => t.insert (t.keyFor s) (.mapping (inner.setSegments v (s' :: r)))
      | none => t := by
  rw [setSegments.eq_3 _ _ _ _ (by simp), find?_keyFor]
  cases hc : (Value.mapping t).child? s with
  | none => rfl
  | some c =>
    cases c with
    | tagged tag content =>
      have htagged : (Value.tagged tag content).isMapping = content.isMapping := rfl
      cases hcontent : content.isMapping <;> simp [room?, htagged, hcontent]
    | null | bool _ | int _ | float _ | string _ | sequence _ | mapping _ => rfl

/-- A tagged mapping stands in the way at the first segment, where it leaves no room, or behind. -/
theorem isBarred_cons_cons_iff {s' : String} : t.IsBarred (s :: s' :: r) ↔
    ∀ inner ∈ room? ((Value.mapping t).child? s), IsBarred (s' :: r) inner := by
  rw [isBarred_cons_iff]
  cases hc : (Value.mapping t).child? s with
  | none => simp [room?, not_isBarred_empty]
  | some c =>
    cases c with
    | tagged tag content =>
      cases hcontent : content.isMapping with
      | false => simp [room?, hcontent, not_isBarred_empty]
      | true =>
        have hroom : room? (some (.tagged tag content)) = none := if_pos hcontent
        refine iff_of_true (Or.inr ⟨List.cons_ne_nil _ _, tag, content, rfl, hcontent⟩) ?_
        simp [hroom]
    | null | bool _ | int _ | float _ | string _ | sequence _ => simp [room?, not_isBarred_empty]
    | mapping inner => simp [room?]

instance decidableIsBarred : (segments : List String) → (t : Tree) → Decidable (t.IsBarred segments)
  | [], t => isFalse (not_isBarred_nil t)
  | [s], t => isFalse (not_isBarred_singleton s t)
  | _ :: s :: r, _ =>
    have := decidableIsBarred (s :: r)
    decidable_of_iff _ isBarred_cons_cons_iff.symm

/-! ### Writing, then reading -/

theorem descend?_setSegments (v : Value) (h : ¬t.IsBarred (s :: r)) :
    (Value.mapping (t.setSegments v (s :: r))).descend? (s :: r) = some v := by
  induction r generalizing s t with
  | nil => rw [setSegments, Value.descend?, child?_insert_keyFor, Option.bind_some, Value.descend?]
  | cons s' r ih =>
    have hroom : ∃ inner, room? ((Value.mapping t).child? s) = some inner ∧
        ¬inner.IsBarred (s' :: r) := by simpa [isBarred_cons_cons_iff] using h
    obtain ⟨inner, hroom, hinner⟩ := hroom
    rw [setSegments_cons_cons, hroom, Value.descend?, child?_insert_keyFor, Option.bind_some]
    exact ih hinner

theorem descend?_of_isBarred {segments : List String} (h : t.IsBarred segments) :
    (Value.mapping t).descend? segments = none := by
  obtain ⟨before, after, tag, content, rfl, hafter, hbefore, -⟩ := h
  obtain ⟨s, r, rfl⟩ := List.exists_cons_of_ne_nil hafter
  rw [Value.descend?_append, Value.descend?_of_descendMappings? hbefore, Option.bind_some]
  rfl

theorem setSegments_of_isBarred {segments : List String} (v : Value) (h : t.IsBarred segments) :
    t.setSegments v segments = t := by
  induction segments generalizing t with
  | nil => rfl
  | cons s r ih =>
    cases r with
    | nil => exact absurd h (not_isBarred_singleton s t)
    | cons s' r =>
      rw [setSegments_cons_cons]
      rcases isBarred_cons_iff.1 h with ⟨inner, hc, hinner⟩ | ⟨-, tag, content, hc, hcontent⟩
      · rw [hc, room?]
        simp only [ih hinner]
        exact insert_of_find? ((find?_keyFor s t).trans hc)
      · simp only [hc, room?, if_pos hcontent]

/-- Behind a tagged mapping nothing is written. -/
theorem set_of_isBarred (v : Value) (h : t.IsBarred (segments path)) :
    t.set path v = t :=
  setSegments_of_isBarred v h

/-- **A value that was written is read back** exactly when no tagged mapping stands in the way. -/
theorem get?_set_iff (hpath : path ≠ "") :
    (t.set path v).get? path = some v ↔ ¬t.IsBarred (segments path) := by
  rw [get?, if_neg hpath]
  constructor
  · intro h hbarred
    rw [set_of_isBarred v hbarred, descend?_of_isBarred hbarred] at h
    cases h
  · intro h
    obtain ⟨s, r, hsegments⟩ := List.exists_cons_of_ne_nil (segments_ne_nil path)
    rw [set, hsegments]
    exact descend?_setSegments v (by rwa [← hsegments])

/-- **What is written under a path, or moved there, is read back** exactly when no tagged mapping
stands in the way. Otherwise the write changes nothing, and a value that was to be moved is gone. -/
theorem reads_back_iff {target : String} (htarget : target ≠ "") :
    (∀ (t : Tree) (v : Value),
      ((t.set target v).get? target = some v ↔ ¬t.IsBarred (segments target)) ∧
        (t.IsBarred (segments target) → t.set target v = t)) ∧
    ∀ (t : Tree) (source : String) (v : Value) (rest : Tree), t.remove? source = some (v, rest) →
      ∃ out, Processor.run t (.renameKey source target) = .ok out ∧
        (out.get? target = some v ↔ ¬rest.IsBarred (segments target)) ∧
        (rest.IsBarred (segments target) → out = rest) := by
  refine ⟨fun t v ↦ ⟨get?_set_iff htarget, set_of_isBarred v⟩, fun t source v rest hremove ↦ ?_⟩
  have hrun : Processor.run t (.renameKey source target) = .ok (rest.set target v) := by
    rw [Processor.run, hremove]
  exact ⟨_, hrun, get?_set_iff htarget, set_of_isBarred v⟩

/-- A secret beside a list of hosts, and beside a host of its own kind. -/
def secretBesideHosts : Tree :=
  [(.string "token", .string "s3cret"), (.string "db", .sequence [.string "a", .string "b"]),
    (.string "cache", .tagged "host" (.string "c"))]

/-- Neither a list nor a tagged text stands in the way of the secret. -/
theorem reads_back_secret :
    "db.auth.token" ≠ "" ∧ "cache.token" ≠ "" ∧
    (secretBesideHosts.set "cache.token" .null).get? "cache.token" = some .null ∧
    secretBesideHosts.remove? "token" = some (.string "s3cret", secretBesideHosts.tail) ∧
    ∃ out, Processor.run secretBesideHosts (.renameKey "token" "db.auth.token") = .ok out ∧
      out.get? "db.auth.token" = some (.string "s3cret") := by
  have hdb : "db.auth.token" ≠ "" := by decide
  have hcache : "cache.token" ≠ "" := by decide
  have hremove : secretBesideHosts.remove? "token" =
      some (.string "s3cret", secretBesideHosts.tail) := by
    decide
  have hset := ((reads_back_iff hcache).1 secretBesideHosts .null).1.2 (by decide)
  obtain ⟨out, hout, hread, -⟩ := (reads_back_iff hdb).2 _ _ _ _ hremove
  exact ⟨hdb, hcache, hset, hremove, out, hout, hread.2 (by decide)⟩

/-- **A tagged mapping loses what is moved behind it**: the secret is taken away where it was, and
written nowhere. -/
theorem renameKey_loses_value :
    (¬∀ (t : Tree) (path : String) (v : Value), path ≠ "" → t.WellFormed →
      (t.set path v).get? path = some v) ∧
    ¬∀ (t : Tree) (source target : String) (v : Value) (rest : Tree), target ≠ "" → t.WellFormed →
      t.remove? source = some (v, rest) →
        ∃ out, Processor.run t (.renameKey source target) = .ok out ∧
          out.get? target = some v := by
  let shared : Tree := [(.string "db", .tagged "shared" (.mapping []))]
  let t : Tree := (.string "token", .string "s3cret") :: shared
  have hshared : shared.WellFormed := by
    simp [shared, WellFormed, Value.WellFormed, Value.WellFormedEntries]
  have ht : t.WellFormed := by
    simp [t, shared, WellFormed, Value.WellFormed, Value.WellFormedEntries, Value.same]
  constructor
  · intro h
    have hread := h shared "db.token" (.string "s3cret") (by decide) hshared
    have hlost : (shared.set "db.token" (.string "s3cret")).get? "db.token" = none := by
      decide
    rw [hlost] at hread
    cases hread
  · intro h
    have hremove : t.remove? "token" = some (.string "s3cret", shared) := by decide
    obtain ⟨out, hout, hread⟩ := h t "token" "db.token" _ _ (by decide) ht hremove
    have hbarred : shared.IsBarred (segments "db.token") := by decide
    obtain rfl : shared = out := by
      rw [Processor.run, hremove] at hout
      exact (set_of_isBarred _ hbarred).symm.trans (Except.ok.inj hout)
    have hlost : shared.get? "db.token" = none := by decide
    rw [hlost] at hread
    cases hread

end Tree

end LayeredConfig
