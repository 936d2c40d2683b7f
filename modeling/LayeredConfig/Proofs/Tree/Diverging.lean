import LayeredConfig.Proofs.Tree.Writing
import Mathlib.Data.List.Pairwise

/-!
# What a write leaves as it was

Two paths diverge where their segments first differ. A write at one of them leaves what the other
reads as it was, if up to there it comes through mappings only (`Tree.OpenAlong`): a key that a
segment names, or that a write brings in for it, has no second name (`Value.eq_of_isNamed`), so what
another segment names in the same mapping stays (`Tree.child?_insert_keyFor_of_ne`).

If something else stands on the way, the other path reads nothing afterwards. Either it gave way to
a mapping in which the written path is all there is, or it is a tagged mapping, which no path goes
through. A value is lost in this way only with a sequence that it was in
(`Tree.get?_set_of_diverging`).
-/

namespace LayeredConfig

/-- A key has one name at most. -/
theorem Value.eq_of_isNamed {k : Value} {s s' : String} (h : k.isNamed s = true)
    (h' : k.isNamed s' = true) : s = s' :=
  (keyText_of_isNamed h).symm.trans (keyText_of_isNamed h')

namespace Tree

variable {t : Tree} {k k' v w x : Value} {s s' a b : String} {common r r' : List String}

/-! ### In one mapping -/

/-- In a well-formed tree no two keys are the same. -/
theorem WellFormed.same_eq_false (ht : t.WellFormed) (hk : k ∈ t.keys) (hk' : k' ∈ t.keys)
    (hne : k ≠ k') : k.same k' = false := by
  have : Std.Symm fun c d : Value ↦ c.same d = false ∧ d.same c = false := ⟨fun _ _ ↦ And.symm⟩
  have hapart : t.keys.Pairwise fun c d ↦ c.same d = false ∧ d.same c = false := by
    refine (wellFormed_iff.1 ht).1.imp_of_mem fun {c d} _ hd hcd ↦ ⟨hcd, ?_⟩
    refine Bool.eq_false_iff.2 fun hdc ↦ ?_
    rw [Value.same_symm (ht.key hd) hdc] at hcd
    cases hcd
  exact (hapart.forall hk hk' hne).1

theorem isNamed_keyFor (s : String) (t : Tree) : (t.keyFor s).isNamed s = true := by
  rw [keyFor]
  cases hk : t.keyNamed? s with
  | some k => exact (mem_keys_of_keyNamed? hk).2
  | none => simp [Value.isNamed]

/-- The key that is written under is not the same as one with another name. -/
theorem same_keyFor_eq_false (ht : t.WellFormed) (hne : s ≠ s') (hk : t.keyNamed? s' = some k) :
    (t.keyFor s).same k = false := by
  obtain ⟨hmem, hnamed⟩ := mem_keys_of_keyNamed? hk
  have hapart : t.keyFor s ≠ k := fun h ↦
    hne (Value.eq_of_isNamed (isNamed_keyFor s t) (h ▸ hnamed))
  rw [keyFor] at hapart ⊢
  cases hs : t.keyNamed? s with
  | some c =>
    rw [hs] at hapart
    exact ht.same_eq_false (mem_keys_of_keyNamed? hs).1 hmem hapart
  | none =>
    rw [hs] at hapart
    exact Bool.eq_false_iff.2 fun hsame ↦ hapart (Value.same_string_iff.1 hsame)

/-- A write does not change which key another segment names. -/
theorem keyNamed?_insert_keyFor_of_ne (hne : s ≠ s') (w : Value) (t : Tree) :
    (t.insert (t.keyFor s) w).keyNamed? s' = t.keyNamed? s' := by
  by_cases hold : t.contains (t.keyFor s) = true
  · exact keyNamed?_of_keys_eq (by rw [keys_insert, if_pos hold]) s'
  · -- The key is new, so it is the string, which other segments pass over.
    have hkey : t.keyFor s = .string s := by
      rw [keyFor]
      cases hs : t.keyNamed? s with
      | none => rfl
      | some c =>
        rw [keyFor, hs] at hold
        exact absurd (contains_of_mem_keys (mem_keys_of_keyNamed? hs).1) hold
    have hkeys : (t.insert (t.keyFor s) w).keys = t.keys ++ [.string s] := by
      rw [keys_insert, if_neg hold, hkey]
    rw [keyNamed?, keyNamed?, contains_eq_any_keys, contains_eq_any_keys, hkeys, List.any_append,
      List.find?_append]
    simp [hne, Value.isString, Value.untagged]

/-- **A write under one segment leaves what any other names.** -/
theorem child?_insert_keyFor_of_ne (ht : t.WellFormed) (hne : s ≠ s') (w : Value) :
    (Value.mapping (t.insert (t.keyFor s) w)).child? s' = (Value.mapping t).child? s' := by
  rw [Value.child?, Value.child?, keyNamed?_insert_keyFor_of_ne hne]
  cases hk : t.keyNamed? s' with
  | none => rfl
  | some k =>
    have hkeyFor : (t.keyFor s).WellFormed := by
      rw [keyFor]
      cases hs : t.keyNamed? s with
      | some c => exact ht.key (mem_keys_of_keyNamed? hs).1
      | none => trivial
    rw [Option.bind_some, Option.bind_some, find?_insert (fun c hc ↦ ht.key hc) hkeyFor,
      same_keyFor_eq_false ht hne hk]
    rfl

/-! ### Along a path -/

/-- What the segments lead to, and all of them but some at the end, are mappings. -/
def OpenAlong (segments : List String) (t : Tree) : Prop :=
  ∀ before, before <+: segments → ∃ inner, (Value.mapping t).descend? before = some (.mapping inner)

theorem openAlong_nil (t : Tree) : t.OpenAlong [] := by
  intro before hbefore
  obtain rfl := List.prefix_nil.1 hbefore
  exact ⟨t, rfl⟩

theorem openAlong_cons_iff : t.OpenAlong (s :: r) ↔
    ∃ inner, (Value.mapping t).child? s = some (.mapping inner) ∧ OpenAlong r inner := by
  constructor
  · intro h
    obtain ⟨inner, hinner⟩ := h [s] (List.cons_prefix_cons.2 ⟨rfl, List.nil_prefix⟩)
    have hchild : (Value.mapping t).child? s = some (.mapping inner) := by
      rwa [Value.descend?, show Value.descend? [] = some from rfl, Option.bind_fun_some] at hinner
    refine ⟨inner, hchild, fun before hbefore ↦ ?_⟩
    obtain ⟨deeper, hdeeper⟩ := h (s :: before) (List.cons_prefix_cons.2 ⟨rfl, hbefore⟩)
    rw [Value.descend?, hchild, Option.bind_some] at hdeeper
    exact ⟨deeper, hdeeper⟩
  · rintro ⟨inner, hchild, hr⟩ before hbefore
    cases before with
    | nil => exact ⟨t, rfl⟩
    | cons s' before =>
      obtain ⟨rfl, hprefix⟩ := List.cons_prefix_cons.1 hbefore
      rw [Value.descend?, hchild, Option.bind_some]
      exact hr before hprefix

instance decidableOpenAlong : (segments : List String) → (t : Tree) →
    Decidable (t.OpenAlong segments)
  | [], t => isTrue (openAlong_nil t)
  | s :: r, t =>
    match h : (Value.mapping t).child? s with
    | some (.mapping inner) =>
      have := decidableOpenAlong r inner
      decidable_of_iff (OpenAlong r inner) (by simp [openAlong_cons_iff, h])
    | none | some .null | some (.bool _) | some (.int _) | some (.float _) | some (.string _)
    | some (.sequence _) | some (.tagged ..) => isFalse (by simp [openAlong_cons_iff, h])

/-- A write behind a segment goes on in the room there, if there is any. -/
theorem setSegments_cons_of_ne_nil (v : Value) (s : String) (hr : r ≠ []) (t : Tree) :
    t.setSegments v (s :: r) =
      match room? ((Value.mapping t).child? s) with
      | some inner => t.insert (t.keyFor s) (.mapping (inner.setSegments v r))
      | none => t := by
  obtain ⟨s', r, rfl⟩ := List.exists_cons_of_ne_nil hr
  exact setSegments_cons_cons v s s' r t

/-- Where the paths diverge at once, the first segment of the one reads as before. -/
theorem child?_setSegments_of_ne (ht : t.WellFormed) (hab : a ≠ b) (v : Value) (r : List String) :
    (Value.mapping (t.setSegments v (a :: r))).child? b = (Value.mapping t).child? b := by
  cases r with
  | nil => exact child?_insert_keyFor_of_ne ht hab v
  | cons s r =>
    rw [setSegments_cons_cons]
    cases room? ((Value.mapping t).child? a) with
    | some inner => exact child?_insert_keyFor_of_ne ht hab _
    | none => rfl

/-- Through mappings, a diverging path reads what it read. -/
theorem descend?_setSegments_of_openAlong (ht : t.WellFormed) (hab : a ≠ b)
    (hopen : t.OpenAlong common) (v : Value) (r r' : List String) :
    (Value.mapping (t.setSegments v (common ++ a :: r))).descend? (common ++ b :: r') =
      (Value.mapping t).descend? (common ++ b :: r') := by
  induction common generalizing t with
  | nil =>
    rw [List.nil_append, List.nil_append, Value.descend?, Value.descend?,
      child?_setSegments_of_ne ht hab]
  | cons s common ih =>
    obtain ⟨inner, hchild, hopen⟩ := openAlong_cons_iff.1 hopen
    rw [List.cons_append, List.cons_append, setSegments_cons_of_ne_nil v s (by simp), hchild, room?,
      Value.descend?, Value.descend?, child?_insert_keyFor, hchild, Option.bind_some,
      Option.bind_some]
    exact ih (Value.WellFormed.child? ht hchild) hopen

/-- In an empty tree only the path itself is there after a write. -/
theorem descend?_setSegments_empty (hab : a ≠ b) (v : Value) (common r r' : List String) :
    (Value.mapping (setSegments v (common ++ a :: r) [])).descend? (common ++ b :: r') = none := by
  induction common with
  | nil =>
    rw [descend?_setSegments_of_openAlong wellFormed_nil hab (openAlong_nil [])]
    rfl
  | cons s common ih =>
    have hroom : room? ((Value.mapping []).child? s) = some [] := rfl
    rw [List.cons_append, List.cons_append, setSegments_cons_of_ne_nil v s (by simp), hroom,
      Value.descend?, child?_insert_keyFor, Option.bind_some, ih]

/-- Behind a segment a write goes on in the mapping there, in an empty one in place of something
else, or, where a tagged mapping is, not at all. -/
theorem room?_cases (part : Option Value) :
    (∃ inner, part = some (.mapping inner) ∧ room? part = some inner) ∨
      (∀ inner, part ≠ some (.mapping inner)) ∧ room? part = some [] ∨
      (∃ tag content, part = some (.tagged tag content)) ∧ room? part = none := by
  match part with
  | some (.mapping inner) => exact Or.inl ⟨inner, rfl, rfl⟩
  | some (.tagged tag content) =>
    cases hcontent : content.isMapping with
    | true => exact Or.inr (Or.inr ⟨⟨tag, content, rfl⟩, if_pos hcontent⟩)
    | false => exact Or.inr (Or.inl ⟨by simp, by simp [room?, hcontent]⟩)
  | none | some .null | some (.bool _) | some (.int _) | some (.float _) | some (.string _)
  | some (.sequence _) => exact Or.inr (Or.inl ⟨by simp, rfl⟩)

/-- Through anything but mappings, a diverging path reads nothing. -/
theorem descend?_setSegments_of_not_openAlong (hab : a ≠ b) (hopen : ¬t.OpenAlong common)
    (v : Value) (r r' : List String) :
    (Value.mapping (t.setSegments v (common ++ a :: r))).descend? (common ++ b :: r') = none := by
  induction common generalizing t with
  | nil => exact absurd (openAlong_nil t) hopen
  | cons s common ih =>
    rw [List.cons_append, List.cons_append, setSegments_cons_of_ne_nil v s (by simp)]
    rcases room?_cases ((Value.mapping t).child? s) with
      ⟨inner, hchild, hroom⟩ | ⟨-, hroom⟩ | ⟨⟨tag, content, hchild⟩, hroom⟩
    · rw [hroom, Value.descend?, child?_insert_keyFor, Option.bind_some]
      exact ih fun hinner ↦ hopen (openAlong_cons_iff.2 ⟨inner, hchild, hinner⟩)
    · rw [hroom, Value.descend?, child?_insert_keyFor, Option.bind_some]
      exact descend?_setSegments_empty hab v common r r'
    · -- The tree is as it was, and the path would have to go through the tag.
      rw [hroom, Value.descend?, hchild, Option.bind_some]
      cases common <;> rfl

/-- What a diverging path read and does not read any more was in a sequence, and a mapping is in the
place of this. -/
theorem exists_sequence_of_not_openAlong (hopen : ¬t.OpenAlong common) (v : Value) (r : List String)
    (hx : (Value.mapping t).descend? (common ++ b :: r') = some x) :
    ∃ before items inner, before <+: common ∧
      (Value.mapping t).descend? before = some (.sequence items) ∧
      (Value.mapping (t.setSegments v (common ++ a :: r))).descend? before =
        some (.mapping inner) := by
  induction common generalizing t with
  | nil => exact absurd (openAlong_nil t) hopen
  | cons s common ih =>
    obtain ⟨c, hchild, hx⟩ := Option.bind_eq_some_iff.1 hx
    rw [List.cons_append, setSegments_cons_of_ne_nil v s (by simp), hchild]
    cases c with
    | mapping inner =>
      have hinner : ¬OpenAlong common inner := fun hinner ↦
        hopen (openAlong_cons_iff.2 ⟨inner, hchild, hinner⟩)
      obtain ⟨before, items, after, hprefix, hitems, hafter⟩ := ih hinner hx
      refine ⟨s :: before, items, after, List.cons_prefix_cons.2 ⟨rfl, hprefix⟩, ?_, ?_⟩
      · rw [Value.descend?, hchild, Option.bind_some, hitems]
      · rw [room?, Value.descend?, child?_insert_keyFor, Option.bind_some, hafter]
    | sequence items =>
      refine ⟨[s], items, setSegments v (common ++ a :: r) [],
        List.cons_prefix_cons.2 ⟨rfl, List.nil_prefix⟩, ?_, ?_⟩
      · rw [Value.descend?, hchild, Option.bind_some, Value.descend?]
      · rw [room?, Value.descend?, child?_insert_keyFor, Option.bind_some, Value.descend?] <;> simp
    | null | bool _ | int _ | float _ | string _ | tagged _ _ => cases common <;> cases hx

/-- **A write leaves what a diverging path reads**, if both come through mappings up to the segment
at which they differ. Otherwise the other path reads nothing afterwards. It did not read anything
before either, unless on the way there was a sequence, which gave way to a mapping. -/
theorem get?_set_of_diverging {p q : String} (ht : t.WellFormed)
    (hp : segments p = common ++ a :: r) (hq : segments q = common ++ b :: r') (hab : a ≠ b)
    (v : Value) :
    (t.OpenAlong common → (t.set p v).get? q = t.get? q) ∧
    (¬t.OpenAlong common → (t.set p v).get? q = none) ∧
    ((t.set p v).get? q ≠ t.get? q → ∃ before items inner, before <+: common ∧
      (Value.mapping t).descend? before = some (.sequence items) ∧
      (Value.mapping (t.set p v)).descend? before = some (.mapping inner)) := by
  have hset : t.set p v = t.setSegments v (common ++ a :: r) := by rw [set, hp]
  have hnot (hopen : ¬t.OpenAlong common) : (t.set p v).get? q = none := by
    rw [get?, hq, hset, descend?_setSegments_of_not_openAlong hab hopen, ite_self]
  have hopen (hopen : t.OpenAlong common) : (t.set p v).get? q = t.get? q := by
    rw [get?, get?, hq, hset, descend?_setSegments_of_openAlong ht hab hopen]
  refine ⟨hopen, hnot, fun hchange ↦ ?_⟩
  have hclosed : ¬t.OpenAlong common := fun h ↦ hchange (hopen h)
  obtain ⟨x, hx⟩ := Option.ne_none_iff_exists'.1 (hnot hclosed ▸ hchange.symm)
  obtain ⟨-, hx⟩ := get?_eq_some_iff.1 hx
  rw [hset]
  exact exists_sequence_of_not_openAlong hclosed v r (hq ▸ hx)

/-- A port under a number, a list of hosts, and settings behind a tag. -/
def portsBesideHosts : Tree :=
  [(.string "net", .mapping [(.string "ports", .mapping [(.int 8080, .string "web")]),
    (.string "hosts", .sequence [.string "a", .string "b"]),
    (.string "shared", .tagged "host" (.mapping [(.string "c", .null)]))])]

/-- A new port leaves the number as it was, an entry in place of the list of hosts takes the other
host away, and behind the tag there is nothing to read. -/
theorem get?_set_of_diverging_ports : portsBesideHosts.WellFormed ∧
    (portsBesideHosts.set "net.ports.http.inner" .null).get? "net.ports.8080" =
      some (.string "web") ∧
    portsBesideHosts.get? "net.hosts.01" = some (.string "b") ∧
    (portsBesideHosts.set "net.hosts.0" .null).get? "net.hosts.01" = none ∧
    (portsBesideHosts.set "net.shared.d" .null).get? "net.shared.c" = none := by
  have ht : portsBesideHosts.WellFormed := by
    simp [portsBesideHosts, WellFormed, Value.WellFormed, Value.WellFormedEntries,
      Value.WellFormedItems, Value.same]
  have hports : segments "net.ports.http.inner" = ["net", "ports"] ++ "http" :: ["inner"] := by
    decide +kernel
  have hport : segments "net.ports.8080" = ["net", "ports"] ++ "8080" :: [] := by decide +kernel
  have hhost : segments "net.hosts.0" = ["net", "hosts"] ++ "0" :: [] := by decide +kernel
  have hother : segments "net.hosts.01" = ["net", "hosts"] ++ "01" :: [] := by decide +kernel
  have hshared : segments "net.shared.d" = ["net", "shared"] ++ "d" :: [] := by decide +kernel
  have hsecret : segments "net.shared.c" = ["net", "shared"] ++ "c" :: [] := by decide +kernel
  refine ⟨ht, ?_, by decide +kernel, ?_, ?_⟩
  · have hread : portsBesideHosts.get? "net.ports.8080" = some (.string "web") := by decide +kernel
    rw [← hread]
    exact (get?_set_of_diverging ht hports hport (by decide) .null).1 (by decide +kernel)
  · exact (get?_set_of_diverging ht hhost hother (by decide) .null).2.1 (by decide +kernel)
  · exact (get?_set_of_diverging ht hshared hsecret (by decide) .null).2.1 (by decide +kernel)

end Tree

end LayeredConfig
