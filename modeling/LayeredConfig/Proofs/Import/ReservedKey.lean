import LayeredConfig.Proofs.Import.Invariant

/-!
# The key of the list of imports

The list of imports is taken out of a document before the document is laid over anything, and no
other way to make an assembly brings in a key (`Tree.string_mem_keys_merge_iff`,
`Tree.keys_foldl_without_sublist`). So a key `imports` in an assembled tree comes from the default
layer, which alone is laid down as it is (`Sources.importsKey_not_mem_of_assembleEntry`). If the
default layer has the key and no import excludes anything, it is there in the end
(`Sources.importsKey_mem_of_defaultTree`).

That the list is gone from a document rests on the document being well-formed: of a key that stands
there twice only the first would be taken out.
-/

namespace LayeredConfig

/-! ### Keys of a tree -/

namespace Tree

variable {t base overlay : Tree} {k v : Value} {name : String}

theorem string_mem_keys_insert_iff : .string name ∈ (t.insert k v).keys ↔
    .string name ∈ t.keys ∨ .string name = k := by
  rw [keys_insert]
  split
  · rename_i hcontains
    constructor
    · exact Or.inl
    · rintro (h | rfl)
      · exact h
      · exact contains_string_iff.1 hcontains
  · rw [List.mem_append, List.mem_singleton]

/-- Two layers have the strings as keys that one of them has. -/
theorem string_mem_keys_merge_iff : .string name ∈ (base.merge overlay).keys ↔
    .string name ∈ base.keys ∨ .string name ∈ overlay.keys := by
  induction overlay generalizing base with
  | nil => simp [merge, mergeEntries, keys]
  | cons e r ih =>
    obtain ⟨c, w⟩ := e
    have hkeys : keys ((c, w) :: r) = c :: keys r := rfl
    rw [merge_cons, ih, string_mem_keys_insert_iff, hkeys, List.mem_cons, or_assoc]

theorem keys_foldl_without_sublist (paths : List String) (t : Tree) :
    (paths.foldl Tree.without t).keys.Sublist t.keys := by
  induction paths generalizing t with
  | nil => exact List.Sublist.refl _
  | cons p r ih =>
    refine (ih (t.without p)).trans ?_
    rcases without_eq_or_removed t p with h | h
    · simp [h]
    · exact h.keys_sublist

/-- In a well-formed tree a string is the key of one entry, so erasing it leaves all entries with
other keys. -/
theorem erase_string_eq_filter (ht : t.WellFormed) (name : String) :
    t.erase (.string name) = t.filter fun e ↦ e.1 ≠ .string name := by
  induction t with
  | nil => rfl
  | cons e r ih =>
    obtain ⟨k, v⟩ := e
    have hr : WellFormed r := ht.sublist (List.sublist_cons_self _ _)
    by_cases hk : k = .string name
    · obtain rfl := hk
      have hother (e : Value × Value) (he : e ∈ r) : e.1 ≠ .string name :=
        (Value.ne_of_same_eq_false ((List.pairwise_cons.1 ht.1).1 e he)).symm
      rw [erase, Value.same_refl, if_pos rfl, List.filter_cons_of_neg (by simp),
        List.filter_eq_self.2 fun e he ↦ decide_eq_true (hother e he)]
    · have hsame : k.same (.string name) = false :=
        Bool.eq_false_iff.2 fun h ↦ hk (Value.same_string_right_iff.1 h)
      rw [erase, hsame, List.filter_cons_of_pos (by simpa using hk), ih hr]
      rfl

/-- In a well-formed tree an erased string was there only once. -/
theorem string_not_mem_keys_erase (ht : t.WellFormed) (name : String) :
    .string name ∉ (t.erase (.string name)).keys := by
  rw [erase_string_eq_filter ht]
  intro hmem
  obtain ⟨e, he, hname⟩ := List.mem_map.1 hmem
  exact of_decide_eq_true (List.mem_filter.1 he).2 hname

end Tree

/-- An import that excludes nothing takes no key away, and brings in its own. -/
theorem Assembly.string_mem_keys_addAll {name : String}
    {contribution : ImportEntry → Except LoadError Assembly}
    {base a : Assembly} {imports : List ImportEntry} (hexclude : ∀ i ∈ imports, i.exclude = [])
    (h : base.addAll contribution imports = .ok a)
    (hname : .string name ∈ base.tree.keys ∨
      ∃ i ∈ imports, ∀ b, contribution i = .ok b → .string name ∈ b.tree.keys) :
    .string name ∈ a.tree.keys := by
  induction imports generalizing base with
  | nil =>
    obtain rfl : base = a := Except.ok.inj h
    rcases hname with hname | ⟨i, hi, -⟩
    · exact hname
    · cases hi
  | cons i r ih =>
    obtain ⟨b, hb, h⟩ := bind_eq_ok_iff.1 h
    have hadd : .string name ∈ (base.add i b).tree.keys ↔
        .string name ∈ base.tree.keys ∨ .string name ∈ b.tree.keys := by
      rw [add, hexclude i List.mem_cons_self]
      exact Tree.string_mem_keys_merge_iff
    refine ih (fun i' hi' ↦ hexclude i' (List.mem_cons_of_mem _ hi')) h ?_
    rcases hname with hname | ⟨i', hi', hname⟩
    · exact Or.inl (hadd.2 (Or.inl hname))
    · rcases List.mem_cons.1 hi' with rfl | hi'
      · exact Or.inl (hadd.2 (Or.inr (hname b hb)))
      · exact Or.inr ⟨i', hi', hname⟩

namespace Sources

variable {s : Sources} {suppress : Bool} {entry : FilePath} {a : Assembly}

/-- An assembled tree has the key `imports` only if a default layer with this key is among its
documents. -/
theorem invariant_importsKey : s.Invariant fun a ↦ .string importsKey ∈ a.tree.keys →
    ∃ d ∈ a.documents, d.kind = .default ∧
      ∃ t, s.defaultTree = .ok t ∧ .string importsKey ∈ Tree.keys t where
  empty hmem := by cases hmem
  defaultLayer depth a h hmem := by
    have htree : s.defaultTree = .ok a.tree := defaultTree_of_defaultLayer h
    rw [defaultLayer] at h
    split at h
    · obtain rfl : .empty = a := Except.ok.inj h
      cases hmem
    · obtain ⟨t, -, h⟩ := bind_eq_ok_iff.1 h
      obtain rfl := Except.ok.inj h
      exact ⟨_, List.mem_singleton_self _, rfl, t, htree, hmem⟩
  add a b i ha hb hmem := by
    have hmerge : .string importsKey ∈ (a.tree.merge b.tree).keys :=
      (Tree.keys_foldl_without_sublist i.exclude _).subset hmem
    rcases Tree.string_mem_keys_merge_iff.1 hmerge with hmem | hmem
    · obtain ⟨d, hd, hdefault⟩ := ha hmem
      exact ⟨d, List.mem_append_left _ hd, hdefault⟩
    · obtain ⟨d, hd, hdefault⟩ := hb hmem
      exact ⟨d, List.mem_append_right _ hd, hdefault⟩
  document path text imports own kind depth a hread ha hmem := by
    obtain ⟨t, ht, rfl⟩ := eq_erase_of_readDocument hread
    rcases Tree.string_mem_keys_merge_iff.1 hmem with hmem | hmem
    · obtain ⟨d, hd, hdefault⟩ := ha hmem
      exact ⟨d, List.mem_cons_of_mem _ hd, hdefault⟩
    · exact absurd hmem (Tree.string_not_mem_keys_erase ht importsKey)

/-- **No list of imports is left in an assembled tree**, whatever the documents are and however one
imports another, unless the default layer is among them and has the key by itself. -/
theorem importsKey_not_mem_of_assembleEntry (h : s.assembleEntry entry suppress = .ok a)
    (hdefaults : ∀ d ∈ a.documents, d.kind = .default →
      ∀ t, s.defaultTree = .ok t → .string importsKey ∉ Tree.keys t) :
    .string importsKey ∉ a.tree.keys := by
  intro hmem
  obtain ⟨d, hd, hdefault, t, ht, hmem'⟩ := invariant_importsKey.of_assembleEntry h hmem
  exact hdefaults d hd hdefault t ht hmem'

/-- The diamond with all documents that it loads. -/
def diamondAssembly : Assembly :=
  ⟨diamondTree, [⟨⟨"/etc/app.yaml"⟩, .entry, 0⟩, ⟨⟨"<static defaults>"⟩, .default, 0⟩,
    ⟨⟨"/etc/base.yaml"⟩, .imported, 1⟩, ⟨⟨"/etc/site.yaml"⟩, .imported, 1⟩,
    ⟨⟨"/etc/base.yaml"⟩, .imported, 2⟩]⟩

theorem importsKey_not_mem_diamond :
    diamond.assembleEntry ⟨"/etc/app.yaml"⟩ false = .ok diamondAssembly ∧
      .string importsKey ∉ diamondAssembly.tree.keys := by
  have hdiamond : diamond.assembleEntry ⟨"/etc/app.yaml"⟩ false = .ok diamondAssembly := by
    decide +kernel
  refine ⟨hdiamond, importsKey_not_mem_of_assembleEntry hdiamond fun d _ _ t ht ↦ ?_⟩
  obtain rfl : [(.string "name", .string "default")] = t := Except.ok.inj ht
  decide +kernel

/-- **A list of imports in the default layer is left in the tree** of each entry that is laid over
it, if none of the entry's imports excludes anything. -/
theorem importsKey_mem_of_defaultTree {text : String} {imports : List ImportEntry} {own t : Tree}
    (ht : s.defaultTree = .ok t) (hmem : .string importsKey ∈ t.keys)
    (hlook : s.reader.look entry = .text text)
    (hread : readDocument entry text = .ok (imports, own))
    (hexclude : ∀ i ∈ imports, i.exclude = []) (h : s.assembleEntry entry false = .ok a) :
    .string importsKey ∈ a.tree.keys := by
  have hdefaultLayer : ∀ depth b,
      s.defaultLayer depth = .ok b → .string importsKey ∈ b.tree.keys := by
    intro depth b hb
    obtain rfl : b.tree = t := Except.ok.inj ((defaultTree_of_defaultLayer hb).symm.trans ht)
    exact hmem
  rw [assembleEntry_of_has (by simp [Reader.has, hlook])] at h
  obtain ⟨-, text', imports', own', hlook', hread', h⟩ := assemble_eq_ok h
  obtain rfl : text = text' := by simpa [hlook] using hlook'
  obtain ⟨rfl, rfl⟩ : imports = imports' ∧ own = own' := by simpa [hread] using hread'
  obtain ⟨base, hbase, h⟩ := bind_eq_ok_iff.1 h
  obtain ⟨layers, hlayers, h⟩ := bind_eq_ok_iff.1 h
  obtain rfl := Except.ok.inj h
  refine Tree.string_mem_keys_merge_iff.2 (Or.inl ?_)
  refine Assembly.string_mem_keys_addAll hexclude hlayers ?_
  -- The default layer comes first by itself, or where it is imported.
  rw [baseLayer, Bool.false_or] at hbase
  split at hbase
  · rename_i hdefault
    obtain ⟨i, hi, hdefault⟩ := List.any_eq_true.1 hdefault
    refine Or.inr ⟨i, hi, fun b hb ↦ ?_⟩
    rw [contribution, if_pos hdefault] at hb
    exact hdefaultLayer _ b hb
  · exact Or.inl (hdefaultLayer 0 base hbase)

/-- Sources in memory with a list of imports in the default layer. -/
def importingDefaults : Sources where
  reader := (MemoryStore.ofList [(⟨"/cfg/app.yaml"⟩, "a: 1\n")]).reader
  defaults := some (.fixed [(.string "imports", .sequence [.string "base.yaml"]),
    (.string "b", .int 2)])
  scope := ⟨fun _ ↦ none, .builtin, true⟩
  home := some ⟨"/home"⟩

/-- **The condition on the default layer is needed**: its list of imports is not taken out. -/
theorem importsKey_mem_importingDefaults :
    ¬∀ (s : Sources) (entry : FilePath) (suppress : Bool) (a : Assembly),
      s.assembleEntry entry suppress = .ok a → .string importsKey ∉ a.tree.keys := by
  intro h
  have hassemble : importingDefaults.assembleEntry ⟨"/cfg/app.yaml"⟩ false =
      .ok ⟨[(.string "imports", .sequence [.string "base.yaml"]), (.string "b", .int 2),
        (.string "a", .int 1)],
        [⟨⟨"/cfg/app.yaml"⟩, .entry, 0⟩, ⟨⟨"<static defaults>"⟩, .default, 0⟩]⟩ := by
    decide +kernel
  exact h importingDefaults ⟨"/cfg/app.yaml"⟩ false _ hassemble List.mem_cons_self

end Sources

end LayeredConfig
