import LayeredConfig.Legacy.Section
import LayeredConfig.Proofs.Tree.Focus

/-!
# Encoded sections

The sections are encoded in order, each in the tree that the ones before it have left. Sections may
lie in each other, and two paths may lead to one section. Nevertheless encoding them all again
changes nothing, no part of a section is left to encode, and apart from the parts of the sections
the tree is as it was (`Tree.encodeSections_exact`).

The changes are taken apart into encodings of one part each (`Value.Encodes`). Such a step puts a
string where a container was, so a run of them keeps every surface that is not inside of a string it
has put (`Value.KeptOutside`). Everything else follows from this. A path that still leads to a
mapping afterwards has met no new string on its way, so it led to the same position before
(`Value.KeptOutside.position?_eq_some`). In this way the settings of a later section are settings of
the original tree, and a section without containers stays one (`Tree.HasFlat.of_keptOutside`).
-/

namespace LayeredConfig

@[simp] theorem Tree.encodeEntries_cons (k v : Value) (entries : Tree) :
    encodeEntries ((k, v) :: entries) =
      (k, if v.isContainer then .string (Legacy.encode v) else v) :: encodeEntries entries := rfl

/-! ### Encoding one value after another -/

namespace Value

variable {P : Position → Prop} {v w x : Value} {l m : Position}

/-- A container at a position with `P` gives way to its encoding. -/
def Encodes (P : Position → Prop) : Value → Value → Prop :=
  Changes fun l x x' ↦ P l ∧ x.isContainer = true ∧ x' = .string (Legacy.encode x)

/-- Every position has the same surface in both values, or it is at or inside of a position with `P`
at which the first has a container and the second a string. -/
def KeptOutside (P : Position → Prop) (v w : Value) : Prop :=
  ∀ m, (v.within? m).map surface = (w.within? m).map surface ∨
    ∃ l, l <+: m ∧ P l ∧ (∃ c, v.within? l = some c ∧ c.isContainer = true) ∧
      ∃ s, w.within? l = some (.string s)

/-- The entries of a section are encoded one by one. -/
theorem reflTransGen_encodes_encodeEntries (before entries : Tree)
    (hP : ∀ i, P [before.length + i]) : Relation.ReflTransGen (Encodes P)
      (.mapping (before ++ entries)) (.mapping (before ++ Tree.encodeEntries entries)) := by
  induction entries generalizing before with
  | nil => exact .refl
  | cons e r ih =>
    obtain ⟨k, v⟩ := e
    have hrest (w : Value) : Relation.ReflTransGen (Encodes P)
        (.mapping (before ++ (k, w) :: r))
        (.mapping (before ++ (k, w) :: Tree.encodeEntries r)) := by
      have h := ih (before ++ [(k, w)]) fun i ↦ by
        rw [List.length_append, List.length_singleton, Nat.add_assoc]
        exact hP (1 + i)
      rwa [List.append_assoc, List.append_assoc] at h
    rw [Tree.encodeEntries_cons]
    split
    · rename_i hv
      exact (hrest _).head ⟨[before.length], v, _, ⟨hP 0, hv, rfl⟩, .entry .here⟩
    · exact hrest v

namespace KeptOutside

theorem refl (v : Value) : KeptOutside P v v := fun _ ↦ Or.inl rfl

/-- Where there is a container afterwards, and all the way there, the surfaces are as they were. -/
theorem surface_of_container (h : KeptOutside P v w) (hx : w.within? l = some x)
    (hcontainer : x.isContainer = true) (hml : m <+: l) :
    (v.within? m).map surface = (w.within? m).map surface := by
  refine (h m).resolve_right ?_
  rintro ⟨n, hnm, -, -, s, hs⟩
  obtain ⟨r, rfl⟩ := hnm.trans hml
  rw [within?_append, hs, Option.bind_some] at hx
  obtain rfl := eq_nil_of_within? rfl hx
  obtain rfl := Option.some.inj hx
  cases hcontainer

/-- What is a container afterwards was one before. -/
theorem exists_of_container (h : KeptOutside P v w) (hx : w.within? l = some x)
    (hcontainer : x.isContainer = true) : ∃ y, v.within? l = some y ∧ y.surface = x.surface := by
  have hsurface := h.surface_of_container hx hcontainer List.prefix_rfl
  rw [hx] at hsurface
  exact Option.map_eq_some_iff.1 hsurface

/-- **Segments that lead to a container afterwards** led to the same position before. -/
theorem position?_eq_some (h : KeptOutside P v w) {path : List String}
    (hl : w.position? path = some l) (hx : w.within? l = some x)
    (hcontainer : x.isContainer = true) : v.position? path = some l :=
  position?_congr hl fun _ hml _ ↦ (h.surface_of_container hx hcontainer hml).symm

/-- One more encoding. -/
theorem encodes (h : KeptOutside P v w) (hstep : Encodes P w x) : KeptOutside P v x := by
  obtain ⟨l, c, c', ⟨hl, hc, rfl⟩, hreplaced⟩ := hstep
  obtain ⟨hbefore, hafter⟩ := hreplaced.within?_self
  intro m
  by_cases hlm : l <+: m
  · obtain ⟨y, hy, hsurface⟩ := h.exists_of_container hbefore hc
    exact Or.inr ⟨l, hlm, hl, ⟨y, hy, (isContainer_congr hsurface).trans hc⟩, _, hafter⟩
  · -- Neither the position nor anything around it is inside of the new string.
    rcases h m with hm | ⟨n, hnm, hn, hcontainer, s, hs⟩
    · exact Or.inl (hm.trans (hreplaced.surface_of_not_inside hlm))
    · have hsurface := hreplaced.surface_of_not_inside fun hln ↦ hlm (hln.trans hnm)
      rw [hs] at hsurface
      obtain ⟨y, hy, hys⟩ := Option.map_eq_some_iff.1 hsurface.symm
      obtain rfl : y = .string s := by cases y <;> simp_all [surface]
      exact Or.inr ⟨n, hnm, hn, hcontainer, s, hy⟩

/-- **A run of encodings** keeps what is outside of them. -/
theorem of_reflTransGen (h : Relation.ReflTransGen (Encodes P) v w) : KeptOutside P v w := by
  induction h with
  | refl => exact refl v
  | tail _ hstep ih => exact ih.encodes hstep

end KeptOutside

end Value

/-! ### Settings -/

namespace Tree

variable {P : Position → Prop} {t t' : Tree} {path : String} {paths : List String}
  {entries : Tree} {l : Position}

/-- The position is that of an entry of the section at the path. -/
def HoldsSetting (t : Tree) (path : String) (l : Position) : Prop :=
  ∃ m entries i, t.position? path = some m ∧ t.within? m = some (.mapping entries) ∧ l = m ++ [i]

/-- No entry of the section at the path is a container, if there is a section. -/
def HasFlat (t : Tree) (path : String) : Prop :=
  ∀ entries, t.get? path = some (.mapping entries) → ∀ e ∈ entries, e.2.isContainer = false

theorem isContainer_of_mem_encodeEntries {e : Value × Value} (he : e ∈ encodeEntries entries) :
    e.2.isContainer = false := by
  obtain ⟨⟨k, v⟩, -, rfl⟩ := List.mem_map.1 he
  dsimp only
  split
  · rfl
  · rename_i hv
    exact Bool.eq_false_iff.2 hv

theorem encodeEntries_eq_self (h : ∀ e ∈ entries, e.2.isContainer = false) :
    encodeEntries entries = entries := by
  refine (List.map_congr_left fun e he ↦ ?_).trans (List.map_id entries)
  simp [h e he]

/-! ### One section -/

theorem encodeSection_of_section {f : Focus Tree} (hf : t.focus? path = some f)
    (h : f.value = .mapping entries) :
    t.encodeSection path = f.put (.mapping (encodeEntries entries)) := by
  obtain ⟨v, put⟩ := f
  obtain rfl : v = .mapping entries := h
  rw [encodeSection, hf]

/-- **Encoding a section** is replacing its entries at its position. -/
theorem replaced_encodeSection (hl : t.position? path = some l)
    (h : t.within? l = some (.mapping entries)) :
    Value.Replaced (.mapping entries) (.mapping (encodeEntries entries)) l (.mapping t)
      (.mapping (t.encodeSection path)) := by
  have hread : t.get? path = some (.mapping entries) := get?_eq_some_iff_position?.2 ⟨l, hl, h⟩
  rw [← map_value_focus?] at hread
  obtain ⟨f, hf, hvalue⟩ := Option.map_eq_some_iff.1 hread
  obtain ⟨l', hl', hwrite⟩ := exists_replaced_of_focus? hf
  obtain rfl : l' = l := Option.some.inj (hl'.symm.trans hl)
  rw [encodeSection_of_section hf hvalue, ← hvalue]
  exact hwrite _

theorem encodeSection_of_not_section (h : ∀ entries, t.get? path ≠ some (.mapping entries)) :
    t.encodeSection path = t := by
  rw [encodeSection]
  split
  · rename_i entries put hf
    refine absurd ?_ (h entries)
    rw [← map_value_focus?, hf, Option.map_some]
  · rfl

/-- Encoding a section is encoding its settings one by one. -/
theorem encodes_encodeSection (t : Tree) (path : String) :
    Relation.ReflTransGen (Value.Encodes (t.HoldsSetting path)) (.mapping t)
      (.mapping (t.encodeSection path)) := by
  by_cases h : ∃ entries, t.get? path = some (.mapping entries)
  · obtain ⟨entries, h⟩ := h
    obtain ⟨l, hl, hentries⟩ := get?_eq_some_iff_position?.1 h
    refine Value.reflTransGen_changes_of_replaced (replaced_encodeSection hl hentries) ?_
    exact Value.reflTransGen_encodes_encodeEntries [] entries fun i ↦
      ⟨l, entries, _, hl, hentries, rfl⟩
  · rw [encodeSection_of_not_section (not_exists.1 h)]

/-- A section afterwards was one before, at the same position. -/
theorem exists_section_of_keptOutside (h : Value.KeptOutside P (.mapping t) (.mapping t'))
    (hl : t'.position? path = some l) (hentries : t'.within? l = some (.mapping entries)) :
    t.position? path = some l ∧ ∃ entries', t.within? l = some (.mapping entries') := by
  constructor
  · rw [position?] at hl ⊢
    split at hl
    · cases hl
    · rename_i hpath
      rw [if_neg hpath]
      exact h.position?_eq_some hl hentries rfl
  · obtain ⟨y, hy, hsurface⟩ := h.exists_of_container hentries rfl
    obtain ⟨entries', rfl, -⟩ := Value.surface_eq_mapping_iff.1 hsurface
    exact ⟨entries', hy⟩

theorem HoldsSetting.of_keptOutside (h : Value.KeptOutside P (.mapping t) (.mapping t'))
    (hl : t'.HoldsSetting path l) : t.HoldsSetting path l := by
  obtain ⟨m, entries, i, hm, hentries, rfl⟩ := hl
  obtain ⟨hm, entries', hentries'⟩ := exists_section_of_keptOutside h hm hentries
  exact ⟨m, entries', i, hm, hentries', rfl⟩

/-- **A section without containers stays one.** -/
theorem HasFlat.of_keptOutside (h : Value.KeptOutside P (.mapping t) (.mapping t'))
    (hflat : t.HasFlat path) : t'.HasFlat path := by
  intro entries hget e he
  obtain ⟨l, hl, hentries⟩ := get?_eq_some_iff_position?.1 hget
  obtain ⟨hl', entries', hentries'⟩ := exists_section_of_keptOutside h hl hentries
  obtain ⟨i, hi⟩ := List.getElem?_of_mem (List.mem_map_of_mem he)
  refine Bool.eq_false_iff.2 fun hcontainer ↦ ?_
  -- A container among the entries would have been one before.
  obtain ⟨y, hy, hsurface⟩ :=
    h.exists_of_container (Value.within?_concat_eq_some_iff.2 ⟨_, hentries, hi⟩) hcontainer
  obtain ⟨c, hc, hy⟩ := Value.within?_concat_eq_some_iff.1 hy
  obtain rfl : .mapping entries' = c := Option.some.inj (hentries'.symm.trans hc)
  obtain ⟨e', he', rfl⟩ := List.mem_map.1 (List.mem_of_getElem? hy)
  have hfalse := hflat entries' (get?_eq_some_iff_position?.2 ⟨l, hl', hentries'⟩) e' he'
  rw [Value.isContainer_congr hsurface, hcontainer] at hfalse
  cases hfalse

theorem hasFlat_encodeSection (t : Tree) (path : String) : (t.encodeSection path).HasFlat path := by
  intro entries hget
  obtain ⟨l, hl, hentries⟩ := get?_eq_some_iff_position?.1 hget
  have hkept := Value.KeptOutside.of_reflTransGen (encodes_encodeSection t path)
  obtain ⟨hl', entries', hentries'⟩ := exists_section_of_keptOutside hkept hl hentries
  have hencoded := (replaced_encodeSection hl' hentries').within?_self.2
  cases hencoded.symm.trans hentries
  exact fun e ↦ isContainer_of_mem_encodeEntries

theorem HasFlat.encodeSection_eq (h : t.HasFlat path) : t.encodeSection path = t := by
  by_cases hget : ∃ entries, t.get? path = some (.mapping entries)
  · obtain ⟨entries, hget⟩ := hget
    obtain ⟨l, hl, hentries⟩ := get?_eq_some_iff_position?.1 hget
    have hreplaced := replaced_encodeSection hl hentries
    rw [encodeEntries_eq_self (h entries hget)] at hreplaced
    exact (Value.mapping.inj hreplaced.eq).symm
  · exact encodeSection_of_not_section (not_exists.1 hget)

/-! ### All sections -/

/-- Encoding sections is encoding settings one by one, and each is a setting of the tree as it was
before the first section was encoded. -/
theorem encodes_encodeSections (t : Tree) (paths : List String) :
    Relation.ReflTransGen (Value.Encodes fun l ↦ ∃ path ∈ paths, t.HoldsSetting path l) (.mapping t)
      (.mapping (t.encodeSections paths)) := by
  induction paths generalizing t with
  | nil => exact .refl
  | cons path r ih =>
    have hkept := Value.KeptOutside.of_reflTransGen (encodes_encodeSection t path)
    refine .trans
      (Value.reflTransGen_changes_mono (fun l x x' ⟨hl, h⟩ ↦ ⟨?_, h⟩)
        (encodes_encodeSection t path))
      (Value.reflTransGen_changes_mono (fun l x x' ⟨hl, h⟩ ↦ ⟨?_, h⟩) (ih (t.encodeSection path)))
    · exact ⟨path, List.mem_cons_self, hl⟩
    · obtain ⟨path', hmem, hl⟩ := hl
      exact ⟨path', List.mem_cons_of_mem path hmem, hl.of_keptOutside hkept⟩

/-- Once encoded, a section has no containers, whatever is encoded after it. -/
theorem hasFlat_encodeSections (t : Tree) (h : path ∈ paths) :
    (t.encodeSections paths).HasFlat path := by
  induction paths generalizing t with
  | nil => cases h
  | cons path' r ih =>
    rcases List.mem_cons.1 h with rfl | h
    · exact (hasFlat_encodeSection t path).of_keptOutside
        (Value.KeptOutside.of_reflTransGen (encodes_encodeSections _ r))
    · exact ih _ h

theorem encodeSections_eq_self (h : ∀ path ∈ paths, t.HasFlat path) :
    t.encodeSections paths = t := by
  induction paths with
  | nil => rfl
  | cons path r ih =>
    rw [encodeSections, List.foldl_cons, (h path List.mem_cons_self).encodeSection_eq]
    exact ih fun path' hmem ↦ h path' (List.mem_cons_of_mem path hmem)

/-- **Encoded sections.** Encoding the same sections again changes nothing; no section has a
container left among its entries; and only entries of sections have changed, which one after another
gave way to their encodings, so that every position that is not at one of them or inside of it has
kept its surface. The sections are those of the tree as it was, in whatever order the paths come. -/
theorem encodeSections_exact (t : Tree) (paths : List String) :
    (t.encodeSections paths).encodeSections paths = t.encodeSections paths ∧
    (∀ path ∈ paths, (t.encodeSections paths).HasFlat path) ∧
    Value.KeptOutside (fun l ↦ ∃ path ∈ paths, t.HoldsSetting path l) (.mapping t)
      (.mapping (t.encodeSections paths)) ∧
    Relation.ReflTransGen (Value.Encodes fun l ↦ ∃ path ∈ paths, t.HoldsSetting path l) (.mapping t)
      (.mapping (t.encodeSections paths)) := by
  have hflat : ∀ path ∈ paths, (t.encodeSections paths).HasFlat path :=
    fun _ ↦ hasFlat_encodeSections t
  exact ⟨encodeSections_eq_self hflat, hflat,
    Value.KeptOutside.of_reflTransGen (encodes_encodeSections t paths),
    encodes_encodeSections t paths⟩

/-- Settings of two extensions, one of them under a number, beside a scalar. -/
def extensionSettings : Tree :=
  [(.string "EXT", .mapping [(.string "extConf", .mapping
    [(.string "news", .mapping [(.string "list", .sequence [.int 1])]),
      (.int 8, .tagged "t" (.sequence [])), (.string "off", .bool false)])])]

/-- The settings, those of an extension encoded before the extension is. -/
def encodedSettings : Tree :=
  [(.string "EXT", .mapping [(.string "extConf", .mapping
    [(.string "news", .string "a:1:\x7bs:4:\"list\";s:14:\"a:1:\x7bi:0;i:1;\x7d\";\x7d"),
      (.int 8, .string "a:0:\x7b\x7d"), (.string "off", .bool false)])])]

/-- A section in another one, in front of it and behind it. Behind it, it is none any more. -/
theorem encodeSections_exact_extensionSettings :
    extensionSettings.encodeSections ["EXT.extConf.news", "EXT.extConf", "EXT.extConf.news"] =
      encodedSettings ∧
    encodedSettings.encodeSections ["EXT.extConf.news", "EXT.extConf", "EXT.extConf.news"] =
      encodedSettings ∧
    encodedSettings.HasFlat "EXT.extConf" := by
  have hencoded : extensionSettings.encodeSections
      ["EXT.extConf.news", "EXT.extConf", "EXT.extConf.news"] = encodedSettings := by
    decide +kernel
  obtain ⟨hagain, hflat, -⟩ := encodeSections_exact extensionSettings
    ["EXT.extConf.news", "EXT.extConf", "EXT.extConf.news"]
  rw [hencoded] at hagain hflat
  exact ⟨hencoded, hagain, hflat _ (by simp)⟩

end Tree

end LayeredConfig
