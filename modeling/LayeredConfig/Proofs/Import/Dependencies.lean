import LayeredConfig.Proofs.Import.Walk
import LayeredConfig.Store.Memory

/-!
# What an assembled tree depends on

The list of loaded documents names all that an assembly has looked at. A reader that finds the same
as the first one at the documents of this list, and anything at all elsewhere, gives the same
assembly (`Sources.assembleEntry_withReader_of_agrees`). For documents in memory that means the same
texts (`Sources.assembleEntry_eq_of_same_texts`): where a path leads to does not hang on the store.

The proof is an induction along the walk of the first reader. It asks for nothing but the documents
that it then loads: a file is looked for only where a document is read next, and the one that is
looked for in vain ends the walk.
-/

namespace LayeredConfig

/-- The second reader finds the same as the first at the documents of a list, default layers left
out, and takes their paths to the same places. -/
def Reader.AgreesOn (r r' : Reader) (documents : List LoadedDocument) : Prop :=
  ∀ d ∈ documents, d.kind ≠ .default →
    r'.look d.path = r.look d.path ∧ r'.identity d.path = r.identity d.path

theorem Reader.AgreesOn.mono {r r' : Reader} {documents documents' : List LoadedDocument}
    (h : r.AgreesOn r' documents) (hsub : documents' ⊆ documents) : r.AgreesOn r' documents' :=
  fun d hd hkind ↦ h d (hsub hd) hkind

/-! ### Documents of the parts -/

namespace Assembly

variable {contribution contribution' : ImportEntry → Except LoadError Assembly}
  {base layers : Assembly} {imports : List ImportEntry}

/-- Laying imports over one another keeps the documents from before. -/
theorem documents_subset_of_addAll (h : base.addAll contribution imports = .ok layers) :
    base.documents ⊆ layers.documents := by
  induction imports generalizing base with
  | nil =>
    obtain rfl : base = layers := Except.ok.inj h
    exact List.Subset.refl _
  | cons i r ih =>
    obtain ⟨b, -, h⟩ := bind_eq_ok_iff.1 h
    exact List.Subset.trans (List.subset_append_left _ _) (ih h)

/-- Imports that contribute the same give the same, where it is enough to know so of contributions
whose documents are in the result. -/
theorem addAll_congr (h : base.addAll contribution imports = .ok layers)
    (hcontribution : ∀ i b, contribution i = .ok b → b.documents ⊆ layers.documents →
      contribution' i = .ok b) : base.addAll contribution' imports = .ok layers := by
  induction imports generalizing base with
  | nil => exact h
  | cons i r ih =>
    obtain ⟨b, hb, h⟩ := bind_eq_ok_iff.1 h
    have hsub : b.documents ⊆ layers.documents :=
      List.Subset.trans (List.subset_append_right _ _) (documents_subset_of_addAll h)
    exact bind_eq_ok_iff.2 ⟨b, hcontribution i b hb hsub, ih h⟩

end Assembly

namespace Sources

/-- The sources with the documents of another reader. -/
def withReader (s : Sources) (r : Reader) : Sources :=
  { s with reader := r }

variable {s : Sources} {r : Reader} {suppress : Bool} {stack : List FilePath} {depth : Nat}
  {path importer entry : FilePath} {a : Assembly}

/-! ### Two readers -/

/-- An import contributes the same, if the document that it names is assembled alike. -/
theorem contribution_withReader {assemble assemble' : FilePath → Except LoadError Assembly}
    {i : ImportEntry}
    (hassemble : ∀ next, assemble next = .ok a → r.has next = true ∧ assemble' next = .ok a)
    (h : s.contribution assemble depth importer i = .ok a) :
    (s.withReader r).contribution assemble' depth importer i = .ok a := by
  rw [contribution] at h ⊢
  split at h
  · rw [if_pos ‹_›]
    exact h
  · rw [if_neg ‹_›]
    obtain ⟨next, hnext, h⟩ := bind_eq_ok_iff.1 h
    refine bind_eq_ok_iff.2 ⟨next, hnext, ?_⟩
    split at h
    · obtain ⟨hhas, hsame⟩ := hassemble next h
      have hreader : (s.withReader r).reader.has next = true := hhas
      rw [if_pos hreader]
      exact hsame
    · cases h

/-- **A document on a walk is assembled alike** from a reader that agrees on the documents that are
loaded for it. -/
theorem assemble_withReader_of_agrees (h : s.assemble suppress stack depth path = .ok a)
    (hagrees : s.reader.AgreesOn r a.documents) :
    (s.withReader r).assemble suppress stack depth path = .ok a := by
  induction stack, path using s.reader.walk_induction generalizing suppress depth a with
  | step stack path ih =>
    obtain ⟨hstack, text, imports, own, hlook, hread, h⟩ := assemble_eq_ok h
    obtain ⟨base, hbase, h⟩ := bind_eq_ok_iff.1 h
    obtain ⟨layers, hlayers, h⟩ := bind_eq_ok_iff.1 h
    obtain rfl := Except.ok.inj h
    -- The document itself is the first on the list.
    obtain ⟨hlook', hplace⟩ : r.look path = s.reader.look path ∧
        r.identity path = s.reader.identity path := by
      refine hagrees _ List.mem_cons_self ?_
      dsimp only
      split <;> decide
    have hbelow : s.reader.AgreesOn r layers.documents :=
      hagrees.mono (List.subset_cons_self _ _)
    have hreader : (s.withReader r).reader = r := rfl
    rw [assemble_eq, hreader, hplace, if_neg hstack, hlook', hlook]
    refine bind_eq_ok_iff.2 ⟨(imports, own), hread, ?_⟩
    refine bind_eq_ok_iff.2 ⟨base, hbase, bind_eq_ok_iff.2 ⟨layers, ?_, rfl⟩⟩
    refine Assembly.addAll_congr hlayers fun i b hb hsub ↦ contribution_withReader ?_ hb
    intro next hnext
    have hsame := ih text hlook hstack next hnext (hbelow.mono hsub)
    rw [hreader, hplace]
    exact ⟨has_of_assemble hsame, hsame⟩

/-- **An entry that exists is assembled alike** from a reader that agrees on the documents that are
loaded. -/
theorem assembleEntry_withReader_of_agrees (hentry : s.reader.has entry = true)
    (h : s.assembleEntry entry suppress = .ok a) (hagrees : s.reader.AgreesOn r a.documents) :
    (s.withReader r).assembleEntry entry suppress = .ok a := by
  rw [assembleEntry_of_has hentry] at h
  have hsame := assemble_withReader_of_agrees h hagrees
  rw [assembleEntry_of_has (has_of_assemble hsame)]
  exact hsame

/-- **The listed documents are all that an assembly depends on.** A store with the same texts under
the paths of the listed documents gives the same tree and the same list, whatever else it holds. -/
theorem assembleEntry_eq_of_same_texts {m m' : MemoryStore} (hentry : m.contains entry = true)
    (h : (s.withReader m.reader).assembleEntry entry suppress = .ok a)
    (hsame : ∀ d ∈ a.documents, d.kind ≠ .default →
      m'.documents.lookup d.path.normalize = m.documents.lookup d.path.normalize) :
    (s.withReader m'.reader).assembleEntry entry suppress = .ok a := by
  have hagrees : m.reader.AgreesOn m'.reader a.documents := by
    intro d hd hkind
    have hget : m'.get? d.path = m.get? d.path := hsame d hd hkind
    refine ⟨?_, rfl⟩
    show m'.look d.path = m.look d.path
    rw [MemoryStore.look, MemoryStore.look, hget]
  have hhas : m.reader.has entry = true := by
    obtain ⟨text, htext⟩ := Option.isSome_iff_exists.1 hentry
    have hlook : m.reader.look entry = .text text := MemoryStore.look_eq_text_iff.2 htext
    simp [Reader.has, hlook]
  exact assembleEntry_withReader_of_agrees (s := s.withReader m.reader) hhas h hagrees

/-- A store with a document that nothing imports. -/
def published : MemoryStore :=
  .ofList [(⟨"/etc/app.yaml"⟩, "imports: [x/../base.yaml]\nown: 1\n"),
    (⟨"/etc/base.yaml"⟩, "imports: ['@default']\nbase: 2\n"), (⟨"/etc/old.yaml"⟩, "own: 0\n")]

/-- A store with the same documents under other spellings of their paths, without the document that
nothing imports, and with one that is not well-formed. -/
def mirrored : MemoryStore :=
  .ofList [(⟨"/etc/./base.yaml"⟩, "imports: ['@default']\nbase: 2\n"),
    (⟨"/etc/x/bad.yaml"⟩, "imports: 5\n"),
    (⟨"/etc/y/../app.yaml"⟩, "imports: [x/../base.yaml]\nown: 1\n")]

/-- Sources with the documents of the first store. -/
def publishing : Sources :=
  ⟨published.reader, some (.fixed [(.string "base", .int 0)]), ⟨fun _ ↦ none, .builtin, true⟩,
    some ⟨"/home"⟩⟩

/-- What the entry is assembled to. -/
def publishedAssembly : Assembly :=
  ⟨[(.string "base", .int 2), (.string "own", .int 1)],
    [⟨⟨"/etc/app.yaml"⟩, .entry, 0⟩, ⟨⟨"/etc/base.yaml"⟩, .imported, 1⟩,
      ⟨⟨"<static defaults>"⟩, .default, 2⟩]⟩

theorem assembleEntry_eq_mirrored :
    (publishing.withReader published.reader).assembleEntry ⟨"/etc/app.yaml"⟩ true =
        .ok publishedAssembly ∧
      (publishing.withReader mirrored.reader).assembleEntry ⟨"/etc/app.yaml"⟩ true =
        .ok publishedAssembly := by
  have happ : (publishing.withReader published.reader).assembleEntry ⟨"/etc/app.yaml"⟩ true =
      .ok publishedAssembly := by decide +kernel
  exact ⟨happ, assembleEntry_eq_of_same_texts (by decide +kernel) happ (by decide +kernel)⟩

end Sources

end LayeredConfig
