import LayeredConfig.Proofs.Import.Strictness
import LayeredConfig.Store.Memory
import Mathlib.Data.List.Chain
import Mathlib.Data.List.Nodup

/-!
# Documents that import themselves

The documents of the sources are the nodes of a graph: `Sources.Names` relates a path to the files
that the document there names. Assembling finds the cycles of this graph exactly
(`circularImport_exact`): what is reported as circular is a path through the graph from the entry
that comes back to a place on it, and when assembling succeeds, no path from the entry does.

The first half is an induction along the walk, whose invariant is that the places on the stack are
all different; the reported chain is the stack with the path that the walk went on with. The second
half follows any path through the graph: a document that succeeded did so because all that it names
succeeded, each with one more place on the stack.
-/

namespace LayeredConfig

/-- The places are all different, but for the last, which is one of those before it. -/
def ComesBack (places : List FilePath) : Prop :=
  ∃ before again, places = before ++ [again] ∧ before.Nodup ∧ again ∈ before

namespace Sources

variable {s : Sources} {suppress : Bool} {stack cycle paths : List FilePath} {depth : Nat}
  {path next entry importer : FilePath}

/-- The document at `importer` names the file `next` by an import that is not the default layer. -/
def Names (s : Sources) (importer next : FilePath) : Prop :=
  ∃ text imports own, s.reader.look importer = .text text ∧
    readDocument importer text = .ok (imports, own) ∧
    ∃ i ∈ imports, i.isDefault = false ∧ s.importPath importer i.path = .ok next

theorem has_of_names (h : s.Names importer next) : s.reader.has importer = true := by
  obtain ⟨text, -, -, hlook, -⟩ := h
  simp [Reader.has, hlook]

/-! ### What is reported is a cycle -/

/-- Neither the default layer nor the path of an import is circular, so an import that is circular
is so because of the document that it names. -/
theorem next_of_contribution (hdefaults : ∀ layer ∈ s.defaults, layer.FailsAsDocument)
    {assemble : FilePath → Except LoadError Assembly} {i : ImportEntry}
    (h : s.contribution assemble depth importer i = .error (.circularImport cycle)) :
    i.isDefault = false ∧ ∃ next, s.importPath importer i.path = .ok next ∧
      assemble next = .error (.circularImport cycle) := by
  rcases contribution_eq_error h with ⟨-, h⟩ | h | ⟨hdefault, next, hnext, h | h⟩
  · cases failsOnlyWith_defaultLayer hdefaults depth _ h
  · rcases (lockstep_importPath importer i.path).failsOnlyWith_left _ h with
      ⟨_, _, ⟨⟩⟩ | ⟨_, _, ⟨⟩⟩ | ⟨⟨⟩⟩
  · exact ⟨hdefault, next, hnext, h⟩
  · cases h

/-- A circular document comes back itself, or names a document that is circular. -/
theorem names_of_assemble_eq_circularImport
    (hdefaults : ∀ layer ∈ s.defaults, layer.FailsAsDocument)
    (h : s.assemble suppress stack depth path = .error (.circularImport cycle)) :
    s.reader.identity path ∈ stack ∧ cycle = (s.reader.identity path :: stack).reverse ∨
      s.reader.identity path ∉ stack ∧ (∃ text, s.reader.look path = .text text) ∧
        ∃ next, s.Names path next ∧
          s.assemble true (s.reader.identity path :: stack) (depth + 1) next =
            .error (.circularImport cycle) := by
  rcases assemble_eq_error h with
    ⟨hstack, h⟩ | h | ⟨text, hlook, h | ⟨hstack, imports, own, hread, h⟩⟩
  · cases h
    exact Or.inl ⟨hstack, rfl⟩
  · cases h
  · cases failsOnlyWith_readDocument path text _ h
  · refine Or.inr ⟨hstack, ⟨text, hlook⟩, ?_⟩
    rcases bind_eq_error_iff.1 h with h | ⟨base, -, h⟩
    · rw [baseLayer] at h
      split at h
      · cases h
      · cases failsOnlyWith_defaultLayer hdefaults depth _ h
    · rcases bind_eq_error_iff.1 h with h | ⟨layers, -, h⟩
      · obtain ⟨i, hi, h⟩ := Assembly.addAll_eq_error h
        obtain ⟨hdefault, next, hnext, h⟩ := next_of_contribution hdefaults h
        exact ⟨next, ⟨text, imports, own, hlook, hread, i, hi, hdefault, hnext⟩, h⟩
      · cases h

/-- **What is reported on a walk** is the stack and a path through the graph, which comes back. -/
theorem chain_of_assemble_eq_circularImport
    (hdefaults : ∀ layer ∈ s.defaults, layer.FailsAsDocument) (hnodup : stack.Nodup)
    (h : s.assemble suppress stack depth path = .error (.circularImport cycle)) :
    ∃ paths, (path :: paths).IsChain s.Names ∧
      cycle = stack.reverse ++ (path :: paths).map s.reader.identity ∧ ComesBack cycle := by
  induction stack, path using s.reader.walk_induction generalizing suppress depth with
  | step stack path ih =>
    rcases names_of_assemble_eq_circularImport hdefaults h with
      ⟨hstack, rfl⟩ | ⟨hstack, ⟨text, hlook⟩, next, hnames, h⟩
    · -- The walk has come back: the places before this one are those on the stack.
      have hcycle : (s.reader.identity path :: stack).reverse =
          stack.reverse ++ [s.reader.identity path] := List.reverse_cons
      refine ⟨[], .singleton path, hcycle, stack.reverse, s.reader.identity path, hcycle, ?_, ?_⟩
      · exact List.nodup_reverse.2 hnodup
      · exact List.mem_reverse.2 hstack
    · have hnodup' : (s.reader.identity path :: stack).Nodup :=
        List.nodup_cons.2 ⟨hstack, hnodup⟩
      obtain ⟨paths, hchain, hcycle, hback⟩ := ih text hlook hstack next hnodup' h
      refine ⟨next :: paths, .cons_cons hnames hchain, ?_, hback⟩
      rw [hcycle, List.reverse_cons, List.append_assoc]
      rfl

/-- What is reported of an entry is a path through the graph from there, which comes back. -/
theorem chain_of_assembleEntry_eq_circularImport
    (hdefaults : ∀ layer ∈ s.defaults, layer.FailsAsDocument)
    (h : s.assembleEntry entry suppress = .error (.circularImport cycle)) :
    ∃ paths, (entry :: paths).IsChain s.Names ∧
      cycle = (entry :: paths).map s.reader.identity ∧ ComesBack cycle := by
  rw [assembleEntry] at h
  split at h
  · exact chain_of_assemble_eq_circularImport hdefaults List.nodup_nil h
  · split at h
    · cases h
    · cases failsOnlyWith_defaultLayer hdefaults 0 _ h

/-! ### What succeeds has no cycle -/

/-- A document succeeds only if all that it names does, with one more place on the stack. -/
theorem assemble_of_names {a : Assembly} (h : s.assemble suppress stack depth path = .ok a)
    (hnames : s.Names path next) :
    ∃ b, s.assemble true (s.reader.identity path :: stack) (depth + 1) next = .ok b := by
  obtain ⟨-, text, imports, own, hlook, hread, h⟩ := assemble_eq_ok h
  obtain ⟨text', imports', own', hlook', hread', i, hi, hdefault, hnext⟩ := hnames
  obtain rfl : text = text' := by simpa [hlook] using hlook'
  obtain ⟨rfl, rfl⟩ : imports = imports' ∧ own = own' := by simpa [hread] using hread'
  obtain ⟨base, -, h⟩ := bind_eq_ok_iff.1 h
  obtain ⟨layers, hlayers, -⟩ := bind_eq_ok_iff.1 h
  obtain ⟨b, hb⟩ := Assembly.exists_of_addAll hlayers hi
  rw [contribution] at hb
  rw [hdefault, if_neg Bool.false_ne_true, hnext] at hb
  change (if s.reader.has next then _ else _) = _ at hb
  split at hb
  · exact ⟨b, hb⟩
  · cases hb

/-- **No path comes back** from a document that succeeds, neither to itself nor to the stack. -/
theorem nodup_of_assemble {a : Assembly} (h : s.assemble suppress stack depth path = .ok a)
    (hchain : (path :: paths).IsChain s.Names) :
    ((path :: paths).map s.reader.identity).Nodup ∧
      ∀ place ∈ (path :: paths).map s.reader.identity, place ∉ stack := by
  induction paths generalizing suppress stack depth path a with
  | nil =>
    obtain ⟨hstack, -⟩ := assemble_eq_ok h
    simpa using hstack
  | cons next r ih =>
    obtain ⟨hstack, -⟩ := assemble_eq_ok h
    obtain ⟨hnames, hchain⟩ := List.isChain_cons_cons.1 hchain
    obtain ⟨b, hb⟩ := assemble_of_names h hnames
    obtain ⟨hnodup, haway⟩ := ih hb hchain
    -- What comes next stays away from the stack, which holds the place of this document too.
    have hfresh : s.reader.identity path ∉ (next :: r).map s.reader.identity :=
      fun hmem ↦ haway _ hmem List.mem_cons_self
    rw [List.map_cons]
    refine ⟨List.nodup_cons.2 ⟨hfresh, hnodup⟩, fun place hplace ↦ ?_⟩
    rcases List.mem_cons.1 hplace with rfl | hplace
    · exact hstack
    · exact fun hmem ↦ haway place hplace (List.mem_cons_of_mem _ hmem)

/-! ### Cycles are found exactly -/

/-- **Cycles are found exactly.** A report of a circular import shows the places of a path through
the graph, from the entry to the first place that is on it already; and if assembling succeeds, no
path from the entry leads to one place twice, however its files are spelled. -/
theorem circularImport_exact (s : Sources) (entry : FilePath) (suppress : Bool) :
    ((∀ layer ∈ s.defaults, layer.FailsAsDocument) →
      ∀ cycle, s.assembleEntry entry suppress = .error (.circularImport cycle) →
        ∃ paths, (entry :: paths).IsChain s.Names ∧
          cycle = (entry :: paths).map s.reader.identity ∧ ComesBack cycle ∧
          (LoadError.circularImport cycle).message = "Circular import detected: " ++
            Text.joinWith " -> " ((entry :: paths).map fun p ↦ (s.reader.identity p).text)) ∧
    ∀ a, s.assembleEntry entry suppress = .ok a →
      ∀ paths, (entry :: paths).IsChain s.Names →
        ((entry :: paths).map s.reader.identity).Nodup := by
  refine ⟨fun hdefaults cycle h ↦ ?_, fun a h paths hchain ↦ ?_⟩
  · obtain ⟨paths, hchain, hcycle, hback⟩ := chain_of_assembleEntry_eq_circularImport hdefaults h
    refine ⟨paths, hchain, hcycle, hback, ?_⟩
    have htexts : cycle.map FilePath.text =
        (entry :: paths).map fun p ↦ (s.reader.identity p).text := by
      rw [hcycle, List.map_map, Function.comp_def]
    show "Circular import detected: " ++ Text.joinWith " -> " (cycle.map FilePath.text) = _
    rw [htexts]
  · cases paths with
    | nil => simp
    | cons next r =>
      have hentry := has_of_names (List.isChain_cons_cons.1 hchain).1
      rw [assembleEntry_of_has hentry] at h
      exact (nodup_of_assemble h hchain).1

/-- Sources in memory with two documents that import one another, and one that imports a third
twice. -/
def ring : Sources where
  reader := (MemoryStore.ofList [
    (⟨"/etc/a.yaml"⟩, "imports: sub/../b.yaml\n"),
    (⟨"/etc/b.yaml"⟩, "imports: [c.yaml, ./a.yaml]\n"),
    (⟨"/etc/c.yaml"⟩, "key: 1\n"),
    (⟨"/etc/d.yaml"⟩, "imports: [c.yaml, ./x/../c.yaml]\n")]).reader
  defaults := some (.fixed [])
  scope := ⟨fun _ ↦ none, .builtin, true⟩
  home := some ⟨"/home"⟩

/-- What the document that imports another twice is assembled to. -/
def ringTwice : Assembly :=
  ⟨[(.string "key", .int 1)],
    [⟨⟨"/etc/d.yaml"⟩, .entry, 0⟩, ⟨⟨"<static defaults>"⟩, .default, 0⟩,
      ⟨⟨"/etc/c.yaml"⟩, .imported, 1⟩, ⟨⟨"/etc/c.yaml"⟩, .imported, 1⟩]⟩

theorem circularImport_exact_ring :
    (∃ paths, (⟨"/etc/y/../a.yaml"⟩ :: paths).IsChain ring.Names ∧
      [⟨"/etc/a.yaml"⟩, ⟨"/etc/b.yaml"⟩, ⟨"/etc/a.yaml"⟩] =
        (⟨"/etc/y/../a.yaml"⟩ :: paths).map ring.reader.identity ∧
      ComesBack [⟨"/etc/a.yaml"⟩, ⟨"/etc/b.yaml"⟩, ⟨"/etc/a.yaml"⟩]) ∧
    ∀ paths, (⟨"/etc/d.yaml"⟩ :: paths).IsChain ring.Names →
      ((⟨"/etc/d.yaml"⟩ :: paths).map ring.reader.identity).Nodup := by
  constructor
  · have hdefaults : ∀ layer ∈ ring.defaults, layer.FailsAsDocument := by
      rintro _ ⟨⟩
      exact DefaultLayer.failsAsDocument_fixed []
    obtain ⟨paths, hchain, hcycle, hback, -⟩ :=
      (circularImport_exact ring ⟨"/etc/y/../a.yaml"⟩ false).1 hdefaults
        [⟨"/etc/a.yaml"⟩, ⟨"/etc/b.yaml"⟩, ⟨"/etc/a.yaml"⟩] (by decide +kernel)
    exact ⟨paths, hchain, hcycle, hback⟩
  · exact (circularImport_exact ring ⟨"/etc/d.yaml"⟩ false).2 ringTwice (by decide +kernel)

end Sources

end LayeredConfig
