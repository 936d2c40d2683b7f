import LayeredConfig.Proofs.Import.Dependencies
import LayeredConfig.Proofs.Import.Steps
import LayeredConfig.Proofs.Import.Trace

/-!
# How deep imports nest

Nothing in the text of a document bounds how far its imports lead: a document may import itself, or
a path that is spelled anew each time. What bounds the walk are the files. At every moment the stack
holds the places of the documents that the walk is in, all different and each with a file
(`Walk.Sound`); so it is never longer than there are files, and neither is the list of documents
that wait (`Sources.walk_ends`). A document that is loaded is on the stack itself, on top of as many
as its depth, so that its depth is less than the number of files.

`Walk.Sound` is kept by every step (`Sources.sound_of_step`), one lemma for each thing that a step
can do. The set of places and the stack agree because a place is entered only if it is not in the
set, and because what is taken out of the set at the end of a document is the top of the stack.
-/

namespace LayeredConfig

/-! ### What is open at a moment -/

/-- The paths of the documents that a walk is in, apart from those that wait. -/
def WalkTask.openPaths : WalkTask → List FilePath
  | .read path _ _ => [path]
  | .lay d => [d.path]
  | .start _ _ | .enter _ _ _ | .finish _ => []

/-- The paths of the documents that a walk is in, the innermost first. -/
def Walk.openPaths (w : Walk) : List FilePath :=
  w.task.openPaths ++ w.waiting.map fun d ↦ d.1.path

/-- Each document that waits is as deep as there are documents that wait for it. -/
def NestedAtDepths : List (OpenDocument × ImportEntry) → Prop
  | [] => True
  | (d, _) :: r => d.depth = r.length ∧ NestedAtDepths r

/-- The task is one for the moments when `n` documents wait; a document that it comes to exists. -/
def WalkTask.Fits (s : Sources) (n : Nat) : WalkTask → Prop
  | .start _ _ => n = 0
  | .finish _ => True
  | .enter path _ depth => s.reader.has path = true ∧ depth = n
  | .read _ _ depth => depth = n
  | .lay d => d.depth = n

/-- What holds at every moment of a walk. -/
structure Walk.Sound (s : Sources) (w : Walk) : Prop where
  /-- The stack holds the places of the documents that the walk is in. -/
  stack : w.stack = w.openPaths.map s.reader.identity
  /-- These are all different. -/
  nodup : w.stack.Nodup
  /-- Each has a file. -/
  places : ∀ place ∈ w.stack, place ∈ s.reader.places
  /-- The set of places has the same elements. -/
  visited : w.visited = w.stack.toFinset
  /-- The task fits in. -/
  task : w.task.Fits s w.waiting.length
  /-- So do the documents that wait. -/
  waiting : NestedAtDepths w.waiting
  /-- Every document that was loaded is less deep than there are files. -/
  depths : ∀ d ∈ w.documents, d.kind ≠ .default → d.depth < s.reader.places.toFinset.card

namespace Walk.Sound

variable {s : Sources} {w : Walk} {suppress : Bool} {stack : List FilePath} {depth : Nat}
  {path next entry : FilePath} {visited : Finset FilePath} {documents more : List LoadedDocument}
  {waiting : List (OpenDocument × ImportEntry)} {d d' : OpenDocument} {i : ImportEntry} {t : Tree}

/-- **The stack is never longer than there are files.** -/
theorem length_stack_le (hw : w.Sound s) : w.stack.length ≤ s.reader.places.toFinset.card :=
  length_le_card_of_nodup hw.nodup hw.places

/-- And it has every document that waits. -/
theorem length_waiting_le (hw : w.Sound s) : w.waiting.length ≤ w.stack.length := by
  rw [hw.stack, Walk.openPaths, List.length_map, List.length_append, List.length_map]
  exact Nat.le_add_left _ _

theorem start (s : Sources) (entry : FilePath) (suppress : Bool) :
    (Walk.start entry suppress).Sound s where
  stack := rfl
  nodup := List.nodup_nil
  places place hplace := by cases hplace
  visited := rfl
  task := rfl
  waiting := trivial
  depths d hd := by cases hd

/-- The walk comes to its entry. -/
theorem begin (hw : Walk.Sound s ⟨.start entry suppress, visited, stack, documents, waiting⟩)
    (hentry : s.reader.has entry = true) :
    Walk.Sound s ⟨.enter entry suppress 0, visited, stack, documents, waiting⟩ :=
  { hw with task := ⟨hentry, hw.task.symm⟩ }

/-- The walk enters the place of a document. -/
theorem enter (hw : Walk.Sound s ⟨.enter path suppress depth, visited, stack, documents, waiting⟩)
    (hnew : s.reader.identity path ∉ visited) :
    Walk.Sound s ⟨.read path suppress depth, insert (s.reader.identity path) visited,
      s.reader.identity path :: stack, documents, waiting⟩ where
  stack := congrArg (s.reader.identity path :: ·) hw.stack
  nodup := by
    have hvisited : visited = stack.toFinset := hw.visited
    refine List.nodup_cons.2 ⟨fun hmem ↦ hnew ?_, hw.nodup⟩
    rw [hvisited]
    exact List.mem_toFinset.2 hmem
  places place hplace := by
    rcases List.mem_cons.1 hplace with rfl | hplace
    · exact s.reader.identity_mem path (by simpa [Reader.has] using hw.task.1)
    · exact hw.places place hplace
  visited := by
    rw [List.toFinset_cons]
    exact congrArg (insert _) hw.visited
  task := hw.task.2
  waiting := hw.waiting
  depths := hw.depths

/-- A document is loaded, and with it no document but default layers. -/
theorem read {own below : Tree} {imports : List ImportEntry} {kind : DocumentKind}
    (hw : Walk.Sound s ⟨.read path suppress depth, visited, stack, documents, waiting⟩)
    (hmore : ∀ d ∈ more, d.kind = .default) :
    Walk.Sound s ⟨.lay ⟨path, depth, own, below, imports⟩, visited, stack,
      documents ++ [⟨path, kind, depth⟩] ++ more, waiting⟩ :=
  { hw with
    depths := by
      intro d hd hkind
      rcases List.mem_append.1 hd with hd | hd
      · rcases List.mem_append.1 hd with hd | hd
        · exact hw.depths d hd hkind
        · -- The document is on the stack, above all that wait.
          obtain rfl := List.mem_singleton.1 hd
          have hlength : stack.length = waiting.length + 1 := by
            simpa [Walk.openPaths, WalkTask.openPaths, Nat.add_comm] using
              congrArg List.length hw.stack
          have hle : stack.length ≤ _ := hw.length_stack_le
          have htask : depth = waiting.length := hw.task
          show depth < _
          omega
      · exact absurd (hmore d hd) hkind }

/-- The default layer is laid under a document. -/
theorem lay (hw : Walk.Sound s ⟨.lay d, visited, stack, documents, waiting⟩)
    (hpath : d'.path = d.path) (hdepth : d'.depth = d.depth)
    (hmore : ∀ d ∈ more, d.kind = .default) :
    Walk.Sound s ⟨.lay d', visited, stack, documents ++ more, waiting⟩ :=
  { hw with
    stack := by
      rw [Walk.openPaths, WalkTask.openPaths, hpath]
      exact hw.stack
    task := hdepth.trans hw.task
    depths := by
      intro d hd hkind
      rcases List.mem_append.1 hd with hd | hd
      · exact hw.depths d hd hkind
      · exact absurd (hmore d hd) hkind }

/-- A document waits for one that it imports. -/
theorem wait (hw : Walk.Sound s ⟨.lay d, visited, stack, documents, waiting⟩)
    (hpath : d'.path = d.path) (hdepth : d'.depth = d.depth) (hnext : s.reader.has next = true) :
    Walk.Sound s ⟨.enter next true (d.depth + 1), visited, stack, documents,
      (d', i) :: waiting⟩ :=
  { hw with
    stack := by
      rw [Walk.openPaths, List.map_cons, hpath]
      exact hw.stack
    task := ⟨hnext, congrArg (· + 1) hw.task⟩
    waiting := ⟨hdepth.trans hw.task, hw.waiting⟩ }

/-- A document is assembled, and its place is left. -/
theorem finish (hw : Walk.Sound s ⟨.lay d, visited, stack, documents, waiting⟩) :
    Walk.Sound s ⟨.finish t, visited.erase (s.reader.identity d.path), stack.tail, documents,
      waiting⟩ := by
  obtain ⟨below, rfl⟩ : ∃ below, stack = s.reader.identity d.path :: below :=
    ⟨_, hw.stack⟩
  have hnodup := List.nodup_cons.1 hw.nodup
  exact
    { hw with
      stack := (List.cons.inj hw.stack).2
      nodup := hnodup.2
      places := fun place hplace ↦ hw.places place (List.mem_cons_of_mem _ hplace)
      visited := by
        have hvisited : visited = insert (s.reader.identity d.path) below.toFinset := by
          rw [← List.toFinset_cons]
          exact hw.visited
        rw [hvisited, Finset.erase_insert (by simpa using hnodup.1), List.tail_cons]
      task := trivial }

/-- The document that waits for it goes on. -/
theorem resume (hw : Walk.Sound s ⟨.finish t, visited, stack, documents, (d, i) :: waiting⟩)
    (hpath : d'.path = d.path) (hdepth : d'.depth = d.depth) :
    Walk.Sound s ⟨.lay d', visited, stack, documents, waiting⟩ :=
  { hw with
    stack := by
      rw [Walk.openPaths, WalkTask.openPaths, hpath]
      exact hw.stack
    task := hdepth.trans hw.waiting.1
    waiting := hw.waiting.2 }

end Walk.Sound

namespace Sources

variable {s : Sources} {suppress : Bool} {depth : Nat} {imports : List ImportEntry}
  {a : Assembly} {w w' : Walk}

/-! ### Every step, and every moment -/

theorem kind_of_defaultLayer (h : s.defaultLayer depth = .ok a) :
    ∀ d ∈ a.documents, d.kind = .default := by
  rw [documents_of_defaultLayer h]
  exact kind_of_mem_defaultRecords

theorem kind_of_baseLayer (h : s.baseLayer suppress depth imports = .ok a) :
    ∀ d ∈ a.documents, d.kind = .default := by
  rw [baseLayer] at h
  split at h
  · obtain rfl : .empty = a := Except.ok.inj h
    intro d hd
    cases hd
  · exact kind_of_defaultLayer h

/-- **Every step keeps the walk sound.** -/
theorem sound_of_step (h : s.walker.step w = .ok (.inl w')) (hw : w.Sound s) : w'.Sound s := by
  obtain ⟨task, visited, stack, documents, waiting⟩ := w
  cases task with
  | start entry suppress =>
    simp only [walker] at h
    split at h
    · rename_i hentry
      obtain rfl := Sum.inl.inj (Except.ok.inj h)
      exact hw.begin hentry
    · split at h
      · cases h
      · obtain ⟨_, -, h⟩ := bind_eq_ok_iff.1 h
        cases h
  | enter path suppress depth =>
    simp only [walker] at h
    split at h
    · cases h
    · rename_i hnew
      obtain rfl := Sum.inl.inj (Except.ok.inj h)
      exact hw.enter hnew
  | read path suppress depth =>
    simp only [walker] at h
    split at h
    · obtain ⟨⟨imports, own⟩, -, h⟩ := bind_eq_ok_iff.1 h
      obtain ⟨base, hbase, h⟩ := bind_eq_ok_iff.1 h
      obtain rfl := Sum.inl.inj (Except.ok.inj h)
      exact hw.read (kind_of_baseLayer hbase)
    · cases h
  | lay d =>
    simp only [walker] at h
    split at h
    · obtain rfl := Sum.inl.inj (Except.ok.inj h)
      exact hw.finish
    · split at h
      · obtain ⟨b, hb, h⟩ := bind_eq_ok_iff.1 h
        obtain rfl := Sum.inl.inj (Except.ok.inj h)
        exact hw.lay rfl rfl (kind_of_defaultLayer hb)
      · obtain ⟨next, -, h⟩ := bind_eq_ok_iff.1 h
        split at h
        · rename_i hnext
          obtain rfl := Sum.inl.inj (Except.ok.inj h)
          exact hw.wait rfl rfl hnext
        · cases h
  | finish t =>
    simp only [walker] at h
    split at h
    · cases h
    · obtain rfl := Sum.inl.inj (Except.ok.inj h)
      exact hw.resume rfl rfl

/-- **A walk is sound at every moment.** -/
theorem sound_of_run {entry : FilePath} {n : Nat}
    (h : s.walker.run n (.start entry suppress) = .ok (.inl w)) : w.Sound s :=
  Machine.invariant_of_run (fun _ _ hstep ↦ sound_of_step hstep) (.start s entry suppress) h

/-- The documents of the answer are those that were loaded, apart from a default layer that is all
there is. -/
theorem documents_of_step (h : s.walker.step w = .ok (.inr a)) :
    a.documents = w.documents ∨ ∀ d ∈ a.documents, d.kind = .default := by
  obtain ⟨task, visited, stack, documents, waiting⟩ := w
  cases task with
  | start entry suppress =>
    simp only [walker] at h
    split at h
    · cases h
    · split at h
      · obtain rfl := Sum.inr.inj (Except.ok.inj h)
        exact Or.inr fun d hd ↦ by cases hd
      · obtain ⟨b, hb, h⟩ := bind_eq_ok_iff.1 h
        obtain rfl := Sum.inr.inj (Except.ok.inj h)
        exact Or.inr (kind_of_defaultLayer hb)
  | enter path suppress depth =>
    simp only [walker] at h
    split at h <;> cases h
  | read path suppress depth =>
    simp only [walker] at h
    split at h
    · obtain ⟨_, -, h⟩ := bind_eq_ok_iff.1 h
      obtain ⟨_, -, h⟩ := bind_eq_ok_iff.1 h
      cases h
    · cases h
  | lay d =>
    simp only [walker] at h
    split at h
    · cases h
    · split at h
      · obtain ⟨_, -, h⟩ := bind_eq_ok_iff.1 h
        cases h
      · obtain ⟨_, -, h⟩ := bind_eq_ok_iff.1 h
        split at h <;> cases h
  | finish t =>
    simp only [walker] at h
    split at h
    · obtain rfl := Sum.inr.inj (Except.ok.inj h)
      exact Or.inl rfl
    · cases h

/-- **Documents nest less deep than there are files.** -/
theorem depth_lt_of_assembleEntry {entry : FilePath} (h : s.assembleEntry entry suppress = .ok a)
    {d : LoadedDocument} (hd : d ∈ a.documents) (hkind : d.kind ≠ .default) :
    d.depth < s.reader.places.toFinset.card := by
  obtain ⟨n, hn⟩ := ends_walker s entry suppress
  rw [h] at hn
  obtain ⟨m, w, hm, hstep⟩ := Machine.exists_step_of_run hn
  rcases documents_of_step hstep with hdocuments | hdefault
  · exact (sound_of_run hm).depths d (hdocuments ▸ hd) hkind
  · exact absurd (hdefault d hd) hkind

end Sources

/-- The paths with a text. -/
def MemoryStore.files (m : MemoryStore) : Finset FilePath :=
  (m.documents.map Prod.fst).toFinset

namespace Sources

/-- **The walk along imports ends, and nests no deeper than there are files**, whatever the texts of
the documents are. At every moment the stack holds folded paths, all different, each with a file,
and has the same elements as the set of places. -/
theorem walk_ends (s : Sources) (m : MemoryStore) (entry : FilePath) (suppress : Bool) :
    (s.withReader m.reader).walker.Ends (.start entry suppress)
        ((s.withReader m.reader).assembleEntry entry suppress) ∧
      (∀ n w, (s.withReader m.reader).walker.run n (.start entry suppress) = .ok (.inl w) →
        w.stack = w.openPaths.map FilePath.normalize ∧ w.stack.Nodup ∧
          w.visited = w.stack.toFinset ∧ (∀ place ∈ w.stack, place ∈ m.files) ∧
          w.waiting.length ≤ w.stack.length ∧ w.stack.length ≤ m.files.card) ∧
      ∀ a, (s.withReader m.reader).assembleEntry entry suppress = .ok a →
        ∀ d ∈ a.documents, d.kind ≠ .default → d.depth < m.files.card := by
  refine ⟨ends_walker _ entry suppress, fun n w hn ↦ ?_, fun a h d ↦ depth_lt_of_assembleEntry h⟩
  have hw := sound_of_run hn
  have hplaces : ∀ place ∈ w.stack, place ∈ m.files :=
    fun place hplace ↦ List.mem_toFinset.2 (hw.places place hplace)
  exact ⟨hw.stack, hw.nodup, hw.visited, hplaces, hw.length_waiting_le, hw.length_stack_le⟩

/-- The moment of a walk at which the place of the only import has been entered. -/
def publishedMoment : Walk :=
  ⟨.read ⟨"/etc/base.yaml"⟩ true 1, {⟨"/etc/base.yaml"⟩, ⟨"/etc/app.yaml"⟩},
    [⟨"/etc/base.yaml"⟩, ⟨"/etc/app.yaml"⟩], [⟨⟨"/etc/app.yaml"⟩, .entry, 0⟩],
    [(⟨⟨"/etc/app.yaml"⟩, 0, [(.string "own", .int 1)], [], []⟩, ⟨"x/../base.yaml", []⟩)]⟩

theorem walk_ends_published :
    ((publishing.withReader published.reader).walker.run 5 (.start ⟨"/etc/app.yaml"⟩ true) =
        .ok (.inl publishedMoment) ∧
      publishedMoment.stack = publishedMoment.openPaths.map FilePath.normalize ∧
        publishedMoment.stack.Nodup ∧ publishedMoment.visited = publishedMoment.stack.toFinset ∧
        (∀ place ∈ publishedMoment.stack, place ∈ published.files) ∧
        publishedMoment.waiting.length ≤ publishedMoment.stack.length ∧
        publishedMoment.stack.length ≤ published.files.card) ∧
    ((publishing.withReader published.reader).assembleEntry ⟨"/etc/app.yaml"⟩ true =
        .ok publishedAssembly ∧
      ∀ d ∈ publishedAssembly.documents, d.kind ≠ .default → d.depth < published.files.card) := by
  obtain ⟨-, hmoments, hdepths⟩ := walk_ends publishing published ⟨"/etc/app.yaml"⟩ true
  have hrun : (publishing.withReader published.reader).walker.run 5
      (.start ⟨"/etc/app.yaml"⟩ true) = .ok (.inl publishedMoment) := by decide +kernel
  have happ : (publishing.withReader published.reader).assembleEntry ⟨"/etc/app.yaml"⟩ true =
      .ok publishedAssembly := by decide +kernel
  exact ⟨⟨hrun, hmoments 5 publishedMoment hrun⟩, happ, hdepths publishedAssembly happ⟩

end Sources

end LayeredConfig
