import LayeredConfig.Proofs.Import.Walk
import LayeredConfig.Proofs.Machine

/-!
# The walk along imports, step by step

`Sources.walker` assembles an entry one step at a time. Its state holds what a walk keeps as it
goes: the set of places that it is in, to see that it comes back, and the same places as a stack, to
say how; the documents loaded so far; and the documents that wait for one of their imports, the
innermost first. The set and the stack are two records of one thing, written to in different
places, and nothing but the steps themselves keeps them together. There is no measure either: a
step goes wherever the text of a document leads.

The walker ends, and it ends with what the recursion answers (`Sources.ends_walker`). One document
is worked out in as many steps as it takes, and leaves the set, the stack and what waits as they
were (`Sources.computes_enter`); this is an induction along the walk.
-/

namespace LayeredConfig

/-- A document whose imports are being laid. -/
structure OpenDocument where
  /-- Its path. -/
  path : FilePath
  /-- The number of imports on the way to it. -/
  depth : Nat
  /-- Its own keys. -/
  own : Tree
  /-- What it will be laid over, as far as it has come. -/
  below : Tree
  /-- The imports that are still to come. -/
  imports : List ImportEntry
deriving DecidableEq

/-- The document with an import laid, whose tree is given. -/
def OpenDocument.lay (d : OpenDocument) (i : ImportEntry) (t : Tree) : OpenDocument :=
  { d with below := i.exclude.foldl Tree.without (d.below.merge t) }

/-- What a walk does next. -/
inductive WalkTask where
  /-- It begins at an entry. -/
  | start (entry : FilePath) (suppress : Bool)
  /-- It comes to the document at a path and a depth. -/
  | enter (path : FilePath) (suppress : Bool) (depth : Nat)
  /-- It reads a document whose place it has entered. -/
  | read (path : FilePath) (suppress : Bool) (depth : Nat)
  /-- It lays the imports of a document. -/
  | lay (d : OpenDocument)
  /-- It has assembled a document to a tree. -/
  | finish (t : Tree)
deriving DecidableEq

/-- A moment of a walk. -/
structure Walk where
  /-- What comes next. -/
  task : WalkTask
  /-- The places that the walk is in. -/
  visited : Finset FilePath
  /-- The places that the walk is in, the last one first. -/
  stack : List FilePath
  /-- The documents that were loaded, in order. -/
  documents : List LoadedDocument
  /-- The documents that wait, each with the import that it waits for, the innermost first. -/
  waiting : List (OpenDocument × ImportEntry)
deriving DecidableEq

/-- The first moment of a walk. -/
def Walk.start (entry : FilePath) (suppress : Bool) : Walk :=
  ⟨.start entry suppress, ∅, [], [], []⟩

namespace Sources

/-- The walk along imports as a machine. -/
def walker (s : Sources) : Machine LoadError Walk Assembly where
  step w :=
    match w.task with
    | .start entry suppress =>
      if s.reader.has entry then .ok (.inl { w with task := .enter entry suppress 0 })
      else if suppress then .ok (.inr .empty)
      else do
        let a ← s.defaultLayer 0
        .ok (.inr a)
    | .enter path suppress depth =>
      let here := s.reader.identity path
      if here ∈ w.visited then .error (.circularImport (w.stack.reverse ++ [here]))
      else .ok (.inl
        { w with
          task := .read path suppress depth
          visited := insert here w.visited
          stack := here :: w.stack })
    | .read path suppress depth =>
      match s.reader.look path with
      | .text text => do
        let (imports, own) ← readDocument path text
        let base ← s.baseLayer suppress depth imports
        let self : LoadedDocument := ⟨path, if depth = 0 then .entry else .imported, depth⟩
        .ok (.inl
          { w with
            task := .lay ⟨path, depth, own, base.tree, imports⟩
            documents := w.documents ++ [self] ++ base.documents })
      | _ => .error (.unreadable path)
    | .lay d =>
      match d.imports with
      | [] => .ok (.inl
          { w with
            task := .finish (d.below.merge d.own)
            visited := w.visited.erase (s.reader.identity d.path)
            stack := w.stack.tail })
      | i :: r =>
        if i.isDefault then do
          let b ← s.defaultLayer (d.depth + 1)
          .ok (.inl
            { w with
              task := .lay ({ d with imports := r }.lay i b.tree)
              documents := w.documents ++ b.documents })
        else do
          let next ← s.importPath d.path i.path
          if s.reader.has next then
            .ok (.inl
              { w with
                task := .enter next true (d.depth + 1)
                waiting := ({ d with imports := r }, i) :: w.waiting })
          else .error (.missingImport next d.path)
    | .finish t =>
      match w.waiting with
      | [] => .ok (.inr ⟨t, w.documents⟩)
      | (d, i) :: r => .ok (.inl { w with task := .lay (d.lay i t), waiting := r })

variable {s : Sources} {suppress : Bool} {stack : List FilePath} {depth : Nat}
  {path importer entry : FilePath} {visited : Finset FilePath} {documents : List LoadedDocument}
  {waiting : List (OpenDocument × ImportEntry)} {own below : Tree}

/-! ### What the walker works out -/

/-- The walker works out the documents that imports at a depth name, as the given function does,
and leaves the places that it is in and what waits as they were. -/
def ComputesBelow (s : Sources) (visited : Finset FilePath) (stack : List FilePath) (depth : Nat)
    (assemble : FilePath → Except LoadError Assembly) : Prop :=
  ∀ next documents waiting,
    s.walker.Computes ⟨.enter next true depth, visited, stack, documents, waiting⟩ (assemble next)
      fun b ↦ ⟨.finish b.tree, visited, stack, documents ++ b.documents, waiting⟩

/-- An import of a document. -/
theorem computes_contribution {assemble : FilePath → Except LoadError Assembly}
    (hbelow : s.ComputesBelow visited stack (depth + 1) assemble) (i : ImportEntry)
    (r : List ImportEntry) (documents : List LoadedDocument) :
    s.walker.Computes
      ⟨.lay ⟨path, depth, own, below, i :: r⟩, visited, stack, documents, waiting⟩
      (s.contribution assemble (depth + 1) path i) fun b ↦
        ⟨.lay (OpenDocument.lay ⟨path, depth, own, below, r⟩ i b.tree), visited, stack,
          documents ++ b.documents, waiting⟩ := by
  cases hdefault : i.isDefault with
  | true =>
    rw [contribution, if_pos hdefault]
    refine .of_stage ?_
    simp only [walker, hdefault, if_true]
  | false =>
    rw [contribution, hdefault, if_neg Bool.false_ne_true]
    have hstep : s.walker.step
        ⟨.lay ⟨path, depth, own, below, i :: r⟩, visited, stack, documents, waiting⟩ =
          s.importPath path i.path >>= fun next ↦
            if s.reader.has next then
              .ok (.inl ⟨.enter next true (depth + 1), visited, stack, documents,
                (⟨path, depth, own, below, r⟩, i) :: waiting⟩)
            else .error (.missingImport next path) := by
      simp only [walker, hdefault, Bool.false_eq_true, if_false]
    refine .of_begin hstep fun next _ hnext ↦ ?_
    split
    · rw [if_pos ‹_›] at hnext
      have hwaits := hbelow next documents ((⟨path, depth, own, below, r⟩, i) :: waiting)
      -- The document is worked out, and then laid by the one that waits for it.
      exact .of_step hnext (hwaits.then_step fun b _ ↦ rfl)
    · rw [if_neg ‹_›] at hnext
      exact .of_error hnext

/-- All imports of a document, laid over what comes below them. -/
theorem computes_addAll {assemble : FilePath → Except LoadError Assembly}
    (hbelow : s.ComputesBelow visited stack (depth + 1) assemble) (imports : List ImportEntry)
    (base : Assembly) :
    s.walker.Computes
      ⟨.lay ⟨path, depth, own, base.tree, imports⟩, visited, stack, documents ++ base.documents,
        waiting⟩
      (base.addAll (s.contribution assemble (depth + 1) path) imports) fun layers ↦
        ⟨.lay ⟨path, depth, own, layers.tree, []⟩, visited, stack, documents ++ layers.documents,
          waiting⟩ := by
  induction imports generalizing base with
  | nil => exact .ok rfl
  | cons i r ih =>
    refine (computes_contribution hbelow i r _).bind fun b _ ↦ ?_
    rw [List.append_assoc]
    exact ih (base.add i b)

/-- A document whose place has been entered. -/
theorem computes_read (hstack : s.reader.identity path ∉ stack)
    (hbelow : s.ComputesBelow (s.reader.identity path :: stack).toFinset
      (s.reader.identity path :: stack) (depth + 1)
      (s.assemble true (s.reader.identity path :: stack) (depth + 1)))
    {text : String} (hlook : s.reader.look path = .text text) :
    s.walker.Computes
      ⟨.read path suppress depth, (s.reader.identity path :: stack).toFinset,
        s.reader.identity path :: stack, documents, waiting⟩
      (readDocument path text >>= fun d ↦ s.assembleImports suppress stack depth path d.1 d.2)
      fun a ↦ ⟨.finish a.tree, stack.toFinset, stack, documents ++ a.documents, waiting⟩ := by
  have hstep : s.walker.step
      ⟨.read path suppress depth, (s.reader.identity path :: stack).toFinset,
        s.reader.identity path :: stack, documents, waiting⟩ =
      readDocument path text >>= fun d ↦ s.baseLayer suppress depth d.1 >>= fun base ↦
        .ok (.inl ⟨.lay ⟨path, depth, d.2, base.tree, d.1⟩,
          (s.reader.identity path :: stack).toFinset, s.reader.identity path :: stack,
          documents ++ [⟨path, if depth = 0 then .entry else .imported, depth⟩] ++ base.documents,
          waiting⟩) := by
    simp only [walker, hlook]
  refine .of_begin hstep fun d _ hbase ↦ ?_
  rw [assembleImports]
  refine .bind (.of_stage hbase) fun base _ ↦ ?_
  refine .bind (computes_addAll hbelow d.1 base) fun layers _ ↦ ?_
  -- The last step takes the place away again, which was entered here and nowhere before.
  have herase : (s.reader.identity path :: stack).toFinset.erase (s.reader.identity path) =
      stack.toFinset := by
    rw [List.toFinset_cons, Finset.erase_insert (by simpa using hstack)]
  have hlast : s.walker.step
      ⟨.lay ⟨path, depth, d.2, layers.tree, []⟩, (s.reader.identity path :: stack).toFinset,
        s.reader.identity path :: stack,
        documents ++ [⟨path, if depth = 0 then .entry else .imported, depth⟩] ++ layers.documents,
        waiting⟩ =
      .ok (.inl ⟨.finish (layers.tree.merge d.2), stack.toFinset, stack,
        documents ++ [⟨path, if depth = 0 then .entry else .imported, depth⟩] ++ layers.documents,
        waiting⟩) := by
    simp only [walker, herase, List.tail_cons]
  exact .of_step hlast (.ok (by rw [List.append_assoc, List.singleton_append]))

/-- **The walker works a document out**, and leaves the places that it is in and what waits as they
were. -/
theorem computes_enter (s : Sources) (suppress : Bool) (stack : List FilePath) (depth : Nat)
    (path : FilePath) (documents : List LoadedDocument)
    (waiting : List (OpenDocument × ImportEntry)) :
    s.walker.Computes ⟨.enter path suppress depth, stack.toFinset, stack, documents, waiting⟩
      (s.assemble suppress stack depth path) fun a ↦
        ⟨.finish a.tree, stack.toFinset, stack, documents ++ a.documents, waiting⟩ := by
  induction stack, path using s.reader.walk_induction
    generalizing suppress depth documents waiting with
  | step stack path ih =>
    rw [assemble_eq]
    by_cases hstack : s.reader.identity path ∈ stack
    · rw [if_pos hstack]
      refine .of_error ?_
      simp only [walker, List.mem_toFinset, hstack, if_true, List.reverse_cons]
    · rw [if_neg hstack]
      have hstep : s.walker.step
          ⟨.enter path suppress depth, stack.toFinset, stack, documents, waiting⟩ =
          .ok (.inl ⟨.read path suppress depth, (s.reader.identity path :: stack).toFinset,
            s.reader.identity path :: stack, documents, waiting⟩) := by
        simp only [walker, List.mem_toFinset, hstack, if_false, List.toFinset_cons]
      refine .of_step hstep ?_
      cases hlook : s.reader.look path with
      | absent | unreadable =>
        refine .of_error ?_
        simp only [walker, hlook]
      | text text =>
        exact computes_read hstack (fun next ↦ ih text hlook hstack next true (depth + 1)) hlook

/-- **The walk along imports ends**, with what the recursion answers. -/
theorem ends_walker (s : Sources) (entry : FilePath) (suppress : Bool) :
    s.walker.Ends (.start entry suppress) (s.assembleEntry entry suppress) := by
  cases hentry : s.reader.has entry with
  | true =>
    rw [assembleEntry_of_has hentry]
    have hstep : s.walker.step (.start entry suppress) =
        .ok (.inl ⟨.enter entry suppress 0, ∅, [], [], []⟩) := by
      simp only [walker, Walk.start, hentry, if_true]
    exact (Machine.Computes.of_step hstep (computes_enter s suppress [] 0 entry [] [])).ends
      fun a _ ↦ rfl
  | false =>
    rw [assembleEntry, hentry, if_neg Bool.false_ne_true]
    refine Machine.ends_of_step ?_
    simp only [walker, Walk.start, hentry, Bool.false_eq_true, if_false]
    cases suppress <;> rfl

end Sources

end LayeredConfig
