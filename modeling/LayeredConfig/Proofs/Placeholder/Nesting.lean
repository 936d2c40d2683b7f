import LayeredConfig.Proofs.Placeholder.Steps

/-!
# How deep references nest

A reference may lead to a value with references in it, and those to further ones, back to the first
or to a value around it; one place may be spelled in endlessly many ways. What bounds the nesting is
that identifiers come from the tree: at every moment the references that are on their way are all
different, and each occurs in a string of the tree as it is then (`Substitution.Sound`). So there
are never more of them than the tree has identifiers (`Scope.resolve_ends`).

The tree changes from string to string, and with it the identifiers that occur in it. But it changes
only when a string is done with, and then nothing is on its way.
-/

namespace LayeredConfig

/-! ### What is left to substitute -/

/-- Every reference that the task has still to meet occurs in the tree. -/
def SubstitutionTask.Within (t : Tree) : SubstitutionTask → Prop
  | .next | .answer _ => True
  | .value _ v => v.references ⊆ t.references
  | .pieces _ _ rest =>
    ∀ path, .placeholder ⟨.configuration, path⟩ ∈ rest → path ∈ t.references
  | .items _ _ rest => Value.itemReferences rest ⊆ t.references
  | .entries _ _ rest => Value.entryReferences rest ⊆ t.references

/-- So does every reference that is met once the value is there. -/
def SubstitutionFrame.Within (t : Tree) : SubstitutionFrame → Prop
  | .lone => True
  | .piece key before _ rest => (SubstitutionTask.pieces key before rest).Within t
  | .item key before rest => (SubstitutionTask.items key before rest).Within t
  | .entry key before _ rest => (SubstitutionTask.entries key before rest).Within t

/-- What holds at every moment of a substitution. -/
structure Substitution.Sound (c : Substitution) : Prop where
  /-- The references that are on their way are all different. -/
  nodup : c.stack.Nodup
  /-- Each of them occurs in the tree. -/
  subset : c.stack ⊆ c.tree.references
  /-- So does each that is still to be met. -/
  task : c.task.Within c.tree
  /-- And each that is met later. -/
  waiting : ∀ f ∈ c.waiting, f.Within c.tree

namespace Substitution.Sound

variable {σ : Scope} {c : Substitution} {task : SubstitutionTask} {f : SubstitutionFrame}
  {r : List SubstitutionFrame} {key : String} {p : Placeholder} {v : Value}

/-- **No more references are on their way than occur in the tree.** -/
theorem length_stack_le (hc : c.Sound) :
    c.stack.length ≤ c.tree.references.toFinset.card :=
  length_le_card_of_nodup hc.nodup hc.subset

/-- Between two strings nothing is on its way, and nothing waits. -/
theorem between (t : Tree) (left : List Location) : Sound ⟨.next, t, left, [], []⟩ where
  nodup := List.nodup_nil
  subset := List.nil_subset _
  task := trivial
  waiting f hf := by cases hf

/-- Another task on the same stack. -/
theorem turn (hc : c.Sound) (htask : task.Within c.tree) : Sound { c with task := task } :=
  { hc with task := htask }

/-- A container waits for one of its parts. -/
theorem wait (hc : c.Sound) (htask : task.Within c.tree) (hf : f.Within c.tree) :
    Sound { c with task := task, waiting := f :: c.waiting } :=
  { hc with
    task := htask
    waiting := List.forall_mem_cons.2 ⟨hf, hc.waiting⟩ }

/-- A reference sets out: it is on its way from now on. -/
theorem follow (hc : c.Sound) (hp : p.kind = .configuration → p.identifier ∈ c.tree.references)
    (hfind : σ.find c.tree c.stack key p = .inr v) (hf : f.Within c.tree) :
    Sound
      { c with
        task := .value p.identifier v
        stack := p.identifier :: c.stack
        waiting := f :: c.waiting } := by
  obtain ⟨hkind, hstack, hget⟩ := Scope.of_find_eq_inr hfind
  exact
    { nodup := List.nodup_cons.2 ⟨hstack, hc.nodup⟩
      subset := List.cons_subset.2 ⟨hp hkind, hc.subset⟩
      task := Value.references_subset (Tree.strings_subset_of_get? hget)
      waiting := List.forall_mem_cons.2 ⟨hf, hc.waiting⟩ }

/-- A container has the value that it waited for. -/
theorem resume (hc : c.Sound) (hwaiting : c.waiting = f :: r) (htask : task.Within c.tree) :
    Sound { c with task := task, waiting := r } :=
  { hc with
    task := htask
    waiting := (List.forall_mem_cons.1 (hwaiting ▸ hc.waiting)).2 }

/-- A reference has arrived: it is on its way no longer. -/
theorem arrive (hc : c.Sound) (hwaiting : c.waiting = f :: r) (htask : task.Within c.tree) :
    Sound { c with task := task, stack := c.stack.tail, waiting := r } :=
  { nodup := hc.nodup.tail
    subset := List.Subset.trans (List.tail_subset _) hc.subset
    task := htask
    waiting := (List.forall_mem_cons.1 (hwaiting ▸ hc.waiting)).2 }

end Substitution.Sound

namespace Scope

variable {σ : Scope} {c c' : Substitution}

/-! ### Every step, and every moment -/

/-- A value is substituted: its parts are within the tree if the value is. -/
theorem sound_of_step_value {t : Tree} {left : List Location} {stack : List String}
    {waiting : List SubstitutionFrame} {key : String} {v : Value}
    (h : σ.resolver.step ⟨.value key v, t, left, stack, waiting⟩ = .ok (.inl c'))
    (hc : Substitution.Sound ⟨.value key v, t, left, stack, waiting⟩) : c'.Sound := by
  cases v with
  | string text =>
    have hps : ∀ path, .placeholder ⟨.configuration, path⟩ ∈ Placeholder.ofString text →
        path ∈ t.references :=
      fun path hpath ↦ hc.task (Placeholder.mem_references.2 hpath)
    simp only [resolver] at h
    split at h
    · rename_i p hlone
      have hp : p.kind = .configuration → p.identifier ∈ t.references :=
        Placeholder.identifier_mem_of_piece hps (hlone ▸ List.mem_singleton_self _)
      split at h
      · obtain rfl := Sum.inl.inj (Except.ok.inj h)
        exact hc.turn trivial
      · obtain ⟨w, -, h⟩ := bind_eq_ok_iff.1 h
        obtain rfl := Sum.inl.inj (Except.ok.inj h)
        exact hc.turn trivial
      · rename_i w hfind
        obtain rfl := Sum.inl.inj (Except.ok.inj h)
        exact hc.follow hp hfind trivial
    · obtain rfl := Sum.inl.inj (Except.ok.inj h)
      exact hc.turn hps
  | sequence items =>
    obtain rfl := Sum.inl.inj (Except.ok.inj h)
    exact hc.turn hc.task
  | mapping entries =>
    obtain rfl := Sum.inl.inj (Except.ok.inj h)
    exact hc.turn hc.task
  | null | bool _ | int _ | float _ | tagged _ _ =>
    obtain rfl := Sum.inl.inj (Except.ok.inj h)
    exact hc.turn trivial

/-- A text goes on, with its next piece. -/
theorem sound_of_step_pieces {t : Tree} {left : List Location} {stack : List String}
    {waiting : List SubstitutionFrame} {key before : String} {rest : List Piece}
    (h : σ.resolver.step ⟨.pieces key before rest, t, left, stack, waiting⟩ = .ok (.inl c'))
    (hc : Substitution.Sound ⟨.pieces key before rest, t, left, stack, waiting⟩) : c'.Sound := by
  match rest with
  | [] =>
    obtain rfl := Sum.inl.inj (Except.ok.inj h)
    exact hc.turn trivial
  | .literal text :: r =>
    obtain rfl := Sum.inl.inj (Except.ok.inj h)
    exact hc.turn fun path hpath ↦ hc.task path (List.mem_cons_of_mem _ hpath)
  | .placeholder p :: r =>
    have hr : ∀ path, .placeholder ⟨.configuration, path⟩ ∈ r → path ∈ t.references :=
      fun path hpath ↦ hc.task path (List.mem_cons_of_mem _ hpath)
    have hp : p.kind = .configuration → p.identifier ∈ t.references :=
      Placeholder.identifier_mem_of_piece hc.task List.mem_cons_self
    simp only [resolver] at h
    split at h
    · obtain ⟨s, -, h⟩ := bind_eq_ok_iff.1 h
      obtain rfl := Sum.inl.inj (Except.ok.inj h)
      exact hc.turn hr
    · rename_i w hfind
      obtain rfl := Sum.inl.inj (Except.ok.inj h)
      exact hc.follow hp hfind hr

/-- A value is given to what waits for it. -/
theorem sound_of_step_answer {t : Tree} {left : List Location} {stack : List String}
    {waiting : List SubstitutionFrame} {v : Value}
    (h : σ.resolver.step ⟨.answer v, t, left, stack, waiting⟩ = .ok (.inl c'))
    (hc : Substitution.Sound ⟨.answer v, t, left, stack, waiting⟩) : c'.Sound := by
  match waiting with
  | [] =>
    simp only [resolver] at h
    split at h
    · obtain rfl := Sum.inl.inj (Except.ok.inj h)
      exact .between _ _
    · cases h
  | .lone :: r =>
    obtain rfl := Sum.inl.inj (Except.ok.inj h)
    exact hc.arrive rfl trivial
  | .piece key before p rest :: r =>
    obtain ⟨s, -, h⟩ := bind_eq_ok_iff.1 h
    obtain rfl := Sum.inl.inj (Except.ok.inj h)
    exact hc.arrive rfl (hc.waiting _ List.mem_cons_self)
  | .item key before rest :: r =>
    obtain rfl := Sum.inl.inj (Except.ok.inj h)
    exact hc.resume rfl (hc.waiting _ List.mem_cons_self)
  | .entry key before k rest :: r =>
    obtain rfl := Sum.inl.inj (Except.ok.inj h)
    exact hc.resume rfl (hc.waiting _ List.mem_cons_self)

/-- **Every step keeps the substitution sound.** -/
theorem sound_of_step (h : σ.resolver.step c = .ok (.inl c')) (hc : c.Sound) : c'.Sound := by
  obtain ⟨task, t, left, stack, waiting⟩ := c
  match task with
  | .next =>
    simp only [resolver] at h
    split at h
    · cases h
    · split at h
      · rename_i text hat
        obtain rfl := Sum.inl.inj (Except.ok.inj h)
        exact hc.turn (Value.references_subset (Value.strings_subset_of_at? hat))
      · obtain rfl := Sum.inl.inj (Except.ok.inj h)
        exact ⟨hc.nodup, hc.subset, trivial, hc.waiting⟩
  | .value key v => exact sound_of_step_value h hc
  | .pieces key before rest => exact sound_of_step_pieces h hc
  | .items key before [] | .entries key before [] =>
    obtain rfl := Sum.inl.inj (Except.ok.inj h)
    exact hc.turn trivial
  | .items key before (v :: r) =>
    obtain ⟨hv, hr⟩ := List.append_subset.1 hc.task
    obtain rfl := Sum.inl.inj (Except.ok.inj h)
    exact hc.wait hv hr
  | .entries key before ((k, v) :: r) =>
    obtain ⟨hv, hr⟩ := List.append_subset.1 hc.task
    obtain rfl := Sum.inl.inj (Except.ok.inj h)
    exact hc.wait hv hr
  | .answer v => exact sound_of_step_answer h hc

/-- **Substitution ends on every tree, and nests no deeper than the tree has references.** At every
moment the references that are on their way are all different, and occur in strings of the tree as
it is then. -/
theorem resolve_ends (σ : Scope) (t : Tree) :
    σ.resolver.Ends (.start t) (σ.resolve t) ∧
      ∀ n c, σ.resolver.run n (.start t) = .ok (.inl c) →
        c.stack.Nodup ∧ c.stack ⊆ c.tree.references ∧
          c.stack.length ≤ c.tree.references.toFinset.card := by
  refine ⟨ends_resolver σ t, fun n c hn ↦ ?_⟩
  have hc : c.Sound :=
    Machine.invariant_of_run (fun _ _ ↦ sound_of_step) (.between t t.stringLocations) hn
  exact ⟨hc.nodup, hc.subset, hc.length_stack_le⟩

/-- Two values that refer to each other, and one that refers to the first of them. -/
def mutualReferences : Tree :=
  [(.string "a", .string "%conf(b)%"), (.string "b", .string "by %conf(c)%"),
    (.string "c", .string "%conf(b)%")]

/-- The moment of its substitution at which two references are on their way, and the value that the
second leads to refers to the first. -/
def mutualMoment : Substitution :=
  ⟨.value "c" (.string "%conf(b)%"), mutualReferences, mutualReferences.stringLocations,
    ["c", "b"], [.piece "b" "by " ⟨.configuration, "c"⟩ [], .lone]⟩

theorem resolve_ends_mutualReferences :
    (Scope.mk (fun _ ↦ none) .builtin false).resolver.run 5 (.start mutualReferences) =
        .ok (.inl mutualMoment) ∧
      mutualMoment.stack.Nodup ∧ mutualMoment.stack ⊆ mutualMoment.tree.references ∧
        mutualMoment.stack.length ≤ mutualMoment.tree.references.toFinset.card := by
  have hrun : (Scope.mk (fun _ ↦ none) .builtin false).resolver.run 5 (.start mutualReferences) =
      .ok (.inl mutualMoment) := by decide +kernel
  exact ⟨hrun, (resolve_ends _ mutualReferences).2 5 mutualMoment hrun⟩

end Scope

end LayeredConfig
