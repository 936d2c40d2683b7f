import LayeredConfig.Proofs.Placeholder.Completeness
import LayeredConfig.Proofs.Placeholder.References

/-!
# Cycles of references are refused

A strict resolution that answers a tree comes from a tree without a cycle of references
(`acyclic_of_resolve`), however long the cycle, whether it goes through strings or through the
mappings and sequences around them, and however its paths spell keys and indexes. The stack of
references on their way has no part in the argument. A strict answer is a rendering that follows
references finitely deep, and a rendering has to render all that its text mentions; so what renders
is grounded (`grounded_of_render`). A cycle renders at no depth.

That is so in the tree of the moment, while the cycle is to be excluded in the tree at the start.
What ties the two is the invariant `Tree.Keeps`: every path of the tree at the start still leads
somewhere, and the strings that are gone from there are those that were found grounded before.
-/

namespace LayeredConfig

/-- Wherever a path leads in `t`, it leads in `u`, and each string found there in `t` is found in
`u` too or is grounded in `t`. -/
def Tree.Keeps (t u : Tree) : Prop :=
  ∀ ⦃path v⦄, t.get? path = some v →
    ∃ v', u.get? path = some v' ∧ ∀ s ∈ v.strings, s ∈ v'.strings ∨ t.Grounded s

theorem Tree.Keeps.refl (t : Tree) : t.Keeps t :=
  fun _ v hv ↦ ⟨v, hv, fun _ hs ↦ Or.inl hs⟩

namespace Scope

variable {σ : Scope} {t t' u u' : Tree} {s : String} {w : Value}

/-- **What renders is grounded**: a text that renders at some depth in a later tree mentions only
texts from which every way ends. -/
theorem grounded_of_render (hkeeps : t.Keeps u) {depth : Nat}
    (h : σ.render (σ.reading u depth) s = some w) : t.Grounded s := by
  induction depth generalizing s w with
  | zero =>
    refine Acc.intro _ fun y ⟨path, hpath, _⟩ ↦ ?_
    obtain ⟨x, hx⟩ := exists_read_of_render h (Placeholder.mem_references.1 hpath)
    cases hx
  | succ depth ih =>
    refine Acc.intro _ fun y ⟨path, hpath, v, hv, hy⟩ ↦ ?_
    obtain ⟨v', hv', hstrings⟩ := hkeeps hv
    rcases hstrings y hy with hy' | hgrounded
    · have hread : ∃ x, σ.reading u (depth + 1) path = some x :=
        exists_read_of_render h (Placeholder.mem_references.1 hpath)
      obtain ⟨x, hx⟩ := hread
      obtain ⟨v'', hv'', hx⟩ := reading_succ_eq_some_iff.1 hx
      obtain rfl : v'' = v' := Option.some.inj (hv''.symm.trans hv')
      obtain ⟨z, hz⟩ := exists_render_of_renderValue hx hy'
      exact ih hz
    · exact hgrounded

/-- Writing over a string that is grounded keeps all but that string. -/
theorem keeps_of_overwritten (hkeeps : t.Keeps u) (hs : t.Grounded s)
    (h : Value.Overwritten s w (.mapping u) (.mapping u')) : t.Keeps u' := by
  intro path v hv
  obtain ⟨v', hv', hstrings⟩ := hkeeps hv
  obtain ⟨v'', hv'', rfl | hover⟩ := Tree.get?_of_overwritten h hv'
  · exact ⟨v'', hv'', hstrings⟩
  · refine ⟨v'', hv'', fun y hy ↦ ?_⟩
    rcases hstrings y hy with hy' | hgrounded
    · rcases hover.mem_strings hy' with rfl | hy''
      · exact Or.inr hs
      · exact Or.inl hy''
    · exact Or.inr hgrounded

/-- One step of the walk: the string that gives way is grounded. -/
theorem grounded_of_substituted (hσ : σ.strict = true) (hkeeps : t.Keeps u)
    (h : σ.Substituted u s w u') : t.Grounded s ∧ t.Keeps u' := by
  obtain ⟨⟨key, hanswer⟩, hover⟩ := h
  obtain ⟨depth, hrender⟩ := render_of_substituteIn hσ hanswer
  have hgrounded : t.Grounded s := grounded_of_render hkeeps hrender
  exact ⟨hgrounded, keeps_of_overwritten hkeeps hgrounded hover⟩

/-- What a strict resolution answers comes from a tree in which every way through references ends.
-/
theorem grounded_of_resolve (hσ : σ.strict = true) (ht : t.WellFormed) (h : σ.resolve t = .ok t') :
    ∀ s ∈ t.strings, t.Grounded s :=
  (invariant_of_walked (P := t.Keeps) (Q := t.Grounded) (grounded_of_substituted hσ)
    (walked_of_resolve ht h) (Tree.Keeps.refl t)).1

/-- **A cycle of references is never accepted.** What a strict resolution answers comes from an
acyclic tree. -/
theorem acyclic_of_resolve (hσ : σ.strict = true) (ht : t.WellFormed)
    (h : σ.resolve t = .ok t') : t.Acyclic :=
  Tree.acyclic_of_grounded (grounded_of_resolve hσ ht h)

/-- A tree in which strings refer forwards and back, to a string, to a sequence and to an item of it
by two spellings of one index. -/
def mirrors : Tree :=
  [(.string "first", .string "%conf(hosts.+0)%"),
    (.string "hosts", .sequence [.string "%env(HOST)%", .string "mirror.%conf(hosts.00)%"]),
    (.string "all", .mapping [(.string "copy", .string "%conf(hosts)%")]),
    (.string "again", .string "%conf(all)%")]

theorem acyclic_mirrors : mirrors.Acyclic := by
  have hwellFormed : mirrors.WellFormed := by
    simp [mirrors, Tree.WellFormed, Value.WellFormed, Value.WellFormedEntries,
      Value.WellFormedItems]
  let hosts : Value := .sequence [.string "local", .string "mirror.local"]
  have hresolve : Scope.resolve
      ⟨fun name ↦ if name = "HOST" then some "local" else none, .empty, true⟩ mirrors =
      .ok [(.string "first", .string "local"), (.string "hosts", hosts),
        (.string "all", .mapping [(.string "copy", hosts)]),
        (.string "again", .mapping [(.string "copy", hosts)])] := by
    decide +kernel
  exact acyclic_of_resolve rfl hwellFormed hresolve

/-- A sequence that holds a reference to itself is refused. -/
example : Scope.resolve ⟨fun _ ↦ none, .empty, true⟩
    [(.string "list", .sequence [.string "a", .mapping [(.string "of", .string "%conf(list)%")]])] =
      .error (.unresolvedPlaceholder "%conf(list)%" "list.of") := by
  decide +kernel

end Scope

end LayeredConfig
