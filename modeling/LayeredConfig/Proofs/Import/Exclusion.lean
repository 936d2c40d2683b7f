import LayeredConfig.Import.Assembly
import LayeredConfig.Proofs.Tree.Removal

/-!
# Excluded keys are gone

An import may exclude keys: they are taken out of all that is assembled so far, one after another,
once the import was merged (`Assembly.add`). Afterwards an excluded path leads nowhere, from
whichever layer the key came, and whatever else is excluded before it or after it
(`Assembly.get?_add_eq_none`). Each removal keeps the path clear and keeps what is gone, so only the
removal at the path itself is looked into.

Two conditions are needed beyond that the path leads through no sequence. In each mapping on the way
the next segment is the name of one key at most: of a number and a text that are written alike only
the text is taken out, and the number stays readable (`Assembly.get?_add_needs_namesOnce`). And the
path is not one segment behind an empty one, for its parent is then the empty path, at which nothing
is found. Where all keys are strings the first condition always holds
(`Assembly.get?_add_eq_none_of_stringKeyed`).
-/

namespace LayeredConfig

namespace Tree

variable {t : Tree} {ss : List String}

/-! ### One path excluded after another -/

theorem WellFormed.without (ht : t.WellFormed) (path : String) : (t.without path).WellFormed := by
  rcases without_eq_or_removed t path with h | h
  · rwa [h]
  · exact h.wellFormed ht

theorem WellFormed.foldl_without (ht : t.WellFormed) (paths : List String) :
    (paths.foldl Tree.without t).WellFormed := by
  induction paths generalizing t with
  | nil => exact ht
  | cons p r ih => exact ih (ht.without p)

theorem clearAlong_without (ht : t.WellFormed) (hclear : (Value.mapping t).ClearAlong ss)
    (path : String) : (Value.mapping (t.without path)).ClearAlong ss := by
  rcases without_eq_or_removed t path with h | h
  · rwa [h]
  · exact h.clearAlong ht hclear

/-- What is gone stays gone. -/
theorem descend?_without (ht : t.WellFormed) (hclear : (Value.mapping t).ClearAlong ss)
    (hgone : (Value.mapping t).descend? ss = none) (path : String) :
    (Value.mapping (t.without path)).descend? ss = none := by
  rcases without_eq_or_removed t path with h | h
  · rwa [h]
  · refine Option.eq_none_iff_forall_ne_some.2 fun x hx ↦ ?_
    obtain ⟨y, hy⟩ := h.exists_descend? ht hclear hx
    rw [hgone] at hy
    cases hy

theorem descend?_foldl_without {paths : List String} (ht : t.WellFormed)
    (hclear : (Value.mapping t).ClearAlong ss) (hgone : (Value.mapping t).descend? ss = none) :
    (Value.mapping (paths.foldl Tree.without t)).descend? ss = none := by
  induction paths generalizing t with
  | nil => exact hgone
  | cons p r ih =>
    exact ih (ht.without p) (clearAlong_without ht hclear p) (descend?_without ht hclear hgone p)

/-- Of a list of paths that are taken out, each that is clear is gone in the end. -/
theorem descend?_foldl_without_of_mem {paths : List String} {path : String} (ht : t.WellFormed)
    (hclear : (Value.mapping t).ClearAlong (segments path)) (hmem : path ∈ paths)
    (hempty : ∀ last, segments path ≠ ["", last]) :
    (Value.mapping (paths.foldl Tree.without t)).descend? (segments path) = none := by
  induction paths generalizing t with
  | nil => cases hmem
  | cons p r ih =>
    have ht' : (t.without p).WellFormed := ht.without p
    have hclear' := clearAlong_without ht hclear p
    rw [List.foldl_cons]
    rcases List.mem_cons.1 hmem with rfl | hmem
    · exact descend?_foldl_without ht' hclear' (descend?_without_self ht hclear hempty)
    · exact ih ht' hclear' hmem

/-! ### Trees whose keys are strings -/

/-- Strings are different names. -/
theorem namesOnce_of_stringKeyed (ht : (Value.mapping t).StringKeyed) (segment : String) :
    t.NamesOnce segment := by
  have hname : ∀ k ∈ t.keys, k.isNamed segment = true → k = .string segment := by
    intro k hk hnamed
    obtain ⟨e, he, rfl⟩ := List.mem_map.1 hk
    obtain ⟨⟨text, htext⟩, -⟩ := Value.entriesStringKeyed_iff.1 ht e he
    simpa [htext, Value.isNamed, Value.isString, Value.untagged] using hnamed
  intro k hk k' hk' hnamed hnamed'
  rw [hname k hk hnamed, hname k' hk' hnamed']

end Tree

theorem Value.StringKeyed.child? {t : Tree} {segment : String} {c : Value}
    (ht : (Value.mapping t).StringKeyed) (h : (Value.mapping t).child? segment = some c) :
    c.StringKeyed := by
  obtain ⟨k, -, hfind⟩ := Option.bind_eq_some_iff.1 h
  obtain ⟨k', hmem⟩ := Tree.exists_mem_of_find? hfind
  exact (Value.entriesStringKeyed_iff.1 ht _ hmem).2

/-- Where all keys are strings and there is no sequence on the way, a path is clear. -/
theorem Value.clearAlong_of_stringKeyed {v : Value} {ss : List String} (hv : v.StringKeyed)
    (hsequence : ∀ parent s rest, ss = parent ++ s :: rest →
      ∀ items, v.descend? parent ≠ some (.sequence items)) : v.ClearAlong ss := by
  induction ss generalizing v with
  | nil => trivial
  | cons s r ih =>
    cases v with
    | mapping t =>
      refine ⟨Tree.namesOnce_of_stringKeyed hv s, fun c hc ↦ ih (hv.child? hc) ?_⟩
      intro parent s' rest hsplit items hitems
      refine hsequence (s :: parent) s' rest (by rw [hsplit, List.cons_append]) items ?_
      rw [Value.descend?, hc, Option.bind_some, hitems]
    | sequence items => exact absurd rfl (hsequence [] s r rfl items)
    | null | bool _ | int _ | float _ | string _ | tagged _ _ =>
      exact ⟨trivial, fun c hc ↦ by cases hc⟩

/-! ### Imports -/

namespace Assembly

variable {a b : Assembly} {e : ImportEntry} {path : String}

theorem get?_add_of_clearAlong (ha : a.tree.WellFormed) (hb : b.tree.WellFormed)
    (hpath : path ∈ e.exclude)
    (hclear : (Value.mapping (a.tree.merge b.tree)).ClearAlong (segments path))
    (hempty : ∀ last, segments path ≠ ["", last]) : (a.add e b).tree.get? path = none := by
  have hgone := Tree.descend?_foldl_without_of_mem (ha.merge hb) hclear hpath hempty
  refine Option.eq_none_iff_forall_ne_some.2 fun v hv ↦ ?_
  rw [Tree.get?_eq_some_iff] at hv
  exact absurd hv.2 (by rw [add, hgone]; simp)

/-- **An excluded key is gone** once the import is laid over what was assembled before, if its path
leads through mappings of the two in each of which one key at most has the name of the next segment,
and if it is not a single segment behind an empty one. -/
theorem get?_add_eq_none (ha : a.tree.WellFormed) (hb : b.tree.WellFormed)
    (hpath : path ∈ e.exclude)
    (hsequence : ∀ parent s rest, segments path = parent ++ s :: rest →
      ∀ items, (Value.mapping (a.tree.merge b.tree)).descend? parent ≠ some (.sequence items))
    (hnames : ∀ parent s rest, segments path = parent ++ s :: rest →
      ∀ t : Tree, (Value.mapping (a.tree.merge b.tree)).descend? parent = some (.mapping t) →
        t.NamesOnce s)
    (hempty : ∀ last, segments path ≠ ["", last]) : (a.add e b).tree.get? path = none := by
  refine get?_add_of_clearAlong ha hb hpath (Value.clearAlong_iff.2 ?_) hempty
  intro parent s rest hsplit w hw
  cases w with
  | mapping t => exact hnames parent s rest hsplit t hw
  | sequence items => exact absurd hw (hsequence parent s rest hsplit items)
  | null | bool _ | int _ | float _ | string _ | tagged _ _ => trivial

/-- The same where all keys are strings. -/
theorem get?_add_eq_none_of_stringKeyed (ha : a.tree.WellFormed) (hb : b.tree.WellFormed)
    (hpath : path ∈ e.exclude) (hstrings : (Value.mapping (a.tree.merge b.tree)).StringKeyed)
    (hsequence : ∀ parent s rest, segments path = parent ++ s :: rest →
      ∀ items, (Value.mapping (a.tree.merge b.tree)).descend? parent ≠ some (.sequence items))
    (hempty : ∀ last, segments path ≠ ["", last]) : (a.add e b).tree.get? path = none :=
  get?_add_of_clearAlong ha hb hpath (Value.clearAlong_of_stringKeyed hstrings hsequence) hempty

/-- An import that excludes the port `8080`. -/
def withoutPort : ImportEntry :=
  ⟨"site.yaml", ["ports.8080"]⟩

/-- The ways to cut two segments before one of them. -/
theorem cut_two_segments {first second s : String} {parent rest : List String}
    (h : [first, second] = parent ++ s :: rest) :
    parent = [] ∧ s = first ∨ parent = [first] ∧ s = second := by
  match parent with
  | [] => exact Or.inl ⟨rfl, (List.cons.inj h).1.symm⟩
  | [p] =>
    obtain ⟨rfl, hrest⟩ := List.cons.inj h
    exact Or.inr ⟨rfl, (List.cons.inj hrest).1.symm⟩
  | _ :: _ :: _ => simp at h

theorem get?_add_numberedPorts :
    (add ⟨Tree.numberedPorts "old", []⟩ withoutPort ⟨Tree.numberedPorts "new", []⟩).tree.get?
      "ports.8080" = none := by
  have hsegments : segments "ports.8080" = ["ports", "8080"] := by decide +kernel
  have hmerge : (Tree.numberedPorts "old").merge (Tree.numberedPorts "new") =
      Tree.numberedPorts "new" := by
    decide +kernel
  have hroot : (Value.mapping (Tree.numberedPorts "new")).descend? ["ports"] =
      some (.mapping [(.int 8080, .string "new"), (.null, .sequence [])]) := by
    decide +kernel
  refine get?_add_eq_none (Tree.wellFormed_numberedPorts _) (Tree.wellFormed_numberedPorts _)
    (List.mem_singleton_self _) ?_ ?_ ?_
  · intro parent s rest hsplit items hitems
    rw [hmerge] at hitems
    rcases cut_two_segments (hsegments.symm.trans hsplit) with ⟨rfl, rfl⟩ | ⟨rfl, rfl⟩
    · cases hitems
    · rw [hroot] at hitems
      cases hitems
  · intro parent s rest hsplit t ht
    rw [hmerge] at ht
    rcases cut_two_segments (hsegments.symm.trans hsplit) with ⟨rfl, rfl⟩ | ⟨rfl, rfl⟩
    · cases ht
      decide +kernel
    · rw [hroot] at ht
      cases ht
      decide +kernel
  · simp [hsegments]

/-- **The condition on names is needed**: where a number is a key in one layer and the text of the
same form in the other, excluding the name takes the text out and leaves the number. -/
theorem get?_add_needs_namesOnce :
    ¬∀ (a b : Assembly) (e : ImportEntry) (path : String), a.tree.WellFormed → b.tree.WellFormed →
      path ∈ e.exclude →
      (∀ parent s rest, segments path = parent ++ s :: rest →
        ∀ items, (Value.mapping (a.tree.merge b.tree)).descend? parent ≠ some (.sequence items)) →
      (a.add e b).tree.get? path = none := by
  intro h
  have hsegments : segments "ports.8080" = ["ports", "8080"] := by decide +kernel
  have hports : (Value.mapping ((Tree.numberedPorts "secret").merge
      (Tree.namedPorts "new"))).descend? ["ports"] = some (.mapping
        [(.int 8080, .string "secret"), (.null, .sequence []),
          (.string "8080", .string "new")]) := by
    decide +kernel
  have hgone := h ⟨Tree.numberedPorts "secret", []⟩ ⟨Tree.namedPorts "new", []⟩ withoutPort
    "ports.8080" (Tree.wellFormed_numberedPorts _) (Tree.wellFormed_namedPorts _)
    (List.mem_singleton_self _) fun parent s rest hsplit items hitems ↦ by
      rcases cut_two_segments (hsegments.symm.trans hsplit) with ⟨rfl, rfl⟩ | ⟨rfl, rfl⟩
      · cases hitems
      · rw [hports] at hitems
        cases hitems
  have hleft : (add ⟨Tree.numberedPorts "secret", []⟩ withoutPort
      ⟨Tree.namedPorts "new", []⟩).tree.get? "ports.8080" = some (.string "secret") := by
    decide +kernel
  rw [hleft] at hgone
  cases hgone

end Assembly

end LayeredConfig
