import LayeredConfig.Proofs.Tree.Place
import LayeredConfig.Proofs.Tree.WellFormed
import LayeredConfig.Unvisited
import LayeredConfig.Proofs.Placeholder.Rendering
import Mathlib.Logic.Relation

/-!
# The graph of references

The strings of a tree are the nodes of a graph: `Tree.RefersTo` relates the location of a string to
the locations of the strings that its references lead to. A reference to a mapping or a sequence
leads to every string inside, through tags excepted. `Tree.Acyclic` says that no way through this
graph comes back to where it began.

Which strings a string refers to hangs on its text alone. So the graph can be told without
locations: `Tree.Mentions` relates texts, and `Tree.Grounded` says that every way from a text
through mentioned texts ends. The two accounts agree: a tree whose texts are grounded is acyclic
(`Tree.acyclic_of_grounded`), and an acyclic well-formed tree has grounded texts only
(`Tree.grounded_of_acyclic`). The second half is an induction along a way that comes to no text
twice.
-/

namespace LayeredConfig

/-! ### The references of a value -/

namespace Value

mutual

theorem references_eq_flatMap :
    ∀ v : Value, v.references = v.strings.flatMap Placeholder.references
  | .string s => by simp [references, strings]
  | .sequence items => itemReferences_eq_flatMap items
  | .mapping entries => entryReferences_eq_flatMap entries
  | .null | .bool _ | .int _ | .float _ | .tagged _ _ => rfl

theorem itemReferences_eq_flatMap :
    ∀ items : List Value,
      itemReferences items = (itemStrings items).flatMap Placeholder.references
  | [] => rfl
  | v :: r => by
    rw [itemReferences, itemStrings, List.flatMap_append, references_eq_flatMap,
      itemReferences_eq_flatMap]

theorem entryReferences_eq_flatMap :
    ∀ entries : List (Value × Value),
      entryReferences entries = (entryStrings entries).flatMap Placeholder.references
  | [] => rfl
  | (_, v) :: r => by
    rw [entryReferences, entryStrings, List.flatMap_append, references_eq_flatMap,
      entryReferences_eq_flatMap]

end

/-- The references of a value are those in its strings. -/
theorem mem_references {v : Value} {path : String} :
    path ∈ v.references ↔ ∃ s ∈ v.strings, path ∈ Placeholder.references s := by
  rw [references_eq_flatMap, List.mem_flatMap]

end Value

/-! ### The graph -/

namespace Tree

variable {t : Tree} {l l' : Location} {s s' : String}

/-- The string at `l` refers to the string at `l'`: one of its references leads there, or to a
mapping or a sequence around it. -/
def RefersTo (t : Tree) (l l' : Location) : Prop :=
  ∃ text text' path base, t.at? l = some (.string text) ∧ path ∈ Placeholder.references text ∧
    t.locate? path = some base ∧ base <+: l' ∧ t.at? l' = some (.string text')

/-- No string refers to itself, through however many other strings. -/
def Acyclic (t : Tree) : Prop :=
  ∀ l, ¬Relation.TransGen t.RefersTo l l

/-- A reference in the text `s` leads to the string `s'`, or to a value that holds it. -/
def Mentions (t : Tree) (s s' : String) : Prop :=
  ∃ path ∈ Placeholder.references s, ∃ v, t.get? path = some v ∧ s' ∈ v.strings

/-- Every way from the text `s` through mentioned texts ends. -/
def Grounded (t : Tree) (s : String) : Prop :=
  Acc (fun y x ↦ t.Mentions x y) s

theorem Mentions.mem_strings (h : t.Mentions s s') : s' ∈ t.strings := by
  obtain ⟨path, -, v, hv, hs'⟩ := h
  exact strings_subset_of_get? hv hs'

/-- A grounded text mentions nothing that leads back to it. -/
theorem Grounded.not_transGen (h : t.Grounded s) : ¬Relation.TransGen t.Mentions s s := by
  induction h with
  | intro s _ ih =>
    intro hcycle
    obtain ⟨y, hy, hback⟩ := Relation.TransGen.head'_iff.1 hcycle
    exact ih y hy (Relation.TransGen.tail' hback hy)

/-! ### From locations to texts -/

/-- What a string refers to depends on its text alone. -/
theorem RefersTo.congr {m : Location} (h : t.RefersTo l m) (hl : t.at? l = t.at? l') :
    t.RefersTo l' m := by
  obtain ⟨text, text', path, base, htext, h⟩ := h
  exact ⟨text, text', path, base, hl ▸ htext, h⟩

theorem RefersTo.exists_text (h : t.RefersTo l l') : ∃ s', t.at? l' = some (.string s') := by
  obtain ⟨-, s', -, -, -, -, -, -, hl'⟩ := h
  exact ⟨s', hl'⟩

theorem mentions_of_refersTo (h : t.RefersTo l l') (hl : t.at? l = some (.string s))
    (hl' : t.at? l' = some (.string s')) : t.Mentions s s' := by
  obtain ⟨text, -, path, base, htext, hpath, hbase, ⟨r, rfl⟩, -⟩ := h
  obtain rfl : text = s := by simpa [htext] using hl
  rw [at?, Value.at?_append] at hl'
  obtain ⟨v, hv, hr⟩ := Option.bind_eq_some_iff.1 hl'
  have hs' : s' ∈ (Value.string s').strings := by simp [Value.strings]
  exact ⟨path, hpath, v, get?_eq_some_iff_locate?.2 ⟨base, hbase, hv⟩,
    Value.strings_subset_of_at? hr hs'⟩

/-- **A tree whose texts are grounded has no cycle of references.** -/
theorem acyclic_of_grounded (h : ∀ s ∈ t.strings, t.Grounded s) : t.Acyclic := by
  have hfrom : ∀ s, t.Grounded s → ∀ l, t.at? l = some (.string s) →
      ¬Relation.TransGen t.RefersTo l l := by
    intro s hs
    induction hs with
    | intro s _ ih =>
      intro l hl hcycle
      obtain ⟨m, hm, hback⟩ := Relation.TransGen.head'_iff.1 hcycle
      obtain ⟨y, hy⟩ := hm.exists_text
      exact ih y (mentions_of_refersTo hm hl hy) m hy (Relation.TransGen.tail' hback hm)
  intro l hcycle
  obtain ⟨m, -, hlast⟩ := Relation.TransGen.tail'_iff.1 hcycle
  obtain ⟨s, hl⟩ := hlast.exists_text
  exact hfrom s (h s (mem_strings_of_at? hl)) l hl hcycle

/-! ### From texts to locations -/

/-- A mentioned text stands at a location, to which every string with the mentioning text refers. -/
theorem exists_refersTo_of_mentions (ht : t.WellFormed) (h : t.Mentions s s') :
    ∃ l', t.at? l' = some (.string s') ∧
      ∀ l, t.at? l = some (.string s) → t.RefersTo l l' := by
  obtain ⟨path, hpath, v, hv, hs'⟩ := h
  have hwellFormed : v.WellFormed := Value.WellFormed.descend? ht (get?_eq_some_iff.1 hv).2
  obtain ⟨base, hbase, hat⟩ := get?_eq_some_iff_locate?.1 hv
  obtain ⟨r, hr⟩ := Value.exists_at?_of_mem_strings hwellFormed hs'
  have hl' : t.at? (base ++ r) = some (.string s') := by
    rw [at?, Value.at?_append, ← at?, hat, Option.bind_some, hr]
  exact ⟨base ++ r, hl', fun l hl ↦ ⟨s, s', path, base, hl, hpath, hbase, ⟨r, rfl⟩, hl'⟩⟩

/-- **In an acyclic tree the references of every string come to an end.** -/
theorem grounded_of_acyclic (ht : t.WellFormed) (h : t.Acyclic) (hs : s ∈ t.strings) :
    t.Grounded s := by
  -- Along a way from string to string, the texts that it has come through are on a stack.
  have hway : ∀ stack : List String, ∀ l s, t.at? l = some (.string s) →
      (∀ y ∈ stack, ∃ l₀, t.at? l₀ = some (.string y) ∧ Relation.TransGen t.RefersTo l₀ l) →
      t.Grounded s := by
    intro stack
    induction stack using unvisited_induction t.strings with
    | step stack ih =>
      intro l s hl hstack
      have hnew : s ∉ stack := by
        intro hmem
        -- A text on the stack would refer to what it referred to before, which leads to it again.
        obtain ⟨l₀, hl₀, hway⟩ := hstack s hmem
        obtain ⟨m, hm, hback⟩ := Relation.TransGen.head'_iff.1 hway
        exact h m (Relation.TransGen.tail' hback (hm.congr (hl₀.trans hl.symm)))
      refine Acc.intro _ fun y hy ↦ ?_
      obtain ⟨l', hl', hrefers⟩ := exists_refersTo_of_mentions ht hy
      refine ih s (mem_strings_of_at? hl) hnew l' y hl' fun z hz ↦ ?_
      rcases List.mem_cons.1 hz with rfl | hz
      · exact ⟨l, hl, .single (hrefers l hl)⟩
      · obtain ⟨l₀, hl₀, hway⟩ := hstack z hz
        exact ⟨l₀, hl₀, .tail hway (hrefers l hl)⟩
  obtain ⟨l, hl⟩ := Value.exists_at?_of_mem_strings ht hs
  exact hway [] l s hl (by simp)

end Tree

end LayeredConfig
