import LayeredConfig.Placeholder.Substitution
import LayeredConfig.Proofs.Stages
import LayeredConfig.Proofs.Tree.Hole

/-!
# The walk over the strings of a tree

`Scope.resolve` goes through a list of locations and writes into one tree. What it does is told here
along the tree instead: `Scope.Walked σ t v w t'` says that the walk over the value `v`, which
stands somewhere in the tree `t`, leaves `w` in its place and the tree `t'`. A string is substituted
in the tree of the moment and gives way to the answer (`Scope.Substituted`); items and entries are
walked over one after another, each in the tree that the one before left; anything else stays.

`walked_of_resolve` says that this is what a resolution does. From there on locations are not needed
any more, and a statement about all strings of a tree is proved by recursion on the tree, or from
its steps by `invariant_of_walked`. The proof goes through holes: what happens while one part is
walked over is stated for that part in its place (`walked_of_resolveAll_value`). That no mapping has
a key twice is used in one place, for the keys of entries that are walked over already.

The walk writes over the strings that it has come to and over no other. So whenever it comes to a
location, the string of the tree at the start is still there (`at?_of_resolveAll`): no step of
`Scope.resolve` finds its location changed or gone.
-/

namespace LayeredConfig

namespace Scope

/-- The string `s` of the tree `t` has given way to what substitution answers for it. -/
structure Substituted (σ : Scope) (t : Tree) (s : String) (w : Value) (t' : Tree) : Prop where
  /-- It is the answer for the string at its key. -/
  answered : ∃ key, σ.substituteIn t key s = .ok w
  /-- It stands in the place of the string. -/
  overwritten : Value.Overwritten s w (.mapping t) (.mapping t')

mutual

/-- The walk over a value leaves `w` in its place and the tree `t'`. -/
def Walked (σ : Scope) (t : Tree) : (v w : Value) → (t' : Tree) → Prop
  | .string s, w, t' => σ.Substituted t s w t'
  | .sequence items, w, t' =>
    ∃ items', w = .sequence items' ∧ WalkedItems σ t items items' t'
  | .mapping entries, w, t' =>
    ∃ entries', w = .mapping entries' ∧ WalkedEntries σ t entries entries' t'
  | v, w, t' => w = v ∧ t' = t
termination_by structural v => v

/-- The walk over items. -/
def WalkedItems (σ : Scope) (t : Tree) : (items items' : List Value) → (t' : Tree) → Prop
  | [], items', t' => items' = [] ∧ t' = t
  | v :: r, items', t' =>
    ∃ w r' u, items' = w :: r' ∧ Walked σ t v w u ∧ WalkedItems σ u r r' t'
termination_by structural items => items

/-- The walk over the values of entries. Keys stay. -/
def WalkedEntries (σ : Scope) (t : Tree) :
    (entries entries' : List (Value × Value)) → (t' : Tree) → Prop
  | [], entries', t' => entries' = [] ∧ t' = t
  | (k, v) :: r, entries', t' =>
    ∃ w r' u, entries' = (k, w) :: r' ∧ Walked σ t v w u ∧ WalkedEntries σ u r r' t'
termination_by structural entries => entries

end

variable {σ : Scope} {t t' : Tree} {C : Value → Value} {l : Location}

theorem resolveAll_append (ls ls' : List Location) :
    σ.resolveAll (ls ++ ls') t = σ.resolveAll ls t >>= σ.resolveAll ls' := by
  induction ls generalizing t with
  | nil => rfl
  | cons l r ih =>
    rw [List.cons_append, resolveAll, resolveAll]
    cases σ.resolveAt t l with
    | error e => rfl
    | ok u => exact ih

/-- **One step of the walk.** A string at a location gives way to what substitution answers for
it. -/
theorem substituted_of_resolveAt {s : String} (hat : t.at? l = some (.string s))
    (h : σ.resolveAt t l = .ok t') :
    ∃ w, Value.putAt? w l (.mapping t) = some (.mapping t') ∧ σ.Substituted t s w t' := by
  rw [resolveAt, hat] at h
  obtain ⟨w, hw, h⟩ := bind_eq_ok_iff.1 h
  obtain ⟨v, hput⟩ := Value.exists_putAt? w hat
  have hover := Value.Overwritten.of_putAt? hat hput
  obtain ⟨u, rfl⟩ := hover.exists_mapping
  obtain rfl : u = t' := by simpa [Tree.putAt, hput] using h
  exact ⟨w, hput, ⟨_, hw⟩, hover⟩

/-- The same step within a hole. -/
theorem substituted_of_resolveAt_hole (hC : Value.IsHole C l) {s : String}
    (ht : .mapping t = C (.string s)) (h : σ.resolveAt t l = .ok t') :
    ∃ w, .mapping t' = C w ∧ σ.Substituted t s w t' := by
  have hat : t.at? l = some (.string s) := by
    simpa [Tree.at?, ht, Value.at?] using hC.at?_append (.string s) []
  obtain ⟨w, hput, hsubstituted⟩ := substituted_of_resolveAt hat h
  have hhole : Value.putAt? w l (.mapping t) = some (C w) := by
    simpa [ht] using hC.putAt?_append (v := .string s) (w := w) (r := []) rfl
  exact ⟨w, Option.some.inj (hput.symm.trans hhole), hsubstituted⟩

/-- Locations below a step, written from where the step is taken. -/
theorem map_append_map_cons (l : Location) (step : Step) (ls : List Location) :
    (ls.map (step :: ·)).map (l ++ ·) = ls.map ((l ++ [step]) ++ ·) := by
  rw [List.map_map]
  refine List.map_congr_left fun r _ ↦ ?_
  rw [List.append_assoc]
  rfl

/-- Substituting a value keeps its key, so no key behind is among those that are done. -/
theorem disjoint_of_done {before r : List (Value × Value)} {k v w : Value}
    (hbefore : ∀ e ∈ before, ∀ f ∈ (k, v) :: r, e.1.same f.1 = false)
    (hkr : ∀ f ∈ r, k.same f.1 = false) :
    ∀ e ∈ before ++ [(k, w)], ∀ f ∈ r, e.1.same f.1 = false := by
  intro e he f hf
  rcases List.mem_append.1 he with he | he
  · exact hbefore e he f (List.mem_cons_of_mem _ hf)
  · obtain rfl := List.mem_singleton.1 he
    exact hkr f hf

mutual

/-- **The walk through one part of a tree**, which is well-formed and stands in a hole. -/
theorem walked_of_resolveAll_value :
    ∀ {v : Value} {C : Value → Value} {l : Location} {t t' : Tree}, v.WellFormed →
      Value.IsHole C l → .mapping t = C v →
      σ.resolveAll (v.stringLocations.map (l ++ ·)) t = .ok t' →
      ∃ w, .mapping t' = C w ∧ σ.Walked t v w t'
  | .string s, C, l, t, t', _, hC, ht, h => by
    obtain ⟨u, hu, h⟩ := bind_eq_ok_iff.1 h
    obtain rfl : u = t' := by simpa [resolveAll] using h
    exact substituted_of_resolveAt_hole hC ht (by simpa using hu)
  | .sequence items, C, l, t, t', hv, hC, ht, h => by
    obtain ⟨items', ht', hwalked⟩ := walked_of_resolveAll_items [] hv hC ht h
    exact ⟨.sequence items', ht', items', rfl, hwalked⟩
  | .mapping entries, C, l, t, t', hv, hC, ht, h => by
    obtain ⟨entries', ht', hwalked⟩ :=
      walked_of_resolveAll_entries [] (by simp) hv.1 hv.2 hC ht h
    exact ⟨.mapping entries', ht', entries', rfl, hwalked⟩
  | .null, _, _, _, _, _, _, ht, h | .bool _, _, _, _, _, _, _, ht, h
  | .int _, _, _, _, _, _, _, ht, h | .float _, _, _, _, _, _, _, ht, h
  | .tagged _ _, _, _, _, _, _, _, ht, h => by
    cases h
    exact ⟨_, ht, rfl, rfl⟩

/-- The walk through the items behind those that are done. -/
theorem walked_of_resolveAll_items :
    ∀ (before : List Value) {items : List Value} {C : Value → Value} {l : Location} {t t' : Tree},
      Value.WellFormedItems items → Value.IsHole C l →
      .mapping t = C (.sequence (before ++ items)) →
      σ.resolveAll ((Value.itemStringLocations before.length items).map (l ++ ·)) t = .ok t' →
      ∃ items', .mapping t' = C (.sequence (before ++ items')) ∧ σ.WalkedItems t items items' t'
  | before, [], C, l, t, t', _, _, ht, h => by
    cases h
    exact ⟨[], ht, rfl, rfl⟩
  | before, v :: r, C, l, t, t', hitems, hC, ht, h => by
    rw [Value.itemStringLocations, List.map_append, map_append_map_cons, resolveAll_append] at h
    obtain ⟨u, hu, h⟩ := bind_eq_ok_iff.1 h
    obtain ⟨w, hu', hwalked⟩ := walked_of_resolveAll_value hitems.1 (hC.item before r) ht hu
    have hdone : .mapping u = C (.sequence ((before ++ [w]) ++ r)) := by simpa using hu'
    obtain ⟨r', ht', hwalkedr⟩ := walked_of_resolveAll_items (before ++ [w]) hitems.2 hC hdone
      (by simpa using h)
    exact ⟨w :: r', by simpa using ht', w, r', u, rfl, hwalked, hwalkedr⟩

/-- The walk through the entries behind those that are done, no key of which returns. -/
theorem walked_of_resolveAll_entries :
    ∀ (before : List (Value × Value)) {entries : List (Value × Value)} {C : Value → Value}
      {l : Location} {t t' : Tree},
      (∀ e ∈ before, ∀ f ∈ entries, e.1.same f.1 = false) →
      entries.Pairwise (fun e f ↦ e.1.same f.1 = false) → Value.WellFormedEntries entries →
      Value.IsHole C l → .mapping t = C (.mapping (before ++ entries)) →
      σ.resolveAll ((Value.entryStringLocations entries).map (l ++ ·)) t = .ok t' →
      ∃ entries', .mapping t' = C (.mapping (before ++ entries')) ∧
        σ.WalkedEntries t entries entries' t'
  | before, [], C, l, t, t', _, _, _, _, ht, h => by
    cases h
    exact ⟨[], ht, rfl, rfl⟩
  | before, (k, v) :: r, C, l, t, t', hbefore, hpair, hentries, hC, ht, h => by
    rw [Value.entryStringLocations, List.map_append, map_append_map_cons, resolveAll_append] at h
    obtain ⟨u, hu, h⟩ := bind_eq_ok_iff.1 h
    obtain ⟨hkr, hpairr⟩ := List.pairwise_cons.1 hpair
    have hkbefore : ∀ e ∈ before, e.1.same k = false :=
      fun e he ↦ hbefore e he (k, v) List.mem_cons_self
    obtain ⟨w, hu', hwalked⟩ := walked_of_resolveAll_value hentries.2.1 (hC.entry r hkbefore) ht hu
    have hdone : .mapping u = C (.mapping ((before ++ [(k, w)]) ++ r)) := by simpa using hu'
    obtain ⟨r', ht', hwalkedr⟩ := walked_of_resolveAll_entries (before ++ [(k, w)])
      (disjoint_of_done hbefore hkr) hpairr hentries.2.2 hC hdone h
    exact ⟨(k, w) :: r', by simpa using ht', w, r', u, rfl, hwalked, hwalkedr⟩

end

/-- **A resolution is a walk over the tree.** -/
theorem walked_of_resolve (ht : t.WellFormed) (h : σ.resolve t = .ok t') :
    σ.Walked t (.mapping t) (.mapping t') t' := by
  obtain ⟨w, hw, hwalked⟩ := walked_of_resolveAll_value (v := .mapping t) ht Value.IsHole.root rfl
    (by simpa [resolve, Tree.stringLocations] using h)
  obtain rfl : .mapping t' = w := hw
  exact hwalked

/-! ### What holds along the walk -/

section Invariant

variable {P : Tree → Prop} {Q : String → Prop}

mutual

/-- **Induction along the walk.** If every step that starts in a tree with `P` shows `Q` of its
string and leaves a tree with `P`, then a walk that starts so shows `Q` of every string and ends so.
-/
theorem invariant_of_walked
    (step : ∀ {u s w u'}, P u → σ.Substituted u s w u' → Q s ∧ P u') :
    ∀ {v w : Value} {t t' : Tree}, σ.Walked t v w t' → P t → (∀ s ∈ v.strings, Q s) ∧ P t'
  | .string s, _, _, _, h, ht => by
    obtain ⟨hs, ht'⟩ := step ht h
    exact ⟨fun y hy ↦ List.mem_singleton.1 hy ▸ hs, ht'⟩
  | .sequence items, _, _, _, h, ht => by
    obtain ⟨items', -, hitems⟩ := h
    exact invariant_of_walkedItems step hitems ht
  | .mapping entries, _, _, _, h, ht => by
    obtain ⟨entries', -, hentries⟩ := h
    exact invariant_of_walkedEntries step hentries ht
  | .null, _, _, _, h, ht | .bool _, _, _, _, h, ht | .int _, _, _, _, h, ht
  | .float _, _, _, _, h, ht | .tagged _ _, _, _, _, h, ht => by
    obtain ⟨-, rfl⟩ := h
    exact ⟨fun _ hs ↦ absurd hs List.not_mem_nil, ht⟩

theorem invariant_of_walkedItems
    (step : ∀ {u s w u'}, P u → σ.Substituted u s w u' → Q s ∧ P u') :
    ∀ {items items' : List Value} {t t' : Tree}, σ.WalkedItems t items items' t' → P t →
      (∀ s ∈ Value.itemStrings items, Q s) ∧ P t'
  | [], _, _, _, h, ht => by
    obtain ⟨-, rfl⟩ := h
    exact ⟨fun _ hs ↦ absurd hs List.not_mem_nil, ht⟩
  | v :: r, _, _, _, h, ht => by
    obtain ⟨w, r', u, -, hv, hr⟩ := h
    obtain ⟨hvs, hu⟩ := invariant_of_walked step hv ht
    obtain ⟨hrs, ht'⟩ := invariant_of_walkedItems step hr hu
    exact ⟨List.forall_mem_append.2 ⟨hvs, hrs⟩, ht'⟩

theorem invariant_of_walkedEntries
    (step : ∀ {u s w u'}, P u → σ.Substituted u s w u' → Q s ∧ P u') :
    ∀ {entries entries' : List (Value × Value)} {t t' : Tree},
      σ.WalkedEntries t entries entries' t' → P t →
      (∀ s ∈ Value.entryStrings entries, Q s) ∧ P t'
  | [], _, _, _, h, ht => by
    obtain ⟨-, rfl⟩ := h
    exact ⟨fun _ hs ↦ absurd hs List.not_mem_nil, ht⟩
  | (k, v) :: r, _, _, _, h, ht => by
    obtain ⟨w, r', u, -, hv, hr⟩ := h
    obtain ⟨hvs, hu⟩ := invariant_of_walked step hv ht
    obtain ⟨hrs, ht'⟩ := invariant_of_walkedEntries step hr hu
    exact ⟨List.forall_mem_append.2 ⟨hvs, hrs⟩, ht'⟩

end

end Invariant

/-! ### Strings are met as they were -/

/-- A place in two lists one behind the other is in the first or in the second. -/
theorem split_append {α : Type} {as bs done rest : List α} {a : α}
    (h : as ++ bs = done ++ a :: rest) :
    (∃ r, as = done ++ a :: r) ∨ ∃ d, done = as ++ d ∧ bs = d ++ a :: rest := by
  rcases List.append_eq_append_iff.1 h with ⟨d, hdone, hbs⟩ | ⟨d, has, hrest⟩
  · exact Or.inr ⟨d, hdone, hbs⟩
  · cases d with
    | nil => exact Or.inr ⟨[], by simpa using has.symm, hrest.symm⟩
    | cons b r =>
      obtain ⟨rfl, -⟩ := List.cons.inj hrest
      exact Or.inl ⟨r, has⟩

/-- A place in a list that is mapped is the image of a place. -/
theorem split_map {α β : Type} {f : α → β} {as : List α} {done rest : List β} {b : β}
    (h : as.map f = done ++ b :: rest) :
    ∃ d a r, as = d ++ a :: r ∧ done = d.map f ∧ b = f a := by
  obtain ⟨d, as', rfl, rfl, has'⟩ := List.map_eq_append_iff.1 h
  obtain ⟨a, r, rfl, rfl, -⟩ := List.map_eq_cons_iff.1 has'
  exact ⟨d, a, r, rfl, rfl, rfl⟩

mutual

/-- A string of a part that stands in a hole is still there once the strings in front of it are
walked over. -/
theorem at?_of_resolveAll_value :
    ∀ {v : Value} {C : Value → Value} {l₀ : Location} {t u : Tree}, v.WellFormed →
      Value.IsHole C l₀ → .mapping t = C v → ∀ {done rest : List Location} {l : Location},
      v.stringLocations = done ++ l :: rest → σ.resolveAll (done.map (l₀ ++ ·)) t = .ok u →
      ∃ s, v.at? l = some (.string s) ∧ u.at? (l₀ ++ l) = some (.string s)
  | .string s, C, l₀, t, u, _, hC, ht, done, rest, l, hsplit, h => by
    obtain ⟨rfl, hl⟩ : done = [] ∧ l :: rest = [[]] := by
      cases done with
      | nil => exact ⟨rfl, hsplit.symm⟩
      | cons _ _ => simp [Value.stringLocations] at hsplit
    obtain ⟨rfl, -⟩ := List.cons.inj hl
    cases h
    refine ⟨s, rfl, ?_⟩
    rw [Tree.at?, ht, hC.at?_append]
    rfl
  | .sequence items, C, l₀, t, u, hv, hC, ht, done, rest, l, hsplit, h => by
    obtain ⟨i, c, l', s, rfl, hi, hc, hu⟩ := at?_of_resolveAll_items [] hv hC ht hsplit h
    refine ⟨s, ?_, hu⟩
    rw [List.length_nil, Nat.zero_add, Value.at?, hi, Option.bind_some, hc]
  | .mapping entries, C, l₀, t, u, hv, hC, ht, done, rest, l, hsplit, h => by
    obtain ⟨k, c, l', s, rfl, hk, hc, hu⟩ :=
      at?_of_resolveAll_entries [] (by simp) hv.1 hv.2 hC ht hsplit h
    refine ⟨s, ?_, hu⟩
    rw [Value.at?, Tree.find?_of_mem hv.1 hk, Option.bind_some, hc]
  | .null, _, _, _, _, _, _, _, _, _, _, hsplit, _
  | .bool _, _, _, _, _, _, _, _, _, _, _, hsplit, _
  | .int _, _, _, _, _, _, _, _, _, _, _, hsplit, _
  | .float _, _, _, _, _, _, _, _, _, _, _, hsplit, _
  | .tagged _ _, _, _, _, _, _, _, _, _, _, _, hsplit, _ => by
    simp [Value.stringLocations] at hsplit
termination_by structural v => v

theorem at?_of_resolveAll_items :
    ∀ (before : List Value) {items : List Value} {C : Value → Value} {l₀ : Location} {t u : Tree},
      Value.WellFormedItems items → Value.IsHole C l₀ →
      .mapping t = C (.sequence (before ++ items)) → ∀ {done rest : List Location} {l : Location},
      Value.itemStringLocations before.length items = done ++ l :: rest →
      σ.resolveAll (done.map (l₀ ++ ·)) t = .ok u →
      ∃ i c l' s, l = .index (before.length + i) :: l' ∧ items[i]? = some c ∧
        c.at? l' = some (.string s) ∧ u.at? (l₀ ++ l) = some (.string s)
  | _, [], _, _, _, _, _, _, _, _, _, _, hsplit, _ => by
    simp [Value.itemStringLocations] at hsplit
  | before, v :: r, C, l₀, t, u, hitems, hC, ht, done, rest, l, hsplit, h => by
    have hhole := hC.item before r
    rcases split_append hsplit with ⟨_, hv⟩ | ⟨d, rfl, hr⟩
    · -- The place is in the item, and only strings of the item are in front of it.
      obtain ⟨d, l', _, hlocations, rfl, rfl⟩ := split_map hv
      rw [map_append_map_cons] at h
      obtain ⟨s, hs, hu⟩ := at?_of_resolveAll_value hitems.1 hhole ht hlocations h
      rw [List.append_assoc] at hu
      exact ⟨0, v, l', s, rfl, rfl, hs, hu⟩
    · -- The place is behind the item, which is walked over first.
      rw [List.map_append, map_append_map_cons, resolveAll_append] at h
      obtain ⟨u', hu', h⟩ := bind_eq_ok_iff.1 h
      obtain ⟨w, hw, -⟩ := walked_of_resolveAll_value hitems.1 hhole ht hu'
      have hdone : .mapping u' = C (.sequence ((before ++ [w]) ++ r)) := by simpa using hw
      obtain ⟨i, c, l', s, rfl, hi, hc, hu⟩ :=
        at?_of_resolveAll_items (before ++ [w]) hitems.2 hC hdone (by simpa using hr) h
      refine ⟨i + 1, c, l', s, ?_, by simpa using hi, hc, hu⟩
      rw [List.length_append, List.length_singleton, Nat.add_assoc, Nat.add_comm 1 i]
termination_by structural _ items => items

theorem at?_of_resolveAll_entries :
    ∀ (before : List (Value × Value)) {entries : List (Value × Value)} {C : Value → Value}
      {l₀ : Location} {t u : Tree}, (∀ e ∈ before, ∀ f ∈ entries, e.1.same f.1 = false) →
      entries.Pairwise (fun e f ↦ e.1.same f.1 = false) → Value.WellFormedEntries entries →
      Value.IsHole C l₀ → .mapping t = C (.mapping (before ++ entries)) →
      ∀ {done rest : List Location} {l : Location},
      Value.entryStringLocations entries = done ++ l :: rest →
      σ.resolveAll (done.map (l₀ ++ ·)) t = .ok u →
      ∃ k c l' s, l = .key k :: l' ∧ (k, c) ∈ entries ∧ c.at? l' = some (.string s) ∧
        u.at? (l₀ ++ l) = some (.string s)
  | _, [], _, _, _, _, _, _, _, _, _, _, _, _, hsplit, _ => by
    simp [Value.entryStringLocations] at hsplit
  | before, (k, v) :: r, C, l₀, t, u, hbefore, hpair, hentries, hC, ht, done, rest, l, hsplit,
      h => by
    obtain ⟨hkr, hpairr⟩ := List.pairwise_cons.1 hpair
    have hhole := hC.entry r fun e he ↦ hbefore e he (k, v) List.mem_cons_self
    rcases split_append hsplit with ⟨_, hv⟩ | ⟨d, rfl, hr⟩
    · obtain ⟨d, l', _, hlocations, rfl, rfl⟩ := split_map hv
      rw [map_append_map_cons] at h
      obtain ⟨s, hs, hu⟩ := at?_of_resolveAll_value hentries.2.1 hhole ht hlocations h
      rw [List.append_assoc] at hu
      exact ⟨k, v, l', s, rfl, List.mem_cons_self, hs, hu⟩
    · rw [List.map_append, map_append_map_cons, resolveAll_append] at h
      obtain ⟨u', hu', h⟩ := bind_eq_ok_iff.1 h
      obtain ⟨w, hw, -⟩ := walked_of_resolveAll_value hentries.2.1 hhole ht hu'
      have hdone : .mapping u' = C (.mapping ((before ++ [(k, w)]) ++ r)) := by simpa using hw
      obtain ⟨k', c, l', s, rfl, hk', hc, hu⟩ := at?_of_resolveAll_entries (before ++ [(k, w)])
        (disjoint_of_done hbefore hkr) hpairr hentries.2.2 hC hdone hr h
      exact ⟨k', c, l', s, rfl, List.mem_cons_of_mem _ hk', hc, hu⟩
termination_by structural _ entries => entries

end

/-- **Every string is met as it was**: when the walk comes to a location, the tree still has there
what it had at the start. -/
theorem at?_of_resolveAll (ht : t.WellFormed) {done rest : List Location}
    (hsplit : t.stringLocations = done ++ l :: rest) (h : σ.resolveAll done t = .ok t') :
    ∃ s, t.at? l = some (.string s) ∧ t'.at? l = some (.string s) :=
  at?_of_resolveAll_value (v := .mapping t) ht Value.IsHole.root rfl hsplit (by simpa using h)

end Scope

end LayeredConfig
