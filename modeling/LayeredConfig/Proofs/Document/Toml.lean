import LayeredConfig.Proofs.Stages
import LayeredConfig.Proofs.Tree.WellFormed
import LayeredConfig.Toml.Expression

/-!
# Trees of TOML documents are well-formed

No table of a document has a key twice (`wellFormed_of_read`). For an entry that is plain to see: it
is refused where its key is there already. A header, however, opens a table apart from the root, and
the table takes its place only when the next header comes. What makes that safe is carried along
from statement to statement (`Draft.WellFormed`): nothing stands where the open table is to go, and
until then nothing is added to the root.

All changes go through `Table.update`. What a change needs of the table at the end of the path, and
what it leaves there, is told by `Table.Reached`, and `Table.wellFormed_update` passes from the
change to the whole table.
-/

namespace LayeredConfig.Toml

/-! ### Tables -/

/-- No table in the table has a key twice, and all values in it are well-formed. -/
def Table.WellFormed (t : Table) : Prop :=
  Tree.WellFormed (entryValues t)

theorem entryValues_eq_map (t : Table) :
    entryValues t = t.map fun e ↦ (.string e.1, e.2.toValue) := by
  induction t with
  | nil => rfl
  | cons e r ih => rw [entryValues, ih, List.map_cons]

theorem tableValues_eq_map (ts : List Table) :
    tableValues ts = ts.map fun t ↦ .mapping (entryValues t) := by
  induction ts with
  | nil => rfl
  | cons t r ih => rw [tableValues, ih, List.map_cons]

namespace Table

variable {t t' : Table} {key : String} {i old : Item}

theorem wellFormed_iff : t.WellFormed ↔
    (t.map Prod.fst).Nodup ∧ ∀ e ∈ t, e.2.toValue.WellFormed := by
  have hkeys : Tree.keys (entryValues t) = (t.map Prod.fst).map Value.string := by
    rw [entryValues_eq_map, Tree.keys, List.map_map, List.map_map]
    rfl
  have hentries : (∀ e ∈ entryValues t, e.1.WellFormed ∧ e.2.WellFormed) ↔
      ∀ e ∈ t, e.2.toValue.WellFormed := by
    rw [entryValues_eq_map, List.forall_mem_map]
    simp [Value.WellFormed]
  rw [WellFormed, Tree.wellFormed_iff, hkeys, List.pairwise_map, hentries]
  simp [List.Nodup]

theorem wellFormed_nil : WellFormed [] :=
  Tree.wellFormed_nil

theorem not_mem_keys_of_find?_eq_none (h : t.find? key = none) : key ∉ t.map Prod.fst := by
  intro hmem
  obtain ⟨e, he, rfl⟩ := List.mem_map.1 hmem
  simpa using List.lookup_eq_none_iff.1 h e he

theorem WellFormed.of_find? (ht : t.WellFormed) (h : t.find? key = some i) :
    i.toValue.WellFormed := by
  obtain ⟨before, after, rfl, -⟩ := List.lookup_eq_some_iff.1 h
  exact (wellFormed_iff.1 ht).2 (key, i) (by simp)

/-! ### Changes of one entry -/

theorem WellFormed.append (ht : t.WellFormed) (hnew : t.find? key = none)
    (hi : i.toValue.WellFormed) : WellFormed (t ++ [(key, i)]) := by
  obtain ⟨hkeys, hitems⟩ := wellFormed_iff.1 ht
  refine wellFormed_iff.2 ⟨?_, fun e he ↦ ?_⟩
  · rw [List.map_append, List.map_singleton]
    refine List.nodup_append.2 ⟨hkeys, List.pairwise_singleton _ _, fun k hk k' hk' heq ↦ ?_⟩
    obtain rfl := List.mem_singleton.1 hk'
    exact not_mem_keys_of_find?_eq_none hnew (heq ▸ hk)
  · rcases List.mem_append.1 he with he | he
    · exact hitems e he
    · rw [List.mem_singleton.1 he]
      exact hi

theorem find?_append_new (hnew : t.find? key = none) :
    find? key (t ++ [(key, i)]) = some i := by
  rw [find?, List.lookup_append, ← find?, hnew, Option.none_or]
  simp

theorem map_fst_replace (key : String) (i : Item) (t : Table) :
    (t.replace key i).map Prod.fst = t.map Prod.fst := by
  induction t with
  | nil => rfl
  | cons e r ih =>
    obtain ⟨k, old⟩ := e
    rw [replace]
    split
    · rfl
    · rw [List.map_cons, ih, List.map_cons]

theorem mem_replace {e : String × Item} (h : e ∈ t.replace key i) : e ∈ t ∨ e.2 = i := by
  induction t with
  | nil => cases h
  | cons f r ih =>
    obtain ⟨k, old⟩ := f
    rw [replace] at h
    split at h
    · rcases List.mem_cons.1 h with rfl | h
      · exact Or.inr rfl
      · exact Or.inl (List.mem_cons_of_mem _ h)
    · rcases List.mem_cons.1 h with rfl | h
      · exact Or.inl List.mem_cons_self
      · exact (ih h).imp_left (List.mem_cons_of_mem _)

theorem WellFormed.replace (ht : t.WellFormed) (hi : i.toValue.WellFormed) :
    (t.replace key i).WellFormed := by
  obtain ⟨hkeys, hitems⟩ := wellFormed_iff.1 ht
  refine wellFormed_iff.2 ⟨by rwa [map_fst_replace], fun e he ↦ ?_⟩
  rcases mem_replace he with he | rfl
  · exact hitems e he
  · exact hi

theorem find?_replace (h : t.find? key = some old) : (t.replace key i).find? key = some i := by
  induction t with
  | nil => cases h
  | cons e r ih =>
    obtain ⟨k, x⟩ := e
    rw [replace]
    by_cases hk : k = key
    · rw [if_pos hk, hk, find?, List.lookup_cons_self]
    · have hne : (key == k) = false := by simpa using fun heq : key = k ↦ hk heq.symm
      rw [find?, List.lookup_cons, hne] at h
      rw [if_neg hk, find?, List.lookup_cons, hne]
      exact ih h

theorem WellFormed.erase (ht : t.WellFormed) (key : String) : (t.erase key).WellFormed := by
  obtain ⟨hkeys, hitems⟩ := wellFormed_iff.1 ht
  have hsub : (t.erase key).Sublist t := List.filter_sublist
  exact wellFormed_iff.2 ⟨hkeys.sublist (hsub.map _), fun e he ↦ hitems e (hsub.subset he)⟩

theorem find?_erase (key : String) (t : Table) : (t.erase key).find? key = none := by
  refine List.lookup_eq_none_iff.2 fun e he ↦ ?_
  have hne : e.1 ≠ key := by simpa [erase] using (List.mem_filter.1 he).2
  simpa using hne.symm

/-! ### Changes at the end of a path -/

/-- `P` holds of the table that a path leads to, as far as it leads to one. -/
def Reached (P : Table → Prop) : List String → Table → Prop
  | [], t => P t
  | key :: path, t =>
    match t.find? key with
    | none => Reached P path []
    | some (.table _ entries) => Reached P path entries
    | some (.tables _ last) => Reached P path last
    | some (.value _) => True

theorem Reached.mono {P Q : Table → Prop} (hPQ : ∀ t, P t → Q t) {path : List String} {t : Table}
    (h : Reached P path t) : Reached Q path t := by
  induction path generalizing t with
  | nil => exact hPQ t h
  | cons key path ih =>
    rw [Reached] at h ⊢
    split at h
    · exact ih h
    · exact ih h
    · exact ih h
    · trivial

theorem reached_of_forall {P : Table → Prop} (h : ∀ t, P t) (path : List String) (t : Table) :
    Reached P path t := by
  induction path generalizing t with
  | nil => exact h t
  | cons key path ih =>
    rw [Reached]
    split
    · exact ih _
    · exact ih _
    · exact ih _
    · trivial

theorem wellFormed_table_iff {origin : Origin} :
    (Item.table origin t).toValue.WellFormed ↔ t.WellFormed :=
  Iff.rfl

theorem wellFormed_tables_iff {before : List Table} {last : Table} :
    (Item.tables before last).toValue.WellFormed ↔
      (∀ t ∈ before, t.WellFormed) ∧ last.WellFormed := by
  have hbefore : (∀ v ∈ tableValues before, v.WellFormed) ↔ ∀ t ∈ before, t.WellFormed := by
    rw [tableValues_eq_map, List.forall_mem_map]
    rfl
  rw [Item.toValue, Value.WellFormed, Value.wellFormedItems_iff, List.forall_mem_append, hbefore,
    List.forall_mem_singleton]
  rfl

section Update

variable {α : Type} {isDotted : Bool} {change : Origin → Table → Except Fault (Table × α)}
  {P Q : Table → Prop} {R : α → Prop}

/-- **A change at the end of a path keeps the whole table well-formed**, if it does so with the
table there. -/
theorem wellFormed_update (hchange : ∀ origin t t' a, t.WellFormed → P t →
      change origin t = .ok (t', a) → t'.WellFormed ∧ Q t' ∧ R a)
    {path : List String} {origin : Origin} {a : α} (ht : t.WellFormed) (hP : Reached P path t)
    (h : update isDotted change path origin t = .ok (t', a)) :
    t'.WellFormed ∧ Reached Q path t' ∧ R a := by
  induction path generalizing origin t t' a with
  | nil => exact hchange origin t t' a ht hP h
  | cons key path ih =>
    rw [update] at h
    rw [Reached] at hP
    split at h
    · -- The table on the way is missing, and is made from an empty one.
      rename_i hfind
      rw [hfind] at hP
      obtain ⟨⟨new, b⟩, hnew, h⟩ := bind_eq_ok_iff.1 h
      obtain ⟨rfl, rfl⟩ : t ++ [_] = t' ∧ b = a := by simpa using h
      obtain ⟨hwell, hQ, hR⟩ := ih wellFormed_nil hP hnew
      refine ⟨ht.append hfind (wellFormed_table_iff.2 hwell), ?_, hR⟩
      rw [Reached, find?_append_new hfind]
      exact hQ
    · rename_i made entries hfind
      rw [hfind] at hP
      split at h
      · cases h
      · obtain ⟨⟨new, b⟩, hnew, h⟩ := bind_eq_ok_iff.1 h
        obtain ⟨rfl, rfl⟩ : t.replace _ _ = t' ∧ b = a := by simpa using h
        obtain ⟨hwell, hQ, hR⟩ := ih (wellFormed_table_iff.1 (ht.of_find? hfind)) hP hnew
        refine ⟨ht.replace (wellFormed_table_iff.2 hwell), ?_, hR⟩
        rw [Reached, find?_replace hfind]
        exact hQ
    · rename_i before last hfind
      rw [hfind] at hP
      obtain ⟨⟨new, b⟩, hnew, h⟩ := bind_eq_ok_iff.1 h
      obtain ⟨rfl, rfl⟩ : t.replace _ _ = t' ∧ b = a := by simpa using h
      obtain ⟨hbefore, hlast⟩ := wellFormed_tables_iff.1 (ht.of_find? hfind)
      obtain ⟨hwell, hQ, hR⟩ := ih hlast hP hnew
      refine ⟨ht.replace (wellFormed_tables_iff.2 ⟨hbefore, hwell⟩), ?_, hR⟩
      rw [Reached, find?_replace hfind]
      exact hQ
    · cases h

end Update

/-- An entry is added under a new key only. -/
theorem WellFormed.insert (ht : t.WellFormed) {path : List String} {v : Value} (hv : v.WellFormed)
    (h : t.insert path key v = .ok t') : t'.WellFormed := by
  obtain ⟨⟨new, u⟩, hupdate, h⟩ := bind_eq_ok_iff.1 h
  obtain rfl : new = t' := by simpa using h
  refine (wellFormed_update (P := fun _ ↦ True) (Q := fun _ ↦ True) (R := fun _ ↦ True) ?_ ht
    (reached_of_forall (fun _ ↦ True.intro) _ _) hupdate).1
  intro origin t t' a ht _ hadd
  split at hadd
  · cases hadd
  · rename_i hfree
    obtain rfl : t ++ [_] = t' := by simpa using hadd
    have hnew : t.find? key = none := by simp_all
    exact ⟨ht.append hnew hv, True.intro, True.intro⟩

end Table

/-! ### Documents under construction -/

/-- The root and the open table are well-formed, and nothing stands in the place of the open table.
-/
structure Draft.WellFormed (d : Draft) : Prop where
  /-- The root. -/
  root : d.root.WellFormed
  /-- The open table. -/
  current : d.current.WellFormed
  /-- The place of the open table, unless it goes into an array. -/
  free : ∀ h, d.header = some h → h.isArray = false →
    Table.Reached (fun t ↦ t.find? h.key = none) h.path d.root

namespace Draft.WellFormed

variable {d d' : Draft} {root : Table}

theorem empty : Draft.empty.WellFormed where
  root := Table.wellFormed_nil
  current := Table.wellFormed_nil
  free _ h := by cases h

/-- **The open table takes its place** where nothing stands, or behind the tables of its array. -/
theorem close (hd : d.WellFormed) (h : d.close = .ok root) : root.WellFormed := by
  rw [Draft.close] at h
  split at h
  · obtain rfl : d.current = root := by simpa using h
    exact hd.current
  · rename_i header hheader
    obtain ⟨⟨new, u⟩, hupdate, h⟩ := bind_eq_ok_iff.1 h
    obtain rfl : new = root := by simpa using h
    have hfree : Table.Reached (fun t ↦ header.isArray = false → t.find? header.key = none)
        header.path d.root := by
      cases harray : header.isArray with
      | true => exact Table.reached_of_forall (fun _ h ↦ by cases h) _ _
      | false => exact (hd.free header hheader harray).mono fun _ hnone _ ↦ hnone
    refine (Table.wellFormed_update (Q := fun _ ↦ True) (R := fun _ ↦ True) ?_ hd.root hfree
      hupdate).1
    intro origin t t' a ht hfree hplace
    refine ⟨?_, True.intro, True.intro⟩
    split at hplace
    · split at hplace
      · rename_i hnone
        obtain rfl : t ++ [_] = t' := by simpa using hplace
        exact ht.append hnone (Table.wellFormed_tables_iff.2 ⟨by simp, hd.current⟩)
      · rename_i before last hfind
        obtain rfl : t.replace _ _ = t' := by simpa using hplace
        obtain ⟨hbefore, hlast⟩ := Table.wellFormed_tables_iff.1 (ht.of_find? hfind)
        refine ht.replace (Table.wellFormed_tables_iff.2 ⟨fun t ht ↦ ?_, hd.current⟩)
        rcases List.mem_append.1 ht with ht | ht
        · exact hbefore t ht
        · exact List.mem_singleton.1 ht ▸ hlast
      · cases hplace
    · rename_i harray
      obtain rfl : t ++ [_] = t' := by simpa using hplace
      have hnone : t.find? header.key = none := hfree (by simpa using harray)
      exact ht.append hnone (Table.wellFormed_table_iff.2 hd.current)

/-- **A header leaves its place free**: what stands there is refused, or taken out to be gone on
with. -/
theorem startTable (hd : d.WellFormed) {header : Header} (h : d.startTable header = .ok d') :
    d'.WellFormed := by
  obtain ⟨root, hroot, h⟩ := bind_eq_ok_iff.1 h
  have hclosed : root.WellFormed := hd.close hroot
  split at h
  · rename_i harray
    obtain rfl : ⟨root, [], some header⟩ = d' := by simpa using h
    refine ⟨hclosed, Table.wellFormed_nil, fun h' heq hnot ↦ ?_⟩
    obtain rfl : header = h' := Option.some.inj heq
    rw [harray] at hnot
    cases hnot
  · obtain ⟨⟨new, current⟩, hupdate, h⟩ := bind_eq_ok_iff.1 h
    obtain rfl : ⟨new, current, some header⟩ = d' := by simpa using h
    obtain ⟨hnew, hfree, hcurrent⟩ : new.WellFormed ∧
        Table.Reached (fun t ↦ t.find? header.key = none) header.path new ∧
        current.WellFormed := by
      refine Table.wellFormed_update (P := fun _ ↦ True) (R := Table.WellFormed) ?_ hclosed
        (Table.reached_of_forall (fun _ ↦ True.intro) _ _) hupdate
      intro origin t t' a ht _ hout
      split at hout
      · rename_i hnone
        obtain ⟨rfl, rfl⟩ : t = t' ∧ [] = a := by simpa using hout
        exact ⟨ht, hnone, Table.wellFormed_nil⟩
      · rename_i entries hfind
        obtain ⟨rfl, rfl⟩ : t.erase header.key = t' ∧ entries = a := by simpa using hout
        exact ⟨ht.erase _, Table.find?_erase _ _, Table.wellFormed_table_iff.1 (ht.of_find? hfind)⟩
      · cases hout
    refine ⟨hnew, hcurrent, fun h' heq _ ↦ ?_⟩
    obtain rfl : header = h' := Option.some.inj heq
    exact hfree

theorem insert (hd : d.WellFormed) {path : List String} {key : String} {v : Value}
    (hv : v.WellFormed) (h : d.insert path key v = .ok d') : d'.WellFormed := by
  obtain ⟨current, hcurrent, h⟩ := bind_eq_ok_iff.1 h
  obtain rfl : { d with current } = d' := by simpa using h
  exact ⟨hd.root, hd.current.insert hv hcurrent, hd.free⟩

end Draft.WellFormed

/-! ### Values -/

/-- Whatever the reader answers is well-formed. -/
def ReadsWellFormed (value : List Char → TakenValue) : Prop :=
  ∀ cs v r, value cs = .ok (v, r) → v.WellFormed

theorem wellFormed_of_intValue {i : Int} {v : Value} (h : intValue i = .ok v) : v.WellFormed := by
  rw [intValue] at h
  split at h <;> cases h
  trivial

theorem wellFormed_of_readInteger? {cs : List Char} {v : Value}
    (h : readInteger? cs = some (.ok v)) : v.WellFormed := by
  unfold readInteger? baseInteger? at h
  split at h <;>
    · obtain ⟨n, -, hn⟩ := Option.map_eq_some_iff.1 h
      exact wellFormed_of_intValue hn

theorem wellFormed_of_readFloat? {cs : List Char} {v : Value}
    (h : readFloat? cs = some (.ok v)) : v.WellFormed := by
  unfold readFloat? at h
  split at h
  · cases h
    trivial
  · cases h
    trivial
  · obtain ⟨d, -, hd⟩ := Option.map_eq_some_iff.1 h
    dsimp only at hd
    split at hd <;> cases hd
    trivial

theorem wellFormed_of_readScalar {cs : List Char} {v : Value} (h : readScalar cs = .ok v) :
    v.WellFormed := by
  unfold readScalar at h
  split at h
  · cases h
    trivial
  · split at h
    · cases h
      trivial
    · split at h
      · rename_i integer hinteger
        exact wellFormed_of_readInteger? (h ▸ hinteger)
      · split at h
        · rename_i float hfloat
          exact wellFormed_of_readFloat? (h ▸ hfloat)
        · split at h <;> cases h
          trivial

section Nested

variable {value : List Char → TakenValue} {cs r : List Char} {v : Value}

theorem wellFormed_of_takeItems (hvalue : ReadsWellFormed value) {items : List Value}
    (hitems : ∀ v ∈ items, v.WellFormed) (h : takeItems value items cs = .ok (v, r)) :
    v.WellFormed := by
  induction items, cs using takeItems.induct with
  | case1 items cs rest hskip =>
    rw [takeItems, hskip] at h
    obtain ⟨rfl, -⟩ : .sequence items = v ∧ rest = r := by simpa using h
    exact Value.wellFormedItems_iff.2 hitems
  | case2 items cs hskip ih =>
    rw [takeItems] at h
    split at h
    · rename_i rest hclose
      exact (hskip rest hclose).elim
    · obtain ⟨⟨item, rest⟩, hitem, h⟩ := bind_eq_ok_iff.1 h
      have hitems' : ∀ v ∈ items ++ [item], v.WellFormed :=
        List.forall_mem_append.2 ⟨hitems, List.forall_mem_singleton.2 (hvalue _ _ _ hitem)⟩
      dsimp only at h
      split at h
      · obtain ⟨rfl, -⟩ : .sequence (items ++ [item]) = v ∧ _ = r := by simpa using h
        exact Value.wellFormedItems_iff.2 hitems'
      · split at h
        · rename_i hlt
          exact ih item _ hlt hitems' h
        · cases h
      · cases h

theorem wellFormed_of_takeEntry (hvalue : ReadsWellFormed value) {key : Key}
    (h : takeEntry value cs = .ok ((key, v), r)) : v.WellFormed := by
  obtain ⟨⟨key', cs'⟩, -, h⟩ := bind_eq_ok_iff.1 h
  dsimp only at h
  split at h
  · obtain ⟨⟨w, rest⟩, hw, h⟩ := bind_eq_ok_iff.1 h
    obtain ⟨⟨-, rfl⟩, -⟩ : (key' = key ∧ w = v) ∧ rest = r := by simpa using h
    exact hvalue _ _ _ hw
  · cases h

theorem wellFormed_of_takeInline (hvalue : ReadsWellFormed value) {t : Table} (ht : t.WellFormed)
    (h : takeInline value t cs = .ok (v, r)) : v.WellFormed := by
  induction t, cs using takeInline.induct with
  | case1 t cs rest hskip =>
    rw [takeInline, hskip] at h
    obtain ⟨rfl, -⟩ : closeInline t = v ∧ rest = r := by simpa using h
    exact ht
  | case2 t cs hskip ih =>
    rw [takeInline] at h
    split at h
    · rename_i rest hclose
      exact (hskip rest hclose).elim
    · obtain ⟨⟨⟨key, w⟩, rest⟩, hentry, h⟩ := bind_eq_ok_iff.1 h
      obtain ⟨t', hinsert, h⟩ := bind_eq_ok_iff.1 h
      have ht' : t'.WellFormed := ht.insert (wellFormed_of_takeEntry hvalue hentry) hinsert
      split at h
      · obtain ⟨rfl, -⟩ : closeInline t' = v ∧ _ = r := by simpa using h
        exact ht'
      · split at h
        · rename_i hlt
          exact ih t' _ hlt ht' h
        · cases h
      · cases h

end Nested

theorem readsWellFormed_takeValueWith {nested : Option (List Char → TakenValue)}
    (hnested : ∀ value ∈ nested, ReadsWellFormed value) :
    ReadsWellFormed (takeValueWith nested) := by
  intro cs v r h
  unfold takeValueWith at h
  split at h
  · rename_i taken htaken
    obtain ⟨⟨text, rest⟩, -, heq⟩ := map_eq_ok_iff.1 h
    obtain ⟨rfl, -⟩ := Prod.mk.inj heq
    trivial
  · split at h
    · exact wellFormed_of_takeItems (hnested _ rfl) (by simp) h
    · exact wellFormed_of_takeInline (hnested _ rfl) (Table.wellFormed_nil) h
    · cases h
    · cases h
    · obtain ⟨w, hw, h⟩ := bind_eq_ok_iff.1 h
      obtain ⟨rfl, -⟩ : w = v ∧ _ = r := by simpa using h
      exact wellFormed_of_readScalar hw

theorem readsWellFormed_takeValue (depth : Nat) : ReadsWellFormed (takeValue depth) := by
  induction depth with
  | zero => exact readsWellFormed_takeValueWith (by simp)
  | succ depth ih =>
    refine readsWellFormed_takeValueWith fun value hvalue ↦ ?_
    obtain rfl := Option.some.inj hvalue
    exact ih

/-! ### Statements -/

/-- The value that a statement gives to a key is well-formed. -/
theorem wellFormed_of_takeStatement {cs r : List Char} {key : Key} {v : Value}
    (h : takeStatement cs = .ok (.entry key v, r)) : v.WellFormed := by
  rw [takeStatement.eq_def] at h
  split at h
  · rw [takeHeader.eq_def] at h
    split at h
    all_goals
      obtain ⟨⟨name, rest⟩, -, h⟩ := bind_eq_ok_iff.1 h
      dsimp only at h
      split at h <;> cases h
  · obtain ⟨⟨⟨key', w⟩, rest⟩, hentry, h⟩ := bind_eq_ok_iff.1 h
    obtain ⟨⟨-, rfl⟩, -⟩ : (key' = key ∧ w = v) ∧ rest = r := by simpa using h
    exact wellFormed_of_takeEntry (readsWellFormed_takeValue maxDepth) hentry

namespace Draft.WellFormed

variable {d d' : Draft}

/-- **One statement** keeps the document under construction well-formed. -/
theorem add (hd : d.WellFormed) {statement : Statement}
    (hvalue : ∀ key v, statement = .entry key v → v.WellFormed)
    (h : d.add statement = .ok d') : d'.WellFormed := by
  cases statement with
  | header header => exact hd.startTable h
  | entry key v => exact hd.insert (hvalue key v rfl) h

theorem extend (hd : d.WellFormed) {cs : List Char} (h : d.extend cs = .ok d') :
    d'.WellFormed := by
  induction d, cs using Draft.extend.induct with
  | case1 d cs hskip =>
    rw [Draft.extend, hskip] at h
    obtain rfl : d = d' := by simpa using h
    exact hd
  | case2 d cs hskip ih =>
    rw [Draft.extend] at h
    split at h
    · rename_i hempty
      exact (hskip hempty).elim
    · obtain ⟨⟨statement, rest⟩, hstatement, h⟩ := bind_eq_ok_iff.1 h
      obtain ⟨next, hnext, h⟩ := bind_eq_ok_iff.1 h
      have hnext' : next.WellFormed :=
        hd.add (fun key v heq ↦ wellFormed_of_takeStatement (heq ▸ hstatement)) hnext
      split at h
      · obtain rfl : next = d' := by simpa using h
        exact hnext'
      · split at h
        · split at h
          · rename_i hlt
            exact ih next _ hlt hnext' h
          · cases h
        · cases h

end Draft.WellFormed

/-- **The tree of a TOML text is well-formed.** -/
theorem wellFormed_of_read {text : String} {t : Tree} (h : read text = .ok t) : t.WellFormed := by
  obtain ⟨draft, hdraft, h⟩ := bind_eq_ok_iff.1 h
  obtain ⟨root, hroot, h⟩ := bind_eq_ok_iff.1 h
  obtain rfl : entryValues root = t := by simpa using h
  exact (Draft.WellFormed.empty.extend hdraft).close hroot

end LayeredConfig.Toml
