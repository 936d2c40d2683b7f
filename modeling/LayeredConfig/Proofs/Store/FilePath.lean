import LayeredConfig.Store.FilePath
import Mathlib.Data.List.Basic
import Mathlib.Data.List.Induction

/-!
# The place that a folded path leads to

Folding a path looks at no file. Here it is compared with a walk: from a directory, a name leads
down and two dots lead up, and a root starts again. A place is the list of names on the way to it
from the root, above which there is nothing.

What a walk does and what folding does both come down to a `Component.Trail`: some directories up,
and from there down along names. The walk takes the trail from the place where it starts
(`Component.walkFrom_eq_lead`). Folding keeps the names of the trail, but of the directories up only
whether their number is odd (`Component.normalize_eq_folded`), since two dots that were kept are
taken away by the next two.

So a path leads to the same place once it is folded if it begins at the root, or never leads more
than one directory above its start, and no other path does (`FilePath.normalize_keeps_place`). A
path of two directories up shows that the condition is needed (`FilePath.normalize_forgets_ups`).

The text of a folded path is read as the components that it was put together from
(`FilePath.components_normalize`): all of them are plain, which is to say that they can be told from
their texts. There is nothing left to fold in them, a dot nowhere and two dots at the front at most,
and just such components are the ones that folding does not change
(`Component.normalize_eq_self_iff`). So a folded path is folded to itself
(`FilePath.normalize_normalize`).
-/

namespace LayeredConfig

namespace Component

/-! ### Components and their texts -/

/-- The component can stand between two separators: its text is read as the component again. -/
def IsPlain (c : Component) : Prop :=
  ofPiece? c.text = some c ∧ '/' ∉ c.text.toList

variable {c : Component} {cs r : List Component}

theorem isPlain_parent : IsPlain .parent :=
  ⟨by decide, by decide⟩

theorem isPlain_of_ofPiece? {s : String} (h : ofPiece? s = some c) (hs : '/' ∉ s.toList) :
    c.IsPlain := by
  have htext : c.text = s := by
    unfold ofPiece? at h
    split at h
    · cases h
    · split at h
      · rename_i hparent
        rw [← Option.some.inj h, hparent]
        rfl
      · rw [← Option.some.inj h]
        rfl
  rw [IsPlain, htext]
  exact ⟨h, hs⟩

theorem IsPlain.text_ne (h : c.IsPlain) {s : String} (hs : ofPiece? s = none) : c.text ≠ s := by
  intro htext
  have hpiece := h.1
  rw [htext, hs] at hpiece
  cases hpiece

theorem IsPlain.ne_root (h : c.IsPlain) : c ≠ .root := by
  rintro rfl
  exact h.text_ne (by decide) rfl

theorem root_not_mem_of_isPlain (h : ∀ c ∈ cs, c.IsPlain) : .root ∉ cs :=
  fun hroot ↦ (h _ hroot).ne_root rfl

theorem filterMap_map_text (h : ∀ c ∈ cs, c.IsPlain) : (cs.map text).filterMap ofPiece? = cs := by
  rw [List.filterMap_map]
  exact (List.filterMap_congr fun c hc ↦ (h c hc).1).trans List.filterMap_some

/-- Plain components are read back from between separators. -/
theorem filterMap_split_joinWith (h : ∀ c ∈ cs, c.IsPlain) :
    (Text.split '/' (Text.joinWith "/" (cs.map text))).filterMap ofPiece? = cs := by
  by_cases hne : cs = []
  · subst hne
    decide
  · have hsplit : Text.split '/' (Text.joinWith "/" (cs.map text)) = cs.map text :=
      Text.split_joinWith (by simpa using hne) (by simpa using fun c hc ↦ (h c hc).2)
    rw [hsplit, filterMap_map_text h]

/-! ### Walking -/

/-- The directory that one component leads to. -/
def goFrom (place : List String) : Component → List String
  | .root => []
  | .current => place
  | .parent => place.dropLast
  | .name s => place ++ [s]

/-- The place that components lead to, one after another. -/
def walkFrom (place : List String) (cs : List Component) : List String :=
  cs.foldl goFrom place

/-- Where components lead that have no root: some directories up, and from there down. -/
structure Trail where
  /-- The number of directories up. -/
  ups : Nat
  /-- The names on the way down. -/
  names : List String

namespace Trail

/-- The trail with one more component. Two dots take a name back before they lead up. -/
def next (t : Trail) : Component → Trail
  | .parent => if t.names = [] then ⟨t.ups + 1, []⟩ else ⟨t.ups, t.names.dropLast⟩
  | .name s => ⟨t.ups, t.names ++ [s]⟩
  | .root | .current => t

/-- The trail of components. -/
def ofComponents (cs : List Component) : Trail :=
  cs.foldl next ⟨0, []⟩

/-- The place that a trail leads to. -/
def lead (t : Trail) (place : List String) : List String :=
  place.take (place.length - t.ups) ++ t.names

variable {t : Trail} {c : Component} {cs : List Component}

theorem goFrom_lead (t : Trail) (place : List String) (hc : c ≠ .root) :
    goFrom (t.lead place) c = (t.next c).lead place := by
  cases c with
  | root => exact absurd rfl hc
  | current => rfl
  | name s => rw [goFrom, lead, next, lead, List.append_assoc]
  | parent =>
    rw [goFrom, next, lead]
    split
    · rename_i hnames
      rw [hnames, List.append_nil, lead, List.append_nil, List.dropLast_eq_take, List.take_take,
        List.length_take]
      have hlength : min (min (place.length - t.ups) place.length - 1) (place.length - t.ups) =
          place.length - (t.ups + 1) := by omega
      rw [hlength]
    · rename_i hnames
      rw [List.dropLast_append_of_ne_nil hnames, lead]

theorem walkFrom_lead (t : Trail) (place : List String) (hroot : .root ∉ cs) :
    walkFrom (t.lead place) cs = (cs.foldl next t).lead place := by
  induction cs generalizing t with
  | nil => rfl
  | cons c r ih =>
    have hc : c ≠ .root := fun hc ↦ hroot (hc ▸ List.mem_cons_self)
    rw [walkFrom, List.foldl_cons, goFrom_lead t place hc]
    exact ih _ fun hr ↦ hroot (List.mem_cons_of_mem _ hr)

end Trail

/-- **A walk takes the trail of its components.** -/
theorem walkFrom_eq_lead (place : List String) (hroot : .root ∉ cs) :
    walkFrom place cs = (Trail.ofComponents cs).lead place := by
  have hstart : Trail.lead ⟨0, []⟩ place = place := by simp [Trail.lead]
  have hwalk := Trail.walkFrom_lead ⟨0, []⟩ place hroot
  rwa [hstart] at hwalk

/-! ### Folding -/

/-- The components of a folded trail: of the directories up only an odd one is left. -/
def Trail.folded (t : Trail) : List Component :=
  List.replicate (t.ups % 2) .parent ++ t.names.map .name

theorem fold_folded (t : Trail) {base : List Component} (hbase : base = [] ∨ base = [.root])
    (hc : c ≠ .root) :
    fold (t.folded.reverse ++ base) c = (t.next c).folded.reverse ++ base := by
  cases c with
  | root => exact absurd rfl hc
  | current => rfl
  | name s => simp [fold, Trail.next, Trail.folded]
  | parent =>
    rw [Trail.next]
    split
    · rename_i hnames
      rcases Nat.mod_two_eq_zero_or_one t.ups with hups | hups
      · have hnext : (t.ups + 1) % 2 = 1 := by omega
        rcases hbase with rfl | rfl <;> simp [Trail.folded, hnames, hups, hnext, fold]
      · have hnext : (t.ups + 1) % 2 = 0 := by omega
        simp [Trail.folded, hnames, hups, hnext, fold]
    · rename_i hnames
      obtain ⟨init, s, hsplit⟩ : ∃ init s, t.names = init ++ [s] :=
        ⟨_, _, (List.dropLast_concat_getLast hnames).symm⟩
      simp [Trail.folded, hsplit, fold]

theorem foldl_fold_folded (t : Trail) {base : List Component} (hbase : base = [] ∨ base = [.root])
    (hroot : .root ∉ cs) :
    cs.foldl fold (t.folded.reverse ++ base) = (cs.foldl Trail.next t).folded.reverse ++ base := by
  induction cs generalizing t with
  | nil => rfl
  | cons c r ih =>
    have hc : c ≠ .root := fun hc ↦ hroot (hc ▸ List.mem_cons_self)
    rw [List.foldl_cons, fold_folded t hbase hc, List.foldl_cons]
    exact ih _ fun hr ↦ hroot (List.mem_cons_of_mem _ hr)

/-- **Folding keeps the names of a trail, and of its directories up an odd one.** -/
theorem normalize_eq_folded (hroot : .root ∉ cs) :
    normalize cs = (Trail.ofComponents cs).folded := by
  have hfold := foldl_fold_folded ⟨0, []⟩ (Or.inl rfl) hroot
  rw [List.append_nil, List.append_nil] at hfold
  rw [normalize, ← List.reverse_reverse (Trail.folded _)]
  exact congrArg _ hfold

/-- And behind a root it does the same. -/
theorem normalize_root_eq_folded (hroot : .root ∉ cs) :
    normalize (.root :: cs) = .root :: (Trail.ofComponents cs).folded := by
  have hfold := foldl_fold_folded ⟨0, []⟩ (Or.inr rfl) hroot
  rw [normalize, List.foldl_cons]
  refine (congrArg List.reverse hfold).trans ?_
  simp [Trail.ofComponents]

namespace Trail

theorem root_not_mem_folded (t : Trail) : .root ∉ t.folded := by
  simp [Trail.folded]

/-- The trail of what is left of a trail. -/
theorem ofComponents_folded (t : Trail) :
    ofComponents t.folded = ⟨t.ups % 2, t.names⟩ := by
  have hnames : ∀ (names : List String) (start : Trail),
      (names.map Component.name).foldl next start = ⟨start.ups, start.names ++ names⟩ := by
    intro names
    induction names with
    | nil => simp
    | cons s r ih => simp [ih, next]
  rw [ofComponents, folded, List.foldl_append, hnames]
  rcases Nat.mod_two_eq_zero_or_one t.ups with hups | hups <;> simp [hups, next]

/-- The names of a trail are names of its components. -/
theorem name_mem {s : String} (hs : s ∈ (ofComponents cs).names) : .name s ∈ cs := by
  induction cs using List.reverseRecOn with
  | nil => cases hs
  | append_singleton r c ih =>
    rw [ofComponents, List.foldl_append, List.foldl_cons, List.foldl_nil] at hs
    rw [List.mem_append, List.mem_singleton]
    cases c with
    | root | current => exact Or.inl (ih hs)
    | name s' =>
      rcases List.mem_append.1 hs with hs | hs
      · exact Or.inl (ih hs)
      · exact Or.inr (by rw [List.mem_singleton.1 hs])
    | parent =>
      rw [next] at hs
      split at hs
      · cases hs
      · exact Or.inl (ih (List.dropLast_subset _ hs))

/-- There are no more directories up than pairs of dots. -/
theorem ups_le (cs : List Component) : (ofComponents cs).ups ≤ cs.count .parent := by
  induction cs using List.reverseRecOn with
  | nil => exact Nat.le_refl 0
  | append_singleton r c ih =>
    rw [ofComponents, List.foldl_append, List.foldl_cons, List.foldl_nil, List.count_append]
    cases c with
    | root | current | name _ => exact Nat.le_add_right_of_le ih
    | parent =>
      rw [List.count_singleton_self, next]
      split
      · exact Nat.succ_le_succ ih
      · exact Nat.le_add_right_of_le ih

/-- From deep enough, each number of directories up leads to a place of its own. -/
theorem ups_eq_of_lead {m n : Nat} {names place : List String} (hm : m ≤ place.length)
    (hn : n ≤ place.length) (h : lead ⟨m, names⟩ place = lead ⟨n, names⟩ place) : m = n := by
  have hlength := congrArg List.length (List.append_cancel_right h)
  simp only [List.length_take] at hlength
  omega

/-- What is left of the trail of plain components is plain. -/
theorem isPlain_of_mem_folded (hnames : ∀ s, .name s ∈ cs → (name s).IsPlain)
    (hc : c ∈ (ofComponents cs).folded) : c.IsPlain := by
  rcases List.mem_append.1 hc with hc | hc
  · rw [(List.mem_replicate.1 hc).2]
    exact isPlain_parent
  · obtain ⟨s, hs, rfl⟩ := List.mem_map.1 hc
    exact hnames s (name_mem hs)

end Trail

/-! ### Folding keeps the place -/

/-- Components that begin at the root, or never lead more than one directory above their start. -/
def IsFoldable (cs : List Component) : Prop :=
  cs.head? = some .root ∨ (Trail.ofComponents cs).ups ≤ 1

instance (cs : List Component) : Decidable (IsFoldable cs) :=
  inferInstanceAs (Decidable (_ ∨ _))

theorem walkFrom_root (place : List String) (hroot : .root ∉ r) :
    walkFrom place (.root :: r) = (Trail.ofComponents r).names := by
  have hwalk : walkFrom place (.root :: r) = walkFrom [] r := rfl
  rw [hwalk, walkFrom_eq_lead [] hroot, Trail.lead, List.take_nil, List.nil_append]

/-- From the root there is no way up, and folding keeps the names. -/
theorem walkFrom_normalize_root (place : List String) (hroot : .root ∉ r) :
    walkFrom place (normalize (.root :: r)) = walkFrom place (.root :: r) := by
  rw [normalize_root_eq_folded hroot, walkFrom_root place (Trail.root_not_mem_folded _),
    walkFrom_root place hroot, Trail.ofComponents_folded]

/-- Without a root, folding keeps the place of a walk if it keeps the directories up. -/
theorem walkFrom_normalize_relative (place : List String) (hroot : .root ∉ cs) :
    walkFrom place (normalize cs) =
      Trail.lead ⟨(Trail.ofComponents cs).ups % 2, (Trail.ofComponents cs).names⟩ place := by
  rw [normalize_eq_folded hroot, walkFrom_eq_lead place (Trail.root_not_mem_folded _),
    Trail.ofComponents_folded]

/-- Where a root stands at the beginning at most, it does or it does not. -/
theorem root_cases (hroot : .root ∉ cs.tail) : .root ∉ cs ∨ ∃ r, cs = .root :: r ∧ .root ∉ r := by
  cases cs with
  | nil => exact Or.inl List.not_mem_nil
  | cons c r =>
    by_cases hc : c = .root
    · exact Or.inr ⟨r, by rw [hc], hroot⟩
    · rw [List.mem_cons, not_or]
      exact Or.inl ⟨Ne.symm hc, hroot⟩

/-- **Foldable components lead to the same place once they are folded.** -/
theorem walkFrom_normalize (place : List String) (hroot : .root ∉ cs.tail) (h : IsFoldable cs) :
    walkFrom place (normalize cs) = walkFrom place cs := by
  rcases root_cases hroot with hmem | ⟨r, rfl, hmem⟩
  · have hups : (Trail.ofComponents cs).ups ≤ 1 :=
      h.resolve_left fun hhead ↦ hmem (List.mem_of_mem_head? hhead)
    rw [walkFrom_normalize_relative place hmem, walkFrom_eq_lead place hmem,
      Nat.mod_eq_of_lt (Nat.lt_succ_of_le hups)]
  · exact walkFrom_normalize_root place hmem

/-- **No others do**: from deep enough, two directories up are missed. -/
theorem isFoldable_of_walkFrom_normalize {place : List String} (hroot : .root ∉ cs.tail)
    (hplace : cs.count .parent ≤ place.length)
    (h : walkFrom place (normalize cs) = walkFrom place cs) : IsFoldable cs := by
  rcases root_cases hroot with hmem | ⟨r, rfl, -⟩
  · rw [walkFrom_normalize_relative place hmem, walkFrom_eq_lead place hmem] at h
    have hups := Nat.le_trans (Trail.ups_le cs) hplace
    have hodd := Nat.le_trans (Nat.mod_le (Trail.ofComponents cs).ups 2) hups
    have hkept := Trail.ups_eq_of_lead hodd hups h
    exact Or.inr (by omega)
  · exact Or.inl rfl

/-! ### Folded components -/

/-- The components below the root, if there is a root. -/
def belowRoot : List Component → List Component
  | .root :: r => r
  | cs => cs

/-- Components with nothing left to fold. -/
structure IsFolded (cs : List Component) : Prop where
  /-- There is no dot. -/
  current_not_mem : .current ∉ cs
  /-- Two dots stand before all else below the root, or nowhere. -/
  parent_not_mem : .parent ∉ (belowRoot cs).tail

theorem belowRoot_of_not_mem (hroot : .root ∉ cs) : belowRoot cs = cs := by
  cases cs with
  | nil => rfl
  | cons c r =>
    refine belowRoot.eq_2 _ fun r' hr' ↦ hroot ?_
    rw [hr']
    exact List.mem_cons_self

theorem Trail.current_not_mem_folded (t : Trail) : .current ∉ t.folded := by
  simp [Trail.folded]

theorem Trail.parent_not_mem_tail_folded (t : Trail) : .parent ∉ t.folded.tail := by
  have hnames : .parent ∉ t.names.map Component.name := by simp
  rcases Nat.mod_two_eq_zero_or_one t.ups with hups | hups
  · rw [Trail.folded, hups]
    exact fun hmem ↦ hnames (List.mem_of_mem_tail hmem)
  · rw [Trail.folded, hups]
    exact hnames

/-- **Folding leaves nothing to fold.** -/
theorem isFolded_normalize (hroot : .root ∉ cs.tail) : IsFolded (normalize cs) := by
  rcases root_cases hroot with hmem | ⟨r, rfl, hmem⟩
  · rw [normalize_eq_folded hmem]
    refine ⟨Trail.current_not_mem_folded _, ?_⟩
    rw [belowRoot_of_not_mem (Trail.root_not_mem_folded _)]
    exact Trail.parent_not_mem_tail_folded _
  · rw [normalize_root_eq_folded hmem]
    exact ⟨List.not_mem_cons_of_ne_of_not_mem nofun (Trail.current_not_mem_folded _),
      Trail.parent_not_mem_tail_folded _⟩

/-- A component is put on top of what is there, unless it is a dot or takes something away. -/
theorem fold_eq_cons {acc : List Component} (hcurrent : .current ≠ c)
    (hparent : .parent = c → acc = [] ∨ acc = [.root]) : fold acc c = c :: acc := by
  cases c with
  | root => rfl
  | current => exact absurd rfl hcurrent
  | parent => rcases hparent rfl with rfl | rfl <;> rfl
  | name s => rfl

theorem foldl_fold_of_not_mem {acc : List Component} (hcurrent : .current ∉ cs)
    (hparent : .parent ∉ cs) : cs.foldl fold acc = cs.reverse ++ acc := by
  induction cs generalizing acc with
  | nil => rfl
  | cons c r ih =>
    rw [List.mem_cons, not_or] at hcurrent hparent
    have hc : fold acc c = c :: acc := fold_eq_cons hcurrent.1 fun h ↦ absurd h hparent.1
    rw [List.foldl_cons, hc, ih hcurrent.2 hparent.2, List.reverse_cons, List.append_assoc,
      List.singleton_append]

/-- Two dots at the front find nothing to take away. -/
theorem foldl_fold_of_not_mem_tail {base : List Component} (hbase : base = [] ∨ base = [.root])
    (hcurrent : .current ∉ cs) (hparent : .parent ∉ cs.tail) :
    cs.foldl fold base = cs.reverse ++ base := by
  cases cs with
  | nil => rfl
  | cons c r =>
    rw [List.mem_cons, not_or] at hcurrent
    have hc : fold base c = c :: base := fold_eq_cons hcurrent.1 fun _ ↦ hbase
    rw [List.foldl_cons, hc, foldl_fold_of_not_mem hcurrent.2 hparent, List.reverse_cons,
      List.append_assoc, List.singleton_append]

/-- **Folding changes nothing exactly where nothing is left to fold.** -/
theorem normalize_eq_self_iff (hroot : .root ∉ cs.tail) : normalize cs = cs ↔ IsFolded cs := by
  refine ⟨fun h ↦ h ▸ isFolded_normalize hroot, fun h ↦ ?_⟩
  rcases root_cases hroot with hmem | ⟨r, rfl, -⟩
  · have hparent := h.parent_not_mem
    rw [belowRoot_of_not_mem hmem] at hparent
    rw [normalize, foldl_fold_of_not_mem_tail (Or.inl rfl) h.current_not_mem hparent,
      List.append_nil, List.reverse_reverse]
  · have hcurrent := List.not_mem_of_not_mem_cons h.current_not_mem
    have hbelow : (Component.root :: r).foldl fold [] = r.foldl fold [.root] := rfl
    rw [normalize, hbelow, foldl_fold_of_not_mem_tail (Or.inr rfl) hcurrent h.parent_not_mem,
      List.reverse_append, List.reverse_reverse]
    rfl

end Component

namespace FilePath

variable {cs r : List Component} {p : FilePath}

theorem head?_split_of_isAbsolute (h : p.isAbsolute = true) :
    (Text.split '/' p.text).head? = some "" := by
  rw [isAbsolute, decide_eq_true_eq, List.head?_eq_some_iff] at h
  obtain ⟨cs, hcs⟩ := h
  rw [Text.split, hcs, Text.splitOn, if_pos rfl]
  rfl

/-- The components of a path: after a root or a dot at most, components that are plain. -/
theorem components_eq (p : FilePath) : ∃ r : List Component, (∀ c ∈ r, c.IsPlain) ∧
    (p.isAbsolute = true ∧ p.components = .root :: r ∨
      p.isAbsolute = false ∧ (p.components = .current :: r ∨ p.components = r)) := by
  refine ⟨(Text.split '/' p.text).filterMap Component.ofPiece?, fun c hc ↦ ?_, ?_⟩
  · obtain ⟨s, hs, hc⟩ := List.mem_filterMap.1 hc
    exact Component.isPlain_of_ofPiece? hc (Text.not_mem_of_mem_split hs)
  · rw [components]
    by_cases habsolute : p.isAbsolute = true
    · exact Or.inl ⟨habsolute, if_pos habsolute⟩
    · refine Or.inr ⟨Bool.eq_false_iff.2 habsolute, ?_⟩
      rw [if_neg habsolute]
      split
      · exact Or.inl rfl
      · exact Or.inr rfl

/-- A path that was put together from plain components has their texts as its pieces. -/
theorem split_ofComponents (hne : cs ≠ []) (h : ∀ c ∈ cs, c.IsPlain) :
    Text.split '/' (ofComponents cs).text = cs.map Component.text := by
  have htext : ofComponents cs = ⟨Text.joinWith "/" (cs.map Component.text)⟩ := by
    refine ofComponents.eq_2 _ fun r hr ↦ ?_
    subst hr
    exact (h _ List.mem_cons_self).ne_root rfl
  rw [htext]
  exact Text.split_joinWith (by simpa using hne) (by simpa using fun c hc ↦ (h c hc).2)

/-- **A path that was put together from plain components has these components.** -/
theorem components_ofComponents (h : ∀ c ∈ cs, c.IsPlain) : (ofComponents cs).components = cs := by
  cases cs with
  | nil => decide
  | cons c r =>
    have hsplit := split_ofComponents (List.cons_ne_nil c r) h
    -- The first piece is neither empty nor a dot.
    have hhead : ∀ s, Component.ofPiece? s = none →
        (Text.split '/' (ofComponents (c :: r)).text).head? ≠ some s := by
      intro s hs hhead
      rw [hsplit] at hhead
      exact (h c List.mem_cons_self).text_ne hs (Option.some.inj hhead)
    have hrelative : ¬(ofComponents (c :: r)).isAbsolute = true := fun habsolute ↦
      hhead "" rfl (head?_split_of_isAbsolute habsolute)
    rw [components, if_neg hrelative, if_neg (hhead "." rfl), hsplit,
      Component.filterMap_map_text h]

/-- And so it is behind a root. -/
theorem components_ofComponents_root (h : ∀ c ∈ r, c.IsPlain) :
    (ofComponents (.root :: r)).components = .root :: r := by
  have habsolute : (ofComponents (.root :: r)).isAbsolute = true := by
    rw [isAbsolute, ofComponents, String.toList_append]
    rfl
  have hsplit : Text.split '/' (ofComponents (.root :: r)).text =
      "" :: Text.split '/' (Text.joinWith "/" (r.map Component.text)) := by
    rw [ofComponents, Text.split, String.toList_append]
    rfl
  have hnamed := Component.filterMap_split_joinWith h
  rw [components, if_pos habsolute, hsplit, List.filterMap_cons_none rfl, hnamed]

/-! ### Folded paths -/

/-- The directory or file that a path leads to from a directory. -/
def walk (place : List String) (p : FilePath) : List String :=
  Component.walkFrom place p.components

/-- A root stands at the beginning of a path only. -/
theorem root_not_mem_tail_components (p : FilePath) : .root ∉ p.components.tail := by
  obtain ⟨r, hplain, ⟨-, hr⟩ | ⟨-, hr | hr⟩⟩ := components_eq p
  · rw [hr]
    exact Component.root_not_mem_of_isPlain hplain
  · rw [hr]
    exact Component.root_not_mem_of_isPlain hplain
  · rw [hr]
    exact fun hroot ↦ Component.root_not_mem_of_isPlain hplain (List.mem_of_mem_tail hroot)

theorem isPlain_of_name_mem {s : String} (h : .name s ∈ p.components) :
    (Component.name s).IsPlain := by
  obtain ⟨r, hplain, ⟨-, hr⟩ | ⟨-, hr | hr⟩⟩ := components_eq p
  · rw [hr, List.mem_cons] at h
    exact hplain _ (h.resolve_left nofun)
  · rw [hr, List.mem_cons] at h
    exact hplain _ (h.resolve_left nofun)
  · rw [hr] at h
    exact hplain _ h

/-- **Folded components are the components of the path that they are put together to.** -/
theorem components_ofComponents_normalize (hroot : .root ∉ cs.tail)
    (hnames : ∀ s, .name s ∈ cs → (Component.name s).IsPlain) :
    (ofComponents (Component.normalize cs)).components = Component.normalize cs := by
  rcases Component.root_cases hroot with hmem | ⟨r, rfl, hmem⟩
  · rw [Component.normalize_eq_folded hmem]
    exact components_ofComponents (fun _ ↦ Component.Trail.isPlain_of_mem_folded hnames)
  · rw [Component.normalize_root_eq_folded hmem]
    refine components_ofComponents_root fun _ ↦ Component.Trail.isPlain_of_mem_folded fun s hs ↦ ?_
    exact hnames s (List.mem_cons_of_mem _ hs)

/-- The components of a folded path. -/
theorem components_normalize (p : FilePath) :
    p.normalize.components = Component.normalize p.components :=
  components_ofComponents_normalize (root_not_mem_tail_components p) fun _ ↦ isPlain_of_name_mem

/-- Nothing is left to fold in a folded path. -/
theorem isFolded_components_normalize (p : FilePath) :
    Component.IsFolded p.normalize.components := by
  rw [components_normalize]
  exact Component.isFolded_normalize (root_not_mem_tail_components p)

/-- **Folding a path again changes nothing.** -/
theorem normalize_normalize (p : FilePath) : p.normalize.normalize = p.normalize := by
  have hfolded : Component.normalize p.normalize.components = p.normalize.components :=
    (Component.normalize_eq_self_iff (root_not_mem_tail_components _)).2
      (isFolded_components_normalize p)
  rw [normalize, hfolded, components_normalize, ← normalize]

/-- A path that begins at the root, or never leads more than one directory above its start. -/
def IsFoldable (p : FilePath) : Prop :=
  Component.IsFoldable p.components

instance (p : FilePath) : Decidable p.IsFoldable :=
  inferInstanceAs (Decidable (Component.IsFoldable _))

theorem walk_normalize (place : List String) (h : p.IsFoldable) :
    p.normalize.walk place = p.walk place := by
  rw [walk, components_normalize]
  exact Component.walkFrom_normalize place (root_not_mem_tail_components p) h

/-- **Folding keeps the place that a path leads to**, for foldable paths and for no others; so two
foldable paths that are folded to one path lead to one place, wherever they start. -/
theorem normalize_keeps_place (p : FilePath) :
    (p.IsFoldable ↔ ∀ place : List String, p.components.count .parent ≤ place.length →
      p.normalize.walk place = p.walk place) ∧
    ∀ q : FilePath, p.IsFoldable → q.IsFoldable → p.normalize = q.normalize →
      ∀ place, p.walk place = q.walk place := by
  refine ⟨⟨fun h place _ ↦ walk_normalize place h, fun h ↦ ?_⟩, fun q hp hq hpq place ↦ ?_⟩
  · have hdeep : p.components.count .parent ≤
        (List.replicate (p.components.count .parent) "").length := by
      simp
    have hkept := h _ hdeep
    rw [walk, components_normalize] at hkept
    exact Component.isFoldable_of_walkFrom_normalize (root_not_mem_tail_components p) hdeep hkept
  · rw [← walk_normalize place hp, hpq, walk_normalize place hq]

theorem normalize_keeps_place_shared :
    (⟨"conf/../../shared/./base.yaml"⟩ : FilePath).IsFoldable ∧
      (⟨"../shared/base.yaml"⟩ : FilePath).IsFoldable ∧
      (⟨"conf/../../shared/./base.yaml"⟩ : FilePath).normalize =
        (⟨"../shared/base.yaml"⟩ : FilePath).normalize ∧
      ∀ place, (⟨"conf/../../shared/./base.yaml"⟩ : FilePath).walk place =
        (⟨"../shared/base.yaml"⟩ : FilePath).walk place := by
  have hp : (⟨"conf/../../shared/./base.yaml"⟩ : FilePath).IsFoldable := by decide +kernel
  have hq : (⟨"../shared/base.yaml"⟩ : FilePath).IsFoldable := by decide +kernel
  have hpq : (⟨"conf/../../shared/./base.yaml"⟩ : FilePath).normalize =
      (⟨"../shared/base.yaml"⟩ : FilePath).normalize := by decide +kernel
  exact ⟨hp, hq, hpq, (normalize_keeps_place _).2 _ hp hq hpq⟩

/-- **Two directories up are forgotten**: the path `../../base.yaml` is folded to `base.yaml`. -/
theorem normalize_forgets_ups :
    ¬∀ (p : FilePath) (place : List String), p.components.count .parent ≤ place.length →
      p.normalize.walk place = p.walk place := by
  intro h
  have hkept := h ⟨"../../base.yaml"⟩ ["etc", "app"] (by decide +kernel)
  revert hkept
  decide +kernel

/-! ### Paths of imports -/

theorem directory_prefix (p : FilePath) : p.directory <+: p.components := by
  rw [directory]
  split
  · exact List.nil_prefix
  · exact List.dropLast_prefix _

/-- **A path that a document names leads where it leads from the document's directory**, if it is
foldable behind the path of this directory. -/
theorem walk_resolveIn (place : List String) (importer p : FilePath)
    (h : p.isAbsolute = true ∨ Component.IsFoldable (importer.directory ++ p.components)) :
    (resolveIn importer.directory p).walk place =
      p.walk (Component.walkFrom place importer.directory) := by
  obtain ⟨r, hplain, ⟨habsolute, hr⟩ | ⟨hrelative, hr⟩⟩ := components_eq p
  · have hroot := Component.root_not_mem_of_isPlain hplain
    have hfoldable : p.IsFoldable := Or.inl (by rw [hr]; rfl)
    rw [resolveIn, if_pos habsolute, walk_normalize place hfoldable, walk, walk, hr,
      Component.walkFrom_root _ hroot, Component.walkFrom_root _ hroot]
  · have hfoldable := h.resolve_left (by simp [hrelative])
    have hroot : .root ∉ p.components := by
      have hroot := Component.root_not_mem_of_isPlain hplain
      rcases hr with hr | hr <;> rw [hr]
      · simpa using hroot
      · exact hroot
    obtain ⟨rest, hrest⟩ := directory_prefix importer
    have hjoined : .root ∉ (importer.directory ++ p.components).tail := by
      cases hdirectory : importer.directory with
      | nil => exact fun hmem ↦ hroot (List.mem_of_mem_tail hmem)
      | cons c d =>
        have himporter := root_not_mem_tail_components importer
        rw [← hrest, hdirectory, List.cons_append, List.tail_cons, List.mem_append] at himporter
        rw [List.cons_append, List.tail_cons, List.mem_append, not_or]
        exact ⟨fun hmem ↦ himporter (Or.inl hmem), hroot⟩
    have hnames : ∀ s, .name s ∈ importer.directory ++ p.components →
        (Component.name s).IsPlain := by
      intro s hs
      rcases List.mem_append.1 hs with hs | hs
      · exact isPlain_of_name_mem (hrest ▸ List.mem_append_left rest hs)
      · exact isPlain_of_name_mem hs
    rw [resolveIn, if_neg (by simp [hrelative]), walk,
      components_ofComponents_normalize hjoined hnames,
      Component.walkFrom_normalize place hjoined hfoldable]
    exact List.foldl_append

end FilePath

end LayeredConfig
