import LayeredConfig.Proofs.Placeholder.Answers
import LayeredConfig.Proofs.Placeholder.Cycles

/-!
# Acyclic references have values

Substitution takes a reference for one that leads back to itself in two cases: when its path is on
the stack of those on their way, and when it is spelled like the key of the string that it stands
in. The stack never misjudges an acyclic tree (`answers_reference?`): a path that is on it leads to
a string from which the text was reached, so that the text would come back to itself. The key does.
It is a spelling and not a place: a full stop within a key and a full stop between keys look alike,
as do the keys `1` and `"1"`, and on demand the indexes of sequences are left out.

So strict resolution of an acyclic tree ends with a placeholder without a value only where a
spelling misleads it (`Tree.KeysApart`), or where a value, once substituted, is text that holds a
placeholder again (`Scope.Settles`). Everywhere else every reference has its value
(`resolve_ne_unresolvedPlaceholder`). The proof carries what the answers rest on
(`Scope.Answerable`) from each tree of the walk to the next.
-/

namespace LayeredConfig

/-- No reference is spelled like the key of the string that it stands in: neither the key of the
place where the string is, nor a key that it has when a reference leads to it. -/
structure Tree.KeysApart (t : Tree) : Prop where
  /-- The key of the place. -/
  place : ∀ l ∈ t.stringLocations, ∀ s, t.at? l = some (.string s) →
    Scope.dottedKey l ∉ Placeholder.references s
  /-- The key of a string that a reference leads to. -/
  reached : ∀ path ∈ t.references, ∀ v, t.get? path = some v → ∀ e ∈ v.keyedStrings path,
    e.1 ∉ Placeholder.references e.2

namespace Scope

variable {σ : Scope} {t u u' : Tree} {s key : String} {w : Value}

/-- What the text renders to in the tree holds no placeholder. -/
def Settles (σ : Scope) (t : Tree) (s : String) : Prop :=
  ∀ depth v, σ.render (σ.reading t depth) s = some v → v.isSettled = true

open LoadError (IsNonScalar)

/-! ### References of an acyclic tree -/

/-- What the answers for the strings of `t` rest on when they are substituted in `u`. -/
structure Answerable (σ : Scope) (t u : Tree) : Prop where
  /-- Every reference leads somewhere. -/
  leads : ∀ path ∈ t.references, ∃ v, u.get? path = some v
  /-- A string that a reference leads to is one of `t`, whose references are not spelled like its
  key, or it holds no placeholder. -/
  reached : ∀ path ∈ t.references, ∀ v, u.get? path = some v → ∀ e ∈ v.keyedStrings path,
    (e.2 ∈ t.strings ∧ e.1 ∉ Placeholder.references e.2) ∨ Placeholder.occursIn e.2 = false
  /-- Every way through references ends. -/
  grounded : ∀ s ∈ t.strings, u.Grounded s
  /-- What a reference leads to renders to values without placeholders. -/
  settles : ∀ s ∈ t.strings, ∀ s', u.Mentions s s' → σ.Settles u s'

/-- **Every reference has its value.** The induction is on the ways from the text, of which the
stack holds no path: from what a path on the stack leads to, references have come to the text. -/
theorem answers_reference? (hsupplied : ∀ s ∈ t.strings, σ.Supplies s)
    (h : σ.Answerable t u) (hs : u.Grounded s) (hst : s ∈ t.strings) (hsu : s ∈ u.strings)
    {stack : List String} (hstack : ∀ q ∈ stack, ∃ v, u.get? q = some v ∧
      ∃ y ∈ v.strings, Relation.ReflTransGen u.Mentions y s)
    (hkey : key ∉ Placeholder.references s) :
    ∀ path ∈ Placeholder.references s, Answers (σ.reference? u u.references stack path key) := by
  induction hs generalizing stack key with
  | intro s hacc ih =>
    intro path hpath
    have hne : path ≠ key := fun heq ↦ hkey (heq ▸ hpath)
    have hnames : path ∈ u.references := Value.mem_references.2 ⟨s, hsu, hpath⟩
    have hpatht : path ∈ t.references := Value.mem_references.2 ⟨s, hst, hpath⟩
    have hfree : path ∉ stack := by
      intro hmem
      obtain ⟨v, hv, y, hy, hway⟩ := hstack path hmem
      have hback : u.Mentions s y := ⟨path, hpath, v, hv, hy⟩
      have hgrounded : u.Grounded s := Acc.intro s hacc
      exact hgrounded.not_transGen (Relation.TransGen.head' hback hway)
    obtain ⟨v, hv⟩ := h.leads path hpatht
    have hvalue : FailsOnlyWith IsNonScalar (σ.substituteValue
        (fun p k ↦ σ.reference? u u.references (path :: stack) p k) path v) := by
      refine failsOnlyWith_substituteValue fun e he ↦ ?_
      have hev : e.2 ∈ v.strings := Value.mem_strings_of_mem_keyedStrings he
      have hmentions : u.Mentions s e.2 := ⟨path, hpath, v, hv, hev⟩
      rcases h.reached path hpatht v hv e he with ⟨het, hapart⟩ | hsettled
      · refine ⟨hsupplied e.2 het, ih e.2 hmentions het hmentions.mem_strings ?_ hapart⟩
        intro q hq
        rcases List.mem_cons.1 hq with rfl | hq
        · exact ⟨v, hv, e.2, hev, .refl⟩
        · obtain ⟨v', hv', y, hy, hway⟩ := hstack q hq
          exact ⟨v', hv', y, hy, .tail hway hmentions⟩
      · exact ⟨fun p hp ↦ absurd hp (Placeholder.not_mem_of_occursIn_eq_false hsettled p),
          fun q hq ↦ absurd hq (Placeholder.not_mem_references hsettled)⟩
    rw [reference?_eq, if_neg hne, if_pos ⟨hnames, hfree⟩, hv]
    refine ⟨.bind hvalue fun _ ↦ .ok _, fun hnone ↦ ?_⟩
    obtain ⟨x, -, hx⟩ := bind_eq_ok_iff.1 hnone
    cases hx

/-! ### From one tree of the walk to the next -/

section Step

variable (h : σ.Answerable t u) {depth₀ : Nat} (hw : σ.render (σ.reading u depth₀) s = some w)
  (hover : Value.Overwritten s w (.mapping u) (.mapping u'))

include h hw hover

/-- What a reference leads to after the step: what it led to before, or that with the string
written over by a settled value. -/
theorem get?_of_step {path : String} (hpath : path ∈ t.references) {v' : Value}
    (hv' : u'.get? path = some v') : ∃ v, u.get? path = some v ∧
      (v' = v ∨ Value.Overwritten s w v v' ∧ w.isSettled = true) := by
  obtain ⟨v, hv⟩ := h.leads path hpath
  obtain ⟨v'', hv'', hvv'⟩ := Tree.get?_of_overwritten hover hv
  obtain rfl : v'' = v' := Option.some.inj (hv''.symm.trans hv')
  refine ⟨v, hv, hvv'.imp_right fun hwrite ↦ ⟨hwrite, ?_⟩⟩
  obtain ⟨x, hx, hpathx⟩ := Value.mem_references.1 hpath
  exact h.settles x hx s ⟨path, hpathx, v, hv, hwrite.self_mem_strings⟩ depth₀ w hw

/-- What a reference leads to after the step has strings of before the step, with their keys, and
strings without a placeholder. -/
theorem reached_of_step {path : String} (hpath : path ∈ t.references) {v' : Value}
    (hv' : u'.get? path = some v') {e : String × String} (he : e ∈ v'.keyedStrings path) :
    (∃ v, u.get? path = some v ∧ e ∈ v.keyedStrings path) ∨
      Placeholder.occursIn e.2 = false := by
  obtain ⟨v, hv, rfl | ⟨hwrite, hsettled⟩⟩ := get?_of_step h hw hover hpath hv'
  · exact Or.inl ⟨v', hv, he⟩
  · rcases hwrite.mem_keyedStrings_of_mem he with he | he
    · exact Or.inl ⟨v, hv, he⟩
    · exact Or.inr (Value.isSettled_iff.1 hsettled e.2 he)

/-- What a text mentions after the step it mentioned before, or it holds no placeholder. -/
theorem mentions_of_step {x y : String} (hx : x ∈ t.strings) (hy : u'.Mentions x y) :
    (u.Mentions x y ∧ y ∈ t.strings) ∨ Placeholder.occursIn y = false := by
  obtain ⟨path, hpath, v', hv', hyv'⟩ := hy
  have hpatht : path ∈ t.references := Value.mem_references.2 ⟨x, hx, hpath⟩
  obtain ⟨e, he, rfl⟩ := Value.exists_mem_keyedStrings path hyv'
  rcases reached_of_step h hw hover hpatht hv' he with ⟨v, hv, hev⟩ | hsettled
  · refine (h.reached path hpatht v hv e hev).imp_left fun ⟨het, _⟩ ↦ ?_
    exact ⟨⟨path, hpath, v, hv, Value.mem_strings_of_mem_keyedStrings hev⟩, het⟩
  · exact Or.inr hsettled

theorem grounded_of_step {x : String} (hx : x ∈ t.strings) : u'.Grounded x := by
  induction h.grounded x hx with
  | intro x _ ih =>
    refine Acc.intro _ fun y hy ↦ ?_
    rcases mentions_of_step h hw hover hx hy with ⟨hold, hyt⟩ | hsettled
    · exact ih y hold hyt
    · have hnone : ∀ path, path ∉ Placeholder.references y :=
        fun _ ↦ Placeholder.not_mem_references hsettled
      exact Acc.intro _ fun _ ⟨path, hpath, _⟩ ↦ absurd hpath (hnone path)

/-- What is read after the step was read before it, at a greater depth. -/
theorem extendsOn_reading_of_step (depth : Nat) :
    (σ.reading u (depth₀ + depth)).ExtendsOn (σ.reading u' depth) t.references := by
  induction depth with
  | zero =>
    intro path _ x hx
    cases hx
  | succ depth ih =>
    intro path hpath x hx
    obtain ⟨v', hv', hx⟩ := reading_succ_eq_some_iff.1 hx
    obtain ⟨z, hz, hpathz⟩ := Value.mem_references.1 hpath
    have hbelow : v'.references ⊆ t.references := by
      intro p hp
      obtain ⟨y, hy, hpy⟩ := Value.mem_references.1 hp
      rcases mentions_of_step h hw hover hz ⟨path, hpathz, v', hv', hy⟩ with ⟨-, hyt⟩ | hsettled
      · exact Value.mem_references.2 ⟨y, hyt, hpy⟩
      · exact absurd hpy (Placeholder.not_mem_references hsettled)
    have hx' : σ.renderValue (σ.reading u (depth₀ + depth)) v' = some x :=
      renderValue_mono_on (ih.mono hbelow) hx
    obtain ⟨v, hv, rfl | ⟨hwrite, hsettled⟩⟩ := get?_of_step h hw hover hpath hv'
    · exact reading_succ_eq_some_iff.2 ⟨v', hv, hx'⟩
    · have hdeep : (σ.reading u (depth₀ + depth)).Extends (σ.reading u depth₀) :=
        extends_reading σ u (Nat.le_add_right _ _)
      have hback := renderValue_before_overwritten (render_mono hdeep hw) hsettled hwrite hx'
      exact reading_succ_eq_some_iff.2 ⟨v, hv, hback⟩

theorem settles_of_step {x y : String} (hx : x ∈ t.strings) (hy : u'.Mentions x y) :
    σ.Settles u' y := by
  intro depth z hz
  rcases mentions_of_step h hw hover hx hy with ⟨hold, hyt⟩ | hsettled
  · have hreferences : Placeholder.references y ⊆ t.references :=
      fun p hp ↦ Value.mem_references.2 ⟨y, hyt, hp⟩
    have hbefore := render_mono_on
      ((extendsOn_reading_of_step h hw hover depth).mono hreferences) hz
    exact h.settles x hx y hold _ z hbefore
  · rw [render_of_occursIn_eq_false hsettled] at hz
    obtain rfl := Option.some.inj hz
    simpa [Value.isSettled] using hsettled

/-- **One step of the walk** keeps what the answers rest on. -/
theorem Answerable.step : σ.Answerable t u' where
  leads path hpath := by
    obtain ⟨v, hv⟩ := h.leads path hpath
    obtain ⟨v', hv', -⟩ := Tree.get?_of_overwritten hover hv
    exact ⟨v', hv'⟩
  reached path hpath v' hv' e he := by
    rcases reached_of_step h hw hover hpath hv' he with ⟨v, hv, hev⟩ | hsettled
    · exact h.reached path hpath v hv e hev
    · exact Or.inr hsettled
  grounded _ hx := grounded_of_step h hw hover hx
  settles _ hx _ hy := settles_of_step h hw hover hx hy

end Step

/-! ### Strict resolution -/

/-- The walk over the strings that are left, in the tree that the walk over those in front of them
has come to. -/
theorem failsOnlyWith_resolveAll (hσ : σ.strict = true) (ht : t.WellFormed)
    (hsupplied : ∀ s ∈ t.strings, σ.Supplies s) (hkeys : t.KeysApart) {done rest : List Location}
    (hsplit : t.stringLocations = done ++ rest) (hdone : σ.resolveAll done t = .ok u)
    (h : σ.Answerable t u) : FailsOnlyWith IsNonScalar (σ.resolveAll rest u) := by
  induction rest generalizing done u with
  | nil => exact .ok u
  | cons l rest ih =>
    obtain ⟨s, hat, hatu⟩ := at?_of_resolveAll ht hsplit hdone
    have hst : s ∈ t.strings := Tree.mem_strings_of_at? hat
    have hkey : dottedKey l ∉ Placeholder.references s := hkeys.place l (by simp [hsplit]) s hat
    have hanswers : ∀ path ∈ Placeholder.references s,
        Answers (σ.reference? u u.references [] path (dottedKey l)) :=
      answers_reference? hsupplied h (h.grounded s hst) hst (Tree.mem_strings_of_at? hatu)
        (by simp) hkey
    have hstring : FailsOnlyWith IsNonScalar (σ.substituteIn u (dottedKey l) s) :=
      failsOnlyWith_substitute (hsupplied s hst) hanswers
    intro e he
    rcases bind_eq_error_iff.1 he with he | ⟨u', hu', he⟩
    · rw [resolveAt, hatu] at he
      rcases bind_eq_error_iff.1 he with he | ⟨w, -, he⟩
      · exact hstring e he
      · cases he
    · obtain ⟨w, -, ⟨key, hanswer⟩, hover⟩ := substituted_of_resolveAt hatu hu'
      obtain ⟨depth, hrender⟩ := render_of_substituteIn hσ hanswer
      have hdone' : σ.resolveAll (done ++ [l]) t = .ok u' := by
        rw [resolveAll_append, hdone]
        show σ.resolveAll [l] u = .ok u'
        rw [resolveAll, hu']
        rfl
      exact ih (by simpa using hsplit) hdone' (h.step hrender hover) e he

/-- What the answers rest on is there at the start. -/
theorem answerable_self (ht : t.WellFormed)
    (hleads : ∀ path ∈ t.references, ∃ v, t.get? path = some v) (hacyclic : t.Acyclic)
    (hkeys : t.KeysApart)
    (hsettles : ∀ s ∈ t.strings, ∀ s', t.Mentions s s' → σ.Settles t s') : σ.Answerable t t where
  leads := hleads
  reached path hpath v hv e he := by
    refine Or.inl ⟨?_, hkeys.reached path hpath v hv e he⟩
    exact Tree.strings_subset_of_get? hv (Value.mem_strings_of_mem_keyedStrings he)
  grounded _ hs := Tree.grounded_of_acyclic ht hacyclic hs
  settles := hsettles

/-- With all answers there, the walk does not end with a placeholder without a value. -/
theorem resolve_ne_of_answerable (hσ : σ.strict = true) (ht : t.WellFormed)
    (hsupplied : ∀ s ∈ t.strings, σ.Supplies s) (hkeys : t.KeysApart) (h : σ.Answerable t t)
    (placeholder key : String) : σ.resolve t ≠ .error (.unresolvedPlaceholder placeholder key) := by
  have hfails : FailsOnlyWith IsNonScalar (σ.resolve t) :=
    failsOnlyWith_resolveAll hσ ht hsupplied hkeys (List.nil_append _).symm rfl h
  intro herror
  obtain ⟨_, _, heq⟩ := hfails _ herror
  cases heq

/-- **No false cycles.** When every variable and every constant that is named has a value, every
reference leads somewhere and no string refers to itself, a strict resolution does not end with a
placeholder without a value, provided that no reference is spelled like the key of its own string
and that what references lead to renders to values without placeholders. -/
theorem resolve_ne_unresolvedPlaceholder (hσ : σ.strict = true) (ht : t.WellFormed)
    (hsupplied : ∀ s ∈ t.strings, σ.Supplies s)
    (hleads : ∀ path ∈ t.references, ∃ v, t.get? path = some v) (hacyclic : t.Acyclic)
    (hkeys : t.KeysApart) (hsettles : ∀ s ∈ t.strings, ∀ s', t.Mentions s s' → σ.Settles t s')
    (placeholder key : String) : σ.resolve t ≠ .error (.unresolvedPlaceholder placeholder key) := by
  have hanswerable : σ.Answerable t t := answerable_self ht hleads hacyclic hkeys hsettles
  exact resolve_ne_of_answerable hσ ht hsupplied hkeys hanswerable placeholder key

/-- A rendering at one depth is the rendering at all. -/
theorem settles_of_render {depth : Nat} (h : σ.render (σ.reading t depth) s = some w)
    (hw : w.isSettled = true) : σ.Settles t s := by
  intro depth' v hv
  obtain rfl : v = w := render_reading_unique hv h
  exact hw

/-- A strict scope with one variable. -/
def hostScope : Scope :=
  ⟨fun name ↦ if name = "HOST" then some "db.local" else none, .empty, true⟩

/-- A tree with a numeric key, a key with a full stop and a mapping in a sequence. -/
def endpoints : Tree :=
  [(.string "db", .mapping [(.int 1, .string "%env(HOST)%"),
      (.string "main.url", .string "%conf(db.1)%:5432")]),
    (.string "all", .sequence [.mapping [(.string "first", .string "%conf(db.1)%")],
      .string "%conf(db)%"])]

theorem resolve_endpoints_ne : ¬∃ placeholder key,
    hostScope.resolve endpoints = .error (.unresolvedPlaceholder placeholder key) := by
  rintro ⟨placeholder, key, herror⟩
  have hwellFormed : endpoints.WellFormed := by
    simp [endpoints, Tree.WellFormed, Value.WellFormed, Value.WellFormedEntries,
      Value.WellFormedItems, Value.same]
  have hpieces : ∀ s ∈ endpoints.strings, ∀ p, .placeholder p ∈ Placeholder.ofString s →
      p ∈ [⟨.environment, "HOST"⟩, ⟨.configuration, "db.1"⟩, ⟨.configuration, "db"⟩] := by
    have hall : ∀ s ∈ endpoints.strings, ∀ piece ∈ Placeholder.ofString s,
        piece ∈ [.placeholder ⟨.environment, "HOST"⟩, .placeholder ⟨.configuration, "db.1"⟩,
          .placeholder ⟨.configuration, "db"⟩, .literal ":5432".toList] := by
      decide +kernel
    intro s hs p hp
    simpa using hall s hs _ hp
  have hsupplied : ∀ s ∈ endpoints.strings, hostScope.Supplies s := by
    intro s hs p hp
    have hmem := hpieces s hs p hp
    simp only [List.mem_cons, List.not_mem_nil, or_false] at hmem
    rcases hmem with rfl | rfl | rfl <;> simp [hostScope]
  have hleads : ∀ path ∈ endpoints.references, ∃ v, endpoints.get? path = some v := by
    have hsome : ∀ path ∈ endpoints.references, (endpoints.get? path).isSome = true := by
      decide +kernel
    exact fun path hpath ↦ Option.isSome_iff_exists.1 (hsome path hpath)
  have hacyclic : endpoints.Acyclic := by
    let db : Value := .mapping [(.int 1, .string "db.local"),
      (.string "main.url", .string "db.local:5432")]
    have hresolve : hostScope.resolve endpoints = .ok [(.string "db", db),
        (.string "all", .sequence [.mapping [(.string "first", .string "db.local")], db])] := by
      decide +kernel
    exact Tree.acyclic_of_grounded (grounded_of_resolve rfl hwellFormed hresolve)
  have hkeys : endpoints.KeysApart := by
    constructor
    · have hplace : ∀ l ∈ endpoints.stringLocations, ∀ v ∈ endpoints.at? l, ∀ s ∈ v.strings,
          dottedKey l ∉ Placeholder.references s := by
        decide +kernel
      exact fun l hl s hs ↦ hplace l hl _ hs s (List.mem_singleton_self _)
    · have hreached : ∀ path ∈ endpoints.references, ∀ v ∈ endpoints.get? path,
          ∀ e ∈ v.keyedStrings path, e.1 ∉ Placeholder.references e.2 := by
        decide +kernel
      exact hreached
  have hsettles : ∀ s ∈ endpoints.strings, hostScope.Settles endpoints s := by
    have hrender : ∀ s ∈ endpoints.strings,
        ((hostScope.render (hostScope.reading endpoints 3) s).any Value.isSettled) = true := by
      decide +kernel
    intro s hs
    obtain ⟨w, hw, hsettled⟩ := (Option.any_eq_true _ _).1 (hrender s hs)
    exact settles_of_render hw hsettled
  exact resolve_ne_unresolvedPlaceholder rfl hwellFormed hsupplied hleads hacyclic hkeys
    (fun _ _ _ hmentions ↦ hsettles _ hmentions.mem_strings) placeholder key herror

/-- **A spelling is taken for a cycle**: a reference to one place is refused because the key of
another place, where it stands, is spelled like its path. -/
theorem resolve_mistakes_spelling :
    ¬∀ (σ : Scope) (t : Tree), σ.strict = true → t.WellFormed →
      (∀ name value, σ.environment name = some value → '%' ∉ value.toList) →
      (∀ name value, σ.constants.get? name = some value → '%' ∉ value.toList) →
      (∀ s ∈ t.strings, σ.Supplies s) →
      (∀ path ∈ t.references, ∃ v, t.get? path = some v) → t.Acyclic →
      ∀ placeholder key, σ.resolve t ≠ .error (.unresolvedPlaceholder placeholder key) := by
  intro h
  let σ : Scope := ⟨fun _ ↦ none, .empty, true⟩
  let t : Tree := [(.string "a", .mapping [(.string "b", .string "x")]),
    (.string "a.b", .string "%conf(a.b)%")]
  have hwellFormed : t.WellFormed := by
    simp [t, Tree.WellFormed, Value.WellFormed, Value.WellFormedEntries, Value.same]
  have hpieces : ∀ s ∈ t.strings, ∀ piece ∈ Placeholder.ofString s,
      piece ∈ [.literal ['x'], .placeholder ⟨.configuration, "a.b"⟩] := by
    decide +kernel
  have hsupplied : ∀ s ∈ t.strings, σ.Supplies s := by
    intro s hs p hp
    obtain rfl : p = ⟨.configuration, "a.b"⟩ := by simpa using hpieces s hs _ hp
    simp
  have hpath : ∀ path ∈ t.references, path = "a.b" := by
    decide +kernel
  have hget : t.get? "a.b" = some (.string "x") := by
    decide +kernel
  have hleads : ∀ path ∈ t.references, ∃ v, t.get? path = some v :=
    fun path hmem ↦ ⟨_, hpath path hmem ▸ hget⟩
  have hx : t.Grounded "x" := by
    refine Acc.intro _ fun y hy ↦ ?_
    obtain ⟨path, hmem, -⟩ := hy
    have hnone : Placeholder.references "x" = [] := by decide +kernel
    simp [hnone] at hmem
  have hgrounded : ∀ s ∈ t.strings, t.Grounded s := by
    intro s hs
    refine Acc.intro _ fun y hy ↦ ?_
    obtain ⟨path, hmem, v, hv, hy⟩ := hy
    obtain rfl := hpath path (Value.mem_references.2 ⟨s, hs, hmem⟩)
    obtain rfl : .string "x" = v := Option.some.inj (hget.symm.trans hv)
    obtain rfl := List.mem_singleton.1 hy
    exact hx
  have hacyclic : t.Acyclic := Tree.acyclic_of_grounded hgrounded
  have hrefused : σ.resolve t = .error (.unresolvedPlaceholder "%conf(a.b)%" "a.b") := by
    decide +kernel
  have hnone : ∀ name, Constants.empty.get? name = none := fun _ ↦ rfl
  exact h σ t rfl hwellFormed (by simp [σ]) (by simp [σ, hnone]) hsupplied hleads hacyclic _ _
    hrefused

end Scope

end LayeredConfig
