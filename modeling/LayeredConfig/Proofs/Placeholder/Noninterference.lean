import LayeredConfig.Proofs.Placeholder.Reading
import LayeredConfig.Proofs.Placeholder.Walk

/-!
# Which environment variables matter

Two environments that agree on the variables that a text names substitute it alike. For a string of
a tree that is so as soon as they agree on the variables that the tree names (`substituteIn_congr`):
whatever a reference finds is a part of the tree.

For a whole tree it is not enough that they agree on the variables that the tree names at the start.
Each string is substituted in the tree of that moment, where the strings before it have given way
to their values. A value is text from outside, and it may look like a placeholder; a reference back
to it substitutes it again (`resolve_depends_on_values`). A reference forward never does: it
substitutes the text of the document, once. So what has to be agreed on are the variables named in
any tree that the walk comes through, and that is enough (`resolve_eq_of_agree`), whether the tree
is resolved or not.

Of a tree that is resolved, the trees on the way need not be known: each has strings of the tree
before and of the tree afterwards only (`mem_strings_of_resolveAll`). Where no placeholder is left
in the result, the variables that the tree names at the start are all that matters
(`resolve_eq_ok_of_isSettled`).
-/

namespace LayeredConfig

/-- The names of the environment variables in a text. -/
def Placeholder.variables (s : String) : List String :=
  (Placeholder.ofString s).filterMap fun
    | .placeholder ⟨.environment, name⟩ => some name
    | _ => none

theorem Placeholder.mem_variables {s name : String} :
    name ∈ Placeholder.variables s ↔
      .placeholder ⟨.environment, name⟩ ∈ Placeholder.ofString s := by
  rw [Placeholder.variables, List.mem_filterMap]
  constructor
  · rintro ⟨piece, hpiece, hname⟩
    split at hname
    · obtain rfl := Option.some.inj hname
      exact hpiece
    · cases hname
  · intro h
    exact ⟨_, h, rfl⟩

/-- The names of the environment variables in the strings of a value. -/
def Value.variables (v : Value) : List String :=
  v.strings.flatMap Placeholder.variables

/-- The names of the environment variables in the strings of a tree. -/
def Tree.variables (t : Tree) : List String :=
  (Value.mapping t).variables

theorem Value.variables_subset {v w : Value} (h : v.strings ⊆ w.strings) :
    v.variables ⊆ w.variables := by
  intro name hname
  obtain ⟨s, hs, hname⟩ := List.mem_flatMap.1 hname
  exact List.mem_flatMap.2 ⟨s, h hs, hname⟩

namespace Scope

/-- The scope in another environment. -/
def inEnvironment (σ : Scope) (ε : Environment) : Scope :=
  { σ with environment := ε }

variable {σ : Scope} {ε : Environment} {lookup : Lookup} {key : String}

/-! ### Substitution with given references -/

theorem value?_congr {p : Placeholder}
    (h : p.kind = .environment → ε p.identifier = σ.environment p.identifier) :
    (σ.inEnvironment ε).value? lookup key p = σ.value? lookup key p := by
  cases hkind : p.kind with
  | environment =>
    simp only [value?, hkind, inEnvironment]
    rw [h hkind]
  | constant => simp only [value?, hkind, inEnvironment]
  | configuration => simp only [value?, hkind]

theorem pieceText_congr {piece : Piece}
    (h : ∀ name, piece = .placeholder ⟨.environment, name⟩ → ε name = σ.environment name) :
    (σ.inEnvironment ε).pieceText lookup key piece = σ.pieceText lookup key piece := by
  cases piece with
  | literal text => rfl
  | placeholder p =>
    have hp : p.kind = .environment → ε p.identifier = σ.environment p.identifier := by
      intro hkind
      refine h p.identifier ?_
      rw [← hkind]
    rw [pieceText, pieceText, value?_congr hp]
    rfl

theorem piecesText_congr {ps : List Piece}
    (h : ∀ name, .placeholder ⟨.environment, name⟩ ∈ ps → ε name = σ.environment name) :
    (σ.inEnvironment ε).piecesText lookup key ps = σ.piecesText lookup key ps := by
  induction ps with
  | nil => rfl
  | cons piece r ih =>
    have hpiece : (σ.inEnvironment ε).pieceText lookup key piece = σ.pieceText lookup key piece :=
      pieceText_congr fun name hname ↦ h name (hname ▸ List.mem_cons_self)
    have hr := ih fun name hname ↦ h name (List.mem_cons_of_mem _ hname)
    rw [piecesText, piecesText, hpiece, hr]

/-- **A text is substituted alike** in environments that agree on the variables that it names. -/
theorem substitute_congr {text : String}
    (h : ∀ name ∈ Placeholder.variables text, ε name = σ.environment name) :
    (σ.inEnvironment ε).substitute lookup key text = σ.substitute lookup key text := by
  have hpieces : ∀ name, .placeholder ⟨.environment, name⟩ ∈ Placeholder.ofString text →
      ε name = σ.environment name :=
    fun name hname ↦ h name (Placeholder.mem_variables.2 hname)
  rw [substitute, substitute]
  split
  · rename_i p hlone
    have hp : p.kind = .environment → ε p.identifier = σ.environment p.identifier := by
      intro hkind
      refine hpieces p.identifier ?_
      rw [hlone, ← hkind]
      exact List.mem_singleton_self _
    rw [value?_congr hp]
    rfl
  · rw [piecesText_congr hpieces]

mutual

theorem substituteValue_congr : ∀ {v : Value} {key : String},
    (∀ name ∈ v.variables, ε name = σ.environment name) →
      (σ.inEnvironment ε).substituteValue lookup key v = σ.substituteValue lookup key v
  | .string s, _, h => by
    refine substitute_congr fun name hname ↦ h name ?_
    rw [Value.variables, Value.strings, List.flatMap_singleton]
    exact hname
  | .sequence items, _, h => by
    rw [substituteValue, substituteValue, substituteItems_congr h]
  | .mapping entries, _, h => by
    rw [substituteValue, substituteValue, substituteEntries_congr h]
  | .null, _, _ | .bool _, _, _ | .int _, _, _ | .float _, _, _ | .tagged _ _, _, _ => rfl

theorem substituteItems_congr : ∀ {items : List Value} {key : String},
    (∀ name ∈ (Value.itemStrings items).flatMap Placeholder.variables,
      ε name = σ.environment name) →
      (σ.inEnvironment ε).substituteItems lookup key items = σ.substituteItems lookup key items
  | [], _, _ => rfl
  | v :: r, key, h => by
    rw [Value.itemStrings, List.flatMap_append, List.forall_mem_append] at h
    rw [substituteItems, substituteItems, substituteValue_congr h.1, substituteItems_congr h.2]

theorem substituteEntries_congr : ∀ {entries : List (Value × Value)} {key : String},
    (∀ name ∈ (Value.entryStrings entries).flatMap Placeholder.variables,
      ε name = σ.environment name) →
      (σ.inEnvironment ε).substituteEntries lookup key entries =
        σ.substituteEntries lookup key entries
  | [], _, _ => rfl
  | (k, v) :: r, key, h => by
    rw [Value.entryStrings, List.flatMap_append, List.forall_mem_append] at h
    rw [substituteEntries, substituteEntries, substituteValue_congr h.1,
      substituteEntries_congr h.2]

end

/-! ### References and whole trees -/

theorem reference?_congr {t : Tree} (h : ∀ name ∈ t.variables, ε name = σ.environment name)
    (names stack : List String) (path key : String) :
    (σ.inEnvironment ε).reference? t names stack path key =
      σ.reference? t names stack path key := by
  induction stack using unvisited_induction names generalizing path key with
  | step stack ih =>
    rw [reference?_eq, reference?_eq]
    split
    · rfl
    · split
      · rename_i hvisit
        cases hget : t.get? path with
        | none => rfl
        | some v =>
          have hbelow : (fun p k ↦ (σ.inEnvironment ε).reference? t names (path :: stack) p k) =
              fun p k ↦ σ.reference? t names (path :: stack) p k :=
            funext fun p ↦ funext fun k ↦ ih path hvisit.1 hvisit.2 p k
          -- What the reference leads to is a part of the tree and names no other variables.
          have hv : ∀ name ∈ v.variables, ε name = σ.environment name := fun name hname ↦
            h name (Value.variables_subset (Tree.strings_subset_of_get? hget) hname)
          dsimp only
          rw [hbelow, substituteValue_congr hv]
      · rfl

/-- **A string of a tree is substituted alike** in environments that agree on the variables that the
tree names. -/
theorem substituteIn_congr {t : Tree} (h : ∀ name ∈ t.variables, ε name = σ.environment name)
    {text : String} (htext : text ∈ t.strings) (key : String) :
    (σ.inEnvironment ε).substituteIn t key text = σ.substituteIn t key text := by
  have hlookup : (σ.inEnvironment ε).reference? t t.references [] =
      σ.reference? t t.references [] :=
    funext fun path ↦ funext fun k ↦ reference?_congr h t.references [] path k
  rw [substituteIn, substituteIn, hlookup]
  exact substitute_congr fun name hname ↦ h name (List.mem_flatMap.2 ⟨text, htext, hname⟩)

theorem resolveAt_congr {t : Tree} (h : ∀ name ∈ t.variables, ε name = σ.environment name)
    (l : Location) : (σ.inEnvironment ε).resolveAt t l = σ.resolveAt t l := by
  rw [resolveAt, resolveAt]
  split
  · rename_i text hat
    rw [substituteIn_congr h (Tree.mem_strings_of_at? hat)]
  · rfl

theorem resolveAll_congr (ls : List Location) {t : Tree}
    (h : ∀ done u, done <+: ls → σ.resolveAll done t = .ok u →
      ∀ name ∈ u.variables, ε name = σ.environment name) :
    (σ.inEnvironment ε).resolveAll ls t = σ.resolveAll ls t := by
  induction ls generalizing t with
  | nil => rfl
  | cons l r ih =>
    have ht := h [] t List.nil_prefix rfl
    rw [resolveAll, resolveAll, resolveAt_congr ht]
    cases hstep : σ.resolveAt t l with
    | error e => rfl
    | ok t' =>
      refine ih fun done u hdone hu ↦ h (l :: done) u ?_ ?_
      · exact (List.prefix_cons_inj l).2 hdone
      · rw [resolveAll, hstep]
        exact hu

/-- **Only the variables named on the way matter.** Two environments that agree on every variable
named in a tree that the walk comes through resolve the tree alike: to the same tree, or with the
same cause of failure. -/
theorem resolve_eq_of_agree {t : Tree}
    (h : ∀ done u, done <+: t.stringLocations → σ.resolveAll done t = .ok u →
      ∀ name ∈ u.variables, ε name = σ.environment name) :
    (σ.inEnvironment ε).resolve t = σ.resolve t :=
  resolveAll_congr _ h

/-- The environment with the given variables. -/
def environmentOf (entries : List (String × String)) : Environment :=
  fun name ↦ entries.lookup name

/-- A strict scope with the given variables. -/
def scopeOf (entries : List (String × String)) : Scope :=
  ⟨environmentOf entries, .empty, true⟩

/-- A variable, and a reference back to it. -/
def hostAndCopy : Tree :=
  [(.string "host", .string "%env(HOST)%"), (.string "copy", .string "%conf(host)%")]

theorem resolve_hostAndCopy :
    ((scopeOf [("HOST", "db.local")]).inEnvironment
      (environmentOf [("SECRET", "s3cret"), ("HOST", "db.local")])).resolve hostAndCopy =
        (scopeOf [("HOST", "db.local")]).resolve hostAndCopy := by
  refine resolve_eq_of_agree fun done u hdone hu ↦ ?_
  have hnames : ∀ name ∈ ["HOST"],
      environmentOf [("SECRET", "s3cret"), ("HOST", "db.local")] name =
        environmentOf [("HOST", "db.local")] name := by
    decide
  have hsubset : u.variables ⊆ ["HOST"] := by
    have hlocations : hostAndCopy.stringLocations =
        [[.key (.string "host")], [.key (.string "copy")]] := rfl
    rw [hlocations] at hdone
    rcases List.prefix_cons_iff.1 hdone with rfl | ⟨done, rfl, hrest⟩
    · cases hu
      decide +kernel
    · rcases List.prefix_cons_iff.1 hrest with rfl | ⟨done, rfl, hrest'⟩
      · have hfirst : (scopeOf [("HOST", "db.local")]).resolveAll
            [[.key (.string "host")]] hostAndCopy =
            .ok [(.string "host", .string "db.local"),
              (.string "copy", .string "%conf(host)%")] := by
          decide +kernel
        obtain rfl := Except.ok.inj (hfirst.symm.trans hu)
        decide +kernel
      · obtain rfl := List.prefix_nil.1 hrest'
        have hboth : (scopeOf [("HOST", "db.local")]).resolveAll
            [[.key (.string "host")], [.key (.string "copy")]] hostAndCopy =
            .ok [(.string "host", .string "db.local"), (.string "copy", .string "db.local")] := by
          decide +kernel
        obtain rfl := Except.ok.inj (hboth.symm.trans hu)
        decide +kernel
  exact fun name hname ↦ hnames name (hsubset hname)

/-- **Substituted values are substituted again.** It is not enough to agree on the variables that
the tree names: a reference back to a value that looks like a placeholder reads a variable that only
the value names. -/
theorem resolve_depends_on_values :
    ¬∀ (σ : Scope) (ε : Environment) (t : Tree), t.WellFormed →
      (∀ name ∈ t.variables, ε name = σ.environment name) →
        (σ.inEnvironment ε).resolve t = σ.resolve t := by
  intro h
  have hwellFormed : hostAndCopy.WellFormed := by
    simp [hostAndCopy, Tree.WellFormed, Value.WellFormed, Value.WellFormedEntries]
  have heq := h (scopeOf [("HOST", "%env(SECRET)%"), ("SECRET", "s3cret")])
    (environmentOf [("HOST", "%env(SECRET)%"), ("SECRET", "changed")]) hostAndCopy hwellFormed
    (by decide +kernel)
  have hbefore : (scopeOf [("HOST", "%env(SECRET)%"), ("SECRET", "s3cret")]).resolve hostAndCopy =
      .ok [(.string "host", .string "%env(SECRET)%"), (.string "copy", .string "s3cret")] := by
    decide +kernel
  have hafter : ((scopeOf [("HOST", "%env(SECRET)%"), ("SECRET", "s3cret")]).inEnvironment
      (environmentOf [("HOST", "%env(SECRET)%"), ("SECRET", "changed")])).resolve hostAndCopy =
      .ok [(.string "host", .string "%env(SECRET)%"), (.string "copy", .string "changed")] := by
    decide +kernel
  rw [hbefore, hafter] at heq
  simp at heq

/-! ### A resolved tree -/

/-- A tree that the walk comes through has strings of the tree before and of the tree afterwards
only. -/
theorem mem_strings_of_resolveAll {t t' u : Tree} (ht : t.WellFormed) {done rest : List Location}
    (hsplit : t.stringLocations = done ++ rest) (hdone : σ.resolveAll done t = .ok u)
    (hrest : σ.resolveAll rest u = .ok t') {s : String} (hs : s ∈ u.strings) :
    s ∈ t.strings ∨ s ∈ t'.strings := by
  induction rest generalizing done u with
  | nil =>
    cases hrest
    exact Or.inr hs
  | cons l r ih =>
    -- The string that gives way next is still the one of the tree before.
    obtain ⟨text, htext, hat⟩ := at?_of_resolveAll ht hsplit hdone
    obtain ⟨u', hu', hrest⟩ := bind_eq_ok_iff.1 hrest
    obtain ⟨w, -, -, hover⟩ := substituted_of_resolveAt hat hu'
    rcases hover.mem_strings hs with rfl | hs
    · exact Or.inl (Tree.mem_strings_of_at? htext)
    · have hsplit' : t.stringLocations = (done ++ [l]) ++ r := by simpa using hsplit
      have hdone' : σ.resolveAll (done ++ [l]) t = .ok u' := by
        rw [resolveAll_append, hdone]
        change σ.resolveAll [l] u = .ok u'
        exact bind_eq_ok_iff.2 ⟨u', hu', rfl⟩
      exact ih hsplit' hdone' hrest hs

/-- Once a tree is resolved, the variables that matter can be read off the tree and its result:
nothing else was named on the way. -/
theorem resolve_eq_ok_of_agree {t t' : Tree} (ht : t.WellFormed) (h : σ.resolve t = .ok t')
    (hagree : ∀ name, name ∈ t.variables ∨ name ∈ t'.variables → ε name = σ.environment name) :
    (σ.inEnvironment ε).resolve t = .ok t' := by
  rw [← h]
  refine resolveAll_congr _ fun done u ⟨rest, hsplit⟩ hdone name hname ↦ hagree name ?_
  have hrest : σ.resolveAll rest u = .ok t' := by
    rw [resolve, ← hsplit, resolveAll_append, hdone] at h
    exact h
  obtain ⟨s, hs, hname⟩ := List.mem_flatMap.1 hname
  exact (mem_strings_of_resolveAll ht hsplit.symm hdone hrest hs).imp
    (fun hs ↦ List.mem_flatMap.2 ⟨s, hs, hname⟩) fun hs ↦ List.mem_flatMap.2 ⟨s, hs, hname⟩

/-- **Where no placeholder is left**, the variables that the tree names are all that matters. -/
theorem resolve_eq_ok_of_isSettled {t t' : Tree} (ht : t.WellFormed) (h : σ.resolve t = .ok t')
    (hsettled : (Value.mapping t').isSettled = true)
    (hagree : ∀ name ∈ t.variables, ε name = σ.environment name) :
    (σ.inEnvironment ε).resolve t = .ok t' := by
  refine resolve_eq_ok_of_agree ht h fun name hname ↦
    hagree name (hname.resolve_right fun hname ↦ ?_)
  obtain ⟨s, hs, hname⟩ := List.mem_flatMap.1 hname
  have hnone := Value.isSettled_iff.1 hsettled s hs
  have hsome := List.any_eq_false.1 hnone _ (Placeholder.mem_variables.1 hname)
  simp at hsome

end Scope

end LayeredConfig
