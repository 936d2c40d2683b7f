import LayeredConfig.Proofs.Machine
import LayeredConfig.Proofs.Placeholder.References

/-!
# Substitution, step by step

`Scope.resolver` substitutes the strings of a tree one step at a time. Its state holds the tree as
it is at that moment, the places of the strings that are left, the identifiers of the references
that are on their way, and what waits for a value: a text for one of its placeholders, a sequence or
a mapping for one of its parts. A reference is followed wherever it leads, unless it is the key of
its own string or is on its way. Neither a list of all references nor a measure takes part.

The resolver ends, and it ends with what the recursion answers (`Scope.ends_resolver`). There the
references of the tree are listed beforehand, and one that is not on the list has no value. The two
agree because no other reference is ever met: what is substituted is a part of the tree. One value
is worked out along its structure, with the references in it by induction on the stack
(`Scope.computes_value_of_subset`).
-/

namespace LayeredConfig

/-- What a substitution does next. -/
inductive SubstitutionTask where
  /-- It turns to the next string of the tree. -/
  | next
  /-- It substitutes the value at a key. -/
  | value (key : String) (v : Value)
  /-- It goes on with the text at a key, of which a part has become text. -/
  | pieces (key before : String) (rest : List Piece)
  /-- It goes on with the sequence at a key, of which some items are substituted. -/
  | items (key : String) (before rest : List Value)
  /-- It goes on with the mapping at a key, of which some entries are substituted. -/
  | entries (key : String) (before rest : List (Value × Value))
  /-- It has come to a value. -/
  | answer (v : Value)
deriving DecidableEq

/-- What waits for a value. -/
inductive SubstitutionFrame where
  /-- A text that is one reference. -/
  | lone
  /-- A text with a reference in it. -/
  | piece (key before : String) (p : Placeholder) (rest : List Piece)
  /-- A sequence. -/
  | item (key : String) (before rest : List Value)
  /-- A mapping, at an entry with the given key. -/
  | entry (key : String) (before : List (Value × Value)) (k : Value) (rest : List (Value × Value))
deriving DecidableEq

/-- A moment of a substitution. -/
structure Substitution where
  /-- What comes next. -/
  task : SubstitutionTask
  /-- The tree at that moment. -/
  tree : Tree
  /-- Where the strings are that are left, the one that is being substituted first. -/
  left : List Location
  /-- The references that are on their way, the last one first. -/
  stack : List String
  /-- What waits for a value, the innermost first. -/
  waiting : List SubstitutionFrame
deriving DecidableEq

/-- The first moment of the substitution of a tree. -/
def Substitution.start (t : Tree) : Substitution :=
  ⟨.next, t, t.stringLocations, [], []⟩

/-- A value whose strings are strings of another has references of the other only. -/
theorem Value.references_subset {v w : Value} (h : v.strings ⊆ w.strings) :
    v.references ⊆ w.references := by
  intro path hpath
  obtain ⟨s, hs, hpath⟩ := Value.mem_references.1 hpath
  exact Value.mem_references.2 ⟨s, h hs, hpath⟩

/-- Where every reference among the pieces is listed, the placeholders that are references are. -/
theorem Placeholder.identifier_mem_of_piece {paths : List String} {ps : List Piece}
    {p : Placeholder}
    (hps : ∀ path, .placeholder ⟨.configuration, path⟩ ∈ ps → path ∈ paths)
    (hmem : .placeholder p ∈ ps) (hkind : p.kind = .configuration) : p.identifier ∈ paths := by
  refine hps p.identifier ?_
  rw [← hkind]
  exact hmem

namespace Scope

/-- What a placeholder in the string at `key` leads to: its value, if it has one, or a value of the
tree that is still to be substituted. -/
def find (σ : Scope) (t : Tree) (stack : List String) (key : String) (p : Placeholder) :
    Option Value ⊕ Value :=
  match p.kind with
  | .environment => .inl ((σ.environment p.identifier).map .string)
  | .constant => .inl ((σ.constants.get? p.identifier).map .string)
  | .configuration =>
    if p.identifier = key ∨ p.identifier ∈ stack then .inl none
    else match t.get? p.identifier with
      | some v => .inr v
      | none => .inl none

/-- The text that a placeholder contributes, when its value is given. -/
def valueText (σ : Scope) (key : String) (p : Placeholder) :
    Option Value → Except LoadError String
  | some v =>
    match v.scalarText? with
    | some s => .ok s
    | none => .error (.nonScalarInterpolation p.expression key)
  | none => σ.absent key p ""

/-- The substitution of a tree as a machine. -/
def resolver (σ : Scope) : Machine LoadError Substitution Tree where
  step c :=
    match c.task with
    | .next =>
      match c.left with
      | [] => .ok (.inr c.tree)
      | l :: r =>
        match c.tree.at? l with
        | some (.string text) =>
          .ok (.inl { c with task := .value (dottedKey l) (.string text) })
        | _ => .ok (.inl { c with left := r })
    | .value key v =>
      match v with
      | .string text =>
        match Placeholder.ofString text with
        | [.placeholder p] =>
          match σ.find c.tree c.stack key p with
          | .inl (some w) => .ok (.inl { c with task := .answer w })
          | .inl none => do
            let w ← σ.absent key p .null
            .ok (.inl { c with task := .answer w })
          | .inr w => .ok (.inl
              { c with
                task := .value p.identifier w
                stack := p.identifier :: c.stack
                waiting := .lone :: c.waiting })
        | pieces => .ok (.inl { c with task := .pieces key "" pieces })
      | .sequence items => .ok (.inl { c with task := .items key [] items })
      | .mapping entries => .ok (.inl { c with task := .entries key [] entries })
      | v => .ok (.inl { c with task := .answer v })
    | .pieces key before rest =>
      match rest with
      | [] => .ok (.inl { c with task := .answer (.string before) })
      | .literal text :: r =>
        .ok (.inl { c with task := .pieces key (before ++ String.ofList text) r })
      | .placeholder p :: r =>
        match σ.find c.tree c.stack key p with
        | .inl found => do
          let s ← σ.valueText key p found
          .ok (.inl { c with task := .pieces key (before ++ s) r })
        | .inr w => .ok (.inl
            { c with
              task := .value p.identifier w
              stack := p.identifier :: c.stack
              waiting := .piece key before p r :: c.waiting })
    | .items key before rest =>
      match rest with
      | [] => .ok (.inl { c with task := .answer (.sequence before) })
      | v :: r => .ok (.inl
          { c with task := .value key v, waiting := .item key before r :: c.waiting })
    | .entries key before rest =>
      match rest with
      | [] => .ok (.inl { c with task := .answer (.mapping before) })
      | (k, v) :: r => .ok (.inl
          { c with
            task := .value (key ++ pathSeparator.toString ++ k.keyText) v
            waiting := .entry key before k r :: c.waiting })
    | .answer v =>
      match c.waiting with
      | .lone :: r => .ok (.inl { c with stack := c.stack.tail, waiting := r })
      | .piece key before p rest :: r => do
        let s ← σ.valueText key p (some v)
        .ok (.inl
          { c with
            task := .pieces key (before ++ s) rest
            stack := c.stack.tail
            waiting := r })
      | .item key before rest :: r =>
        .ok (.inl { c with task := .items key (before ++ [v]) rest, waiting := r })
      | .entry key before k rest :: r =>
        .ok (.inl { c with task := .entries key (before ++ [(k, v)]) rest, waiting := r })
      | [] =>
        match c.left with
        -- The string is done with: its value is written, and no reference is on its way.
        | l :: r => .ok (.inl ⟨.next, c.tree.putAt v l, r, [], []⟩)
        | [] => .ok (.inr c.tree)

variable {σ : Scope} {t : Tree} {left : List Location} {stack : List String} {key : String}

/-! ### What a placeholder leads to -/

/-- A placeholder whose reference is listed has the value that it leads to. -/
theorem value?_eq_find {p : Placeholder}
    (hp : p.kind = .configuration → p.identifier ∈ t.references) :
    σ.value? (σ.reference? t t.references stack) key p =
      match σ.find t stack key p with
      | .inl found => .ok found
      | .inr v =>
        (σ.substituteValue (σ.reference? t t.references (p.identifier :: stack)) p.identifier v).map
          some := by
  cases hkind : p.kind with
  | environment | constant => simp only [value?, find, hkind]
  | configuration =>
    simp only [value?, find, hkind]
    rw [reference?_eq]
    by_cases hkey : p.identifier = key
    · rw [if_pos hkey, if_pos (Or.inl hkey)]
    · rw [if_neg hkey]
      by_cases hstack : p.identifier ∈ stack
      · rw [if_neg (fun h ↦ h.2 hstack), if_pos (Or.inr hstack)]
      · rw [if_pos ⟨hp hkind, hstack⟩, if_neg (not_or.2 ⟨hkey, hstack⟩)]
        cases t.get? p.identifier with
        | none => rfl
        | some v =>
          dsimp only
          cases σ.substituteValue _ p.identifier v <;> rfl

/-- What leads on is a reference that is not on its way. -/
theorem of_find_eq_inr {p : Placeholder} {v : Value} (h : σ.find t stack key p = .inr v) :
    p.kind = .configuration ∧ p.identifier ∉ stack ∧ t.get? p.identifier = some v := by
  cases hkind : p.kind with
  | environment | constant =>
    simp only [find, hkind] at h
    cases h
  | configuration =>
    simp only [find, hkind] at h
    split at h
    · cases h
    · rename_i hnew
      split at h
      · rename_i w hget
        obtain rfl := Sum.inr.inj h
        exact ⟨rfl, fun hmem ↦ hnew (Or.inr hmem), hget⟩
      · cases h

/-! ### What the resolver works out -/

/-- The resolver works out what references that are not on their way lead to. -/
def ComputesBelow (σ : Scope) (t : Tree) (left : List Location) (stack : List String) : Prop :=
  ∀ path ∈ t.references, path ∉ stack → ∀ v, v.references ⊆ t.references → ∀ waiting,
    σ.resolver.Computes ⟨.value path v, t, left, path :: stack, waiting⟩
      (σ.substituteValue (σ.reference? t t.references (path :: stack)) path v)
      fun w ↦ ⟨.answer w, t, left, path :: stack, waiting⟩

/-- A placeholder that leads on, with what it leads to given to whatever waits for it. -/
theorem computes_find (hbelow : ComputesBelow σ t left stack) {p : Placeholder} {v : Value}
    {β : Type} {f : Value → Except LoadError β} {k : β → Substitution} {c : Substitution}
    (frame : SubstitutionFrame) {waiting : List SubstitutionFrame}
    (hp : p.kind = .configuration → p.identifier ∈ t.references)
    (hfind : σ.find t stack key p = .inr v)
    (hstep : σ.resolver.step c = .ok (.inl
      ⟨.value p.identifier v, t, left, p.identifier :: stack, frame :: waiting⟩))
    (hframe : ∀ w, σ.resolver.step
        ⟨.answer w, t, left, p.identifier :: stack, frame :: waiting⟩ =
      f w >>= fun b ↦ .ok (.inl (k b))) :
    σ.resolver.Computes c
      (σ.substituteValue (σ.reference? t t.references (p.identifier :: stack)) p.identifier v >>= f)
      k := by
  obtain ⟨hkind, hstack, hget⟩ := of_find_eq_inr hfind
  have hv : v.references ⊆ t.references :=
    Value.references_subset (Tree.strings_subset_of_get? hget)
  refine .of_step hstep ?_
  exact (hbelow p.identifier (hp hkind) hstack v hv _).bind fun w _ ↦ .of_stage (hframe w)

/-- The next piece of a text. -/
theorem computes_pieceText (hbelow : ComputesBelow σ t left stack) (key before : String)
    {piece : Piece} {r : List Piece} {waiting : List SubstitutionFrame}
    (hps : ∀ path, .placeholder ⟨.configuration, path⟩ ∈ piece :: r → path ∈ t.references) :
    σ.resolver.Computes ⟨.pieces key before (piece :: r), t, left, stack, waiting⟩
      (σ.pieceText (σ.reference? t t.references stack) key piece)
      fun s ↦ ⟨.pieces key (before ++ s) r, t, left, stack, waiting⟩ := by
  cases piece with
  | literal text => exact .of_step rfl (.ok rfl)
  | placeholder p =>
    have hp : p.kind = .configuration → p.identifier ∈ t.references :=
      Placeholder.identifier_mem_of_piece hps List.mem_cons_self
    have htext : σ.pieceText (σ.reference? t t.references stack) key (.placeholder p) =
        σ.value? (σ.reference? t t.references stack) key p >>= σ.valueText key p := by
      rw [pieceText]
      refine congrArg _ (funext fun found ↦ ?_)
      cases found <;> rfl
    rw [htext, value?_eq_find hp]
    cases hfind : σ.find t stack key p with
    | inl found =>
      refine .of_stage ?_
      simp only [resolver, hfind]
      rfl
    | inr v =>
      dsimp only
      rw [bind_map_eq]
      refine computes_find hbelow (.piece key before p r) hp hfind ?_ fun w ↦ rfl
      simp only [resolver, hfind]

/-- The pieces of a text, one after another. -/
theorem computes_piecesText (hbelow : ComputesBelow σ t left stack) (key before : String)
    {ps : List Piece} {waiting : List SubstitutionFrame}
    (hps : ∀ path, .placeholder ⟨.configuration, path⟩ ∈ ps → path ∈ t.references) :
    σ.resolver.Computes ⟨.pieces key before ps, t, left, stack, waiting⟩
      (σ.piecesText (σ.reference? t t.references stack) key ps)
      fun s ↦ ⟨.answer (.string (before ++ s)), t, left, stack, waiting⟩ := by
  induction ps generalizing before with
  | nil => exact .of_step rfl (.ok (by rw [String.append_empty]))
  | cons piece r ih =>
    have hr : ∀ path, .placeholder ⟨.configuration, path⟩ ∈ r → path ∈ t.references :=
      fun path hpath ↦ hps path (List.mem_cons_of_mem _ hpath)
    refine (computes_pieceText hbelow key before hps).bind fun s _ ↦ ?_
    refine (ih (before ++ s) hr).bind fun rest _ ↦ .ok ?_
    rw [String.append_assoc]

/-- A text. -/
theorem computes_substitute (hbelow : ComputesBelow σ t left stack) (key text : String)
    {waiting : List SubstitutionFrame} (htext : Placeholder.references text ⊆ t.references) :
    σ.resolver.Computes ⟨.value key (.string text), t, left, stack, waiting⟩
      (σ.substitute (σ.reference? t t.references stack) key text)
      fun w ↦ ⟨.answer w, t, left, stack, waiting⟩ := by
  have hps : ∀ path, .placeholder ⟨.configuration, path⟩ ∈ Placeholder.ofString text →
      path ∈ t.references :=
    fun path hpath ↦ htext (Placeholder.mem_references.2 hpath)
  rw [substitute]
  split
  · rename_i p hlone
    have hp : p.kind = .configuration → p.identifier ∈ t.references :=
      Placeholder.identifier_mem_of_piece hps (hlone ▸ List.mem_singleton_self _)
    rw [value?_eq_find hp]
    cases hfind : σ.find t stack key p with
    | inl found =>
      cases found with
      | some w =>
        refine .of_step ?_ (.ok rfl)
        simp only [resolver, hlone, hfind]
      | none =>
        refine .of_stage ?_
        simp only [resolver, hlone, hfind]
        rfl
    | inr v =>
      dsimp only
      rw [bind_map_eq]
      refine computes_find hbelow .lone hp hfind ?_ fun w ↦ rfl
      simp only [resolver, hlone, hfind]
  · rename_i hlone
    have hstep : σ.resolver.step ⟨.value key (.string text), t, left, stack, waiting⟩ =
        .ok (.inl ⟨.pieces key "" (Placeholder.ofString text), t, left, stack, waiting⟩) := by
      simp only [resolver]
    refine .of_step hstep ((computes_piecesText hbelow key "" hps).bind fun s _ ↦ .ok ?_)
    rw [String.empty_append]

mutual

/-- **A value**, along its structure. -/
theorem computes_value (hbelow : ComputesBelow σ t left stack) :
    ∀ (v : Value) (key : String) (waiting : List SubstitutionFrame),
      v.references ⊆ t.references →
      σ.resolver.Computes ⟨.value key v, t, left, stack, waiting⟩
        (σ.substituteValue (σ.reference? t t.references stack) key v)
        fun w ↦ ⟨.answer w, t, left, stack, waiting⟩
  | .string text, key, waiting, h => computes_substitute hbelow key text h
  | .sequence items, key, waiting, h => by
    have hitems := computes_items hbelow items key [] waiting h
    refine .of_step rfl (hitems.bind fun items' _ ↦ .ok ?_)
    rw [List.nil_append]
  | .mapping entries, key, waiting, h => by
    have hentries := computes_entries hbelow entries key [] waiting h
    refine .of_step rfl (hentries.bind fun entries' _ ↦ .ok ?_)
    rw [List.nil_append]
  | .null, _, _, _ | .bool _, _, _, _ | .int _, _, _, _ | .float _, _, _, _
  | .tagged _ _, _, _, _ => .of_step rfl (.ok rfl)

theorem computes_items (hbelow : ComputesBelow σ t left stack) :
    ∀ (items : List Value) (key : String) (before : List Value)
      (waiting : List SubstitutionFrame), Value.itemReferences items ⊆ t.references →
      σ.resolver.Computes ⟨.items key before items, t, left, stack, waiting⟩
        (σ.substituteItems (σ.reference? t t.references stack) key items)
        fun items' ↦ ⟨.answer (.sequence (before ++ items')), t, left, stack, waiting⟩
  | [], key, before, waiting, _ => .of_step rfl (.ok (by rw [List.append_nil]))
  | v :: r, key, before, waiting, h => by
    obtain ⟨hv, hr⟩ := List.append_subset.1 h
    have hfirst := computes_value hbelow v key (.item key before r :: waiting) hv
    refine .bind (.of_step rfl (hfirst.then_step fun w _ ↦ rfl)) fun w _ ↦ ?_
    refine (computes_items hbelow r key (before ++ [w]) waiting hr).bind fun r' _ ↦ .ok ?_
    rw [List.append_assoc, List.singleton_append]

theorem computes_entries (hbelow : ComputesBelow σ t left stack) :
    ∀ (entries : List (Value × Value)) (key : String) (before : List (Value × Value))
      (waiting : List SubstitutionFrame), Value.entryReferences entries ⊆ t.references →
      σ.resolver.Computes ⟨.entries key before entries, t, left, stack, waiting⟩
        (σ.substituteEntries (σ.reference? t t.references stack) key entries)
        fun entries' ↦ ⟨.answer (.mapping (before ++ entries')), t, left, stack, waiting⟩
  | [], key, before, waiting, _ => .of_step rfl (.ok (by rw [List.append_nil]))
  | (k, v) :: r, key, before, waiting, h => by
    obtain ⟨hv, hr⟩ := List.append_subset.1 h
    have hfirst := computes_value hbelow v (key ++ pathSeparator.toString ++ k.keyText)
      (.entry key before k r :: waiting) hv
    refine .bind (.of_step rfl (hfirst.then_step fun w _ ↦ rfl)) fun w _ ↦ ?_
    refine (computes_entries hbelow r key (before ++ [(k, w)]) waiting hr).bind fun r' _ ↦ .ok ?_
    rw [List.append_assoc, List.singleton_append]

end

/-- **The resolver works every value out whose references are listed**, whatever is on its way. -/
theorem computes_value_of_subset (σ : Scope) (t : Tree) (left : List Location)
    (stack : List String) : ComputesBelow σ t left stack := by
  induction stack using unvisited_induction t.references with
  | step stack ih =>
    intro path hpath hstack v hv waiting
    exact computes_value (ih path hpath hstack) v path waiting hv

/-- The string at a place of a tree, written over with its value. -/
theorem computes_resolveAt (σ : Scope) (t : Tree) (l : Location) (r : List Location) :
    σ.resolver.Computes ⟨.next, t, l :: r, [], []⟩ (σ.resolveAt t l)
      fun t' ↦ ⟨.next, t', r, [], []⟩ := by
  rw [resolveAt]
  split
  · rename_i text hat
    have hstep : σ.resolver.step ⟨.next, t, l :: r, [], []⟩ =
        .ok (.inl ⟨.value (dottedKey l) (.string text), t, l :: r, [], []⟩) := by
      simp only [resolver, hat]
    have htext : (Value.string text).references ⊆ t.references :=
      Value.references_subset (Value.strings_subset_of_at? hat)
    have hvalue := computes_value (computes_value_of_subset σ t (l :: r) []) (.string text)
      (dottedKey l) [] htext
    exact .of_step hstep (hvalue.bind fun v _ ↦ .of_step rfl (.ok rfl))
  · rename_i hat
    have hstep : σ.resolver.step ⟨.next, t, l :: r, [], []⟩ =
        .ok (.inl ⟨.next, t, r, [], []⟩) := by
      simp only [resolver]
    exact .of_step hstep (.ok rfl)

/-- The strings at places of a tree, one after another. -/
theorem computes_resolveAll (σ : Scope) (left : List Location) (t : Tree) :
    σ.resolver.Computes ⟨.next, t, left, [], []⟩ (σ.resolveAll left t)
      fun t' ↦ ⟨.next, t', [], [], []⟩ := by
  induction left generalizing t with
  | nil => exact .ok rfl
  | cons l r ih => exact (computes_resolveAt σ t l r).bind fun t' _ ↦ ih t'

/-- **Substitution ends on every tree**, with what the recursion answers. -/
theorem ends_resolver (σ : Scope) (t : Tree) :
    σ.resolver.Ends (.start t) (σ.resolve t) :=
  (computes_resolveAll σ t.stringLocations t).ends fun _ _ ↦ rfl

end Scope

end LayeredConfig
