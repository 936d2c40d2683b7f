import LayeredConfig.Proofs.Stages
import LayeredConfig.Proofs.Tree.WellFormed
import LayeredConfig.Yaml.Document

/-!
# Values of YAML documents are well-formed

The value of a document is made node by node. Making a mapping refuses a key that is there already,
so that no mapping of the value has a key twice (`wellFormed_of_read`), neither those among the
values nor those among the keys. Aliases do not matter: an alias stands for a value that is made in
the same way.

The values are made by computations that count (`Following`). What such a computation answers is
told by `Following.Yields`, which passes from the steps of a computation to the whole.
-/

namespace LayeredConfig

namespace Yaml

/-! ### What a computation answers -/

namespace Following

variable {α β : Type} {P : α → Prop} {Q : β → Prop} {x : Following α} {f : α → Following β}

/-- Whatever the computation answers, `P` holds of it. -/
def Yields (P : α → Prop) (x : Following α) : Prop :=
  ∀ n a n', x.run n = .ok (a, n') → P a

theorem Yields.trivial (x : Following α) : x.Yields fun _ ↦ True :=
  fun _ _ _ _ ↦ True.intro

theorem Yields.pure {a : α} (h : P a) : Yields P (Pure.pure a) := by
  rintro n a n' ⟨⟩
  exact h

theorem Yields.throw (e : Fault) : Yields P (throw e : Following α) := by
  rintro n a n' ⟨⟩

theorem Yields.lift {x : Except Fault α} (h : ∀ a, x = .ok a → P a) :
    Yields P (liftM x : Following α) := by
  intro n a n' hx
  cases x with
  | error e => cases hx
  | ok b =>
    cases hx
    exact h a rfl

theorem Yields.bind (hx : Yields P x) (hf : ∀ a, P a → Yields Q (f a)) : Yields Q (x >>= f) := by
  intro n b n' h
  obtain ⟨⟨a, m⟩, ha, hb⟩ := bind_eq_ok_iff.1 h
  exact hf a (hx n a m ha) m b n' hb

theorem Yields.mapM {f : β → Following α} (hf : ∀ b, Yields P (f b)) (l : List β) :
    Yields (fun r ↦ ∀ a ∈ r, P a) (l.mapM f) := by
  induction l with
  | nil => exact .pure (by simp)
  | cons b l ih =>
    rw [List.mapM_cons]
    refine .bind (hf b) fun a ha ↦ .bind ih fun r hr ↦ .pure ?_
    exact List.forall_mem_cons.2 ⟨ha, hr⟩

end Following

open Following

/-! ### Scalars -/

theorem wellFormed_of_plainValue {text : String} {v : Value} (h : plainValue text = .ok v) :
    v.WellFormed := by
  rw [plainValue] at h
  split at h <;> cases h <;> trivial

theorem wellFormed_of_integerValue? {text : String} {v : Value}
    (h : integerValue? text = some v) : v.WellFormed := by
  unfold integerValue? at h
  split at h <;> cases h
  trivial

theorem wellFormed_of_untaggedValue {isPlain : Bool} {text : String} {v : Value}
    (h : untaggedValue isPlain text = .ok v) : v.WellFormed := by
  rw [untaggedValue] at h
  split at h
  · exact wellFormed_of_plainValue h
  · cases h
    trivial

theorem wellFormed_of_coreValue {tag : Tag} {text : String} {v : Value}
    (h : coreValue tag text = .ok v) : v.WellFormed := by
  unfold coreValue at h
  dsimp only at h
  split at h
  · rename_i w hw
    obtain rfl : w = v := by simpa using h
    split at hw
    · split at hw <;> cases hw
      trivial
    · split at hw
      · obtain ⟨b, -, rfl⟩ := Option.map_eq_some_iff.1 hw
        trivial
      · split at hw
        · exact wellFormed_of_integerValue? hw
        · split at hw
          · obtain ⟨x, -, rfl⟩ := Option.map_eq_some_iff.1 hw
            trivial
          · cases hw
            trivial
  · cases h

theorem wellFormed_of_scalarValue {tag : Option Tag} {isPlain : Bool} {text : String} {v : Value}
    (h : scalarValue tag isPlain text = .ok v) : v.WellFormed := by
  unfold scalarValue at h
  split at h
  · exact wellFormed_of_untaggedValue h
  · split at h
    · exact wellFormed_of_untaggedValue h
    · exact wellFormed_of_coreValue h

/-! ### Nodes -/

variable {value : Node → Following Value}

/-- **No mapping gets a key twice**: a key that is there already is refused. -/
theorem yields_entryValues (hvalue : ∀ node, (value node).Yields Value.WellFormed)
    {entries : List (Node × Node)} {before : Tree} (hbefore : before.WellFormed) :
    (entryValues value before entries).Yields Tree.WellFormed := by
  induction entries generalizing before with
  | nil => exact .pure hbefore
  | cons e r ih =>
    obtain ⟨k, v⟩ := e
    refine .bind (hvalue k) fun key hkey ↦ ?_
    by_cases hnew : before.contains key = true
    · rw [if_pos hnew]
      exact .bind (P := fun _ ↦ False) (.throw _) fun _ h ↦ h.elim
    · rw [if_neg hnew]
      refine .bind (hvalue v) fun w hw ↦ ih ?_
      rw [← Tree.insert_of_contains_eq_false (by simpa using hnew)]
      exact hbefore.insert hkey hw

theorem yields_contentValue {below : Option (Node → Following Value)}
    (hbelow : ∀ value ∈ below, ∀ node, (value node).Yields Value.WellFormed) (node : Node) :
    (contentValue below node).Yields Value.WellFormed := by
  match node, below with
  | .alias _, _ | .sequence _ _, none | .mapping _ _, none => exact .throw _
  | .scalar _ _ _, _ => exact .lift fun _ h ↦ wellFormed_of_scalarValue h
  | .sequence _ items, some value =>
    refine .bind (.mapM (hbelow value rfl) items) fun vs hvs ↦ .pure ?_
    exact Value.wellFormedItems_iff.2 hvs
  | .mapping _ entries, some value =>
    exact .bind (yields_entryValues (hbelow value rfl) Tree.wellFormed_nil) fun _ ht ↦ .pure ht

theorem yields_taggedValue {aliases : Aliases} {below : Option (Node → Following Value)}
    (hbelow : ∀ value ∈ below, ∀ node, (value node).Yields Value.WellFormed) (node : Node) :
    (taggedValue aliases below node).Yields Value.WellFormed := by
  refine .bind (.trivial _) fun target _ ↦ .bind (yields_contentValue hbelow target) fun v hv ↦ ?_
  split
  · exact .pure hv
  · exact .pure hv

/-- The value of a node is well-formed, however deep collections may nest in it. -/
theorem yields_nodeValue {aliases : Aliases} (depth : Nat) (node : Node) :
    (nodeValue aliases depth node).Yields Value.WellFormed := by
  induction depth generalizing node with
  | zero => exact yields_taggedValue (by simp) node
  | succ depth ih =>
    refine yields_taggedValue (fun value hvalue ↦ ?_) node
    obtain rfl := Option.some.inj hvalue
    exact ih

/-- **The value of a YAML text is well-formed.** -/
theorem wellFormed_of_read {text : String} {v : Value} (h : read text = .ok v) : v.WellFormed := by
  obtain ⟨tokens, -, h⟩ := bind_eq_ok_iff.1 h
  obtain ⟨root, -, h⟩ := bind_eq_ok_iff.1 h
  obtain ⟨⟨w, n⟩, hrun, h⟩ := bind_eq_ok_iff.1 h
  obtain rfl : w = v := by simpa using h
  exact yields_nodeValue maxDepth root 0 w n hrun

end Yaml

end LayeredConfig
