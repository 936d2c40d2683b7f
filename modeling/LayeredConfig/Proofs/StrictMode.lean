import LayeredConfig.Loader
import LayeredConfig.Proofs.Import.Strictness
import LayeredConfig.Store.Memory

/-!
# Strict mode only adds failures

Loading in strict mode and loading without it go the same way until a placeholder without a value
stops the strict load. Placeholders are substituted at two stages, in the paths of imports
(`Sources.lockstep_assembleEntry`) and in the assembled tree (`Scope.lockstep_resolve`). All that
comes after depends on the tree alone, and fails for causes of its own.
-/

namespace LayeredConfig

/-! ### Behind the substitution -/

theorem Tree.failsOnlyWith_takeProcessors (t : Tree) :
    FailsOnlyWith (fun e ↦ ∃ reason, e = .invalidProcessor reason) t.takeProcessors := by
  rw [takeProcessors]
  split
  · exact .ok _
  · split
    · exact .ok _
    · exact .error ⟨_, rfl⟩

/-- A chain that fails says which processor failed, whatever the reason of the processor was. -/
theorem Processor.failsOnlyWith_runChain (t : Tree) (ps : List Processor) :
    FailsOnlyWith (fun e ↦ ∃ p ∈ ps, ∃ reason, e = .processorFailed p.name reason)
      (runChain t ps) := by
  induction ps generalizing t with
  | nil => exact .ok t
  | cons p r ih =>
    rw [runChain]
    split
    · rename_i t' _
      intro e he
      obtain ⟨q, hq, reason, rfl⟩ := ih t' e he
      exact ⟨q, List.mem_cons_of_mem p hq, reason, rfl⟩
    · exact .error ⟨p, List.mem_cons_self, _, rfl⟩

namespace Loader

/-- The loader with strict mode as given. -/
def withStrict (l : Loader) (strict : Bool) : Loader :=
  { l with strict := strict }

/-- The causes in `F` include all but placeholders without a value that can end a load. -/
structure Admits (l : Loader) (F : LoadError → Prop) : Prop where
  /-- Assembling may fail. -/
  sources : l.sources.Admits F
  /-- The list of processors may be at fault. -/
  declaration : ∀ reason, F (.invalidProcessor reason)
  /-- A processor may fail. -/
  processor : ∀ name reason, F (.processorFailed name reason)

variable {l : Loader} {F : LoadError → Prop}

theorem lockstep_finish (hF : (l.withStrict true).Admits F) (t : Tree) :
    Lockstep LoadError.IsUnresolved F ((l.withStrict true).finish t)
      ((l.withStrict false).finish t) := by
  refine .bind ((Scope.lockstep_resolve t).mono fun e he ↦ hF.sources.path e (.inl he))
    fun resolved ↦ .refl ?_
  refine .bind ?_ fun declared ↦ ?_
  · intro e he
    obtain ⟨reason, rfl⟩ := Tree.failsOnlyWith_takeProcessors _ e he
    exact hF.declaration reason
  · intro e he
    obtain ⟨p, -, reason, rfl⟩ := Processor.failsOnlyWith_runChain _ _ e he
    exact hF.processor p.name reason

/-- **A strict load answers what a lenient one does**, or is stopped by a placeholder without a
value. -/
theorem lockstep_load (hF : (l.withStrict true).Admits F) :
    Lockstep LoadError.IsUnresolved F (l.withStrict true).load (l.withStrict false).load := by
  refine .bind (Sources.lockstep_assembleEntry hF.sources l.entry false) fun a ↦ ?_
  exact .bind (lockstep_finish hF a.tree) fun _ ↦ .ok _

/-- Every load admits all causes. -/
theorem admits_true (l : Loader) : l.Admits fun _ ↦ True where
  sources :=
    { path := fun _ _ ↦ trivial
      document := fun _ _ ↦ trivial
      defaults := fun _ _ _ _ ↦ trivial
      missing := fun _ _ ↦ trivial
      circular := fun _ ↦ trivial }
  declaration _ := trivial
  processor _ _ := trivial

/-- Where the default layer fails only as a document does, no cause but the substitution itself is a
placeholder without a value. -/
theorem admits_not_isUnresolved (hdefaults : ∀ layer ∈ l.defaults, layer.FailsAsDocument) :
    l.Admits fun e ↦ ¬e.IsUnresolved := by
  have hdocument : ∀ e : LoadError, e.IsDocumentFault → ¬e.IsUnresolved := by
    rintro _ ⟨⟩ ⟨_, _, ⟨⟩⟩
  constructor
  case sources =>
    constructor
    case path =>
      rintro _ (⟨_, _, rfl⟩ | rfl) ⟨_, _, ⟨⟩⟩
    case document =>
      exact hdocument
    case defaults =>
      exact fun layer hlayer e he ↦ hdocument e (hdefaults layer hlayer e he)
    case missing =>
      rintro _ _ ⟨_, _, ⟨⟩⟩
    case circular =>
      rintro _ ⟨_, _, ⟨⟩⟩
  case declaration =>
    rintro _ ⟨_, _, ⟨⟩⟩
  case processor =>
    rintro _ _ ⟨_, _, ⟨⟩⟩

/-- **Strict mode only adds failures.** What a strict load answers, the lenient one answers too,
the tree and the documents alike; a failure of the strict load for any other cause than a
placeholder without a value is the failure of the lenient load; and the lenient load never fails
for that cause. -/
theorem strict_only_adds_failures (l : Loader) :
    (∀ a, (l.withStrict true).load = .ok a → (l.withStrict false).load = .ok a) ∧
    (∀ e, (l.withStrict true).load = .error e → ¬e.IsUnresolved →
      (l.withStrict false).load = .error e) ∧
    ((∀ layer ∈ l.defaults, layer.FailsAsDocument) → ∀ placeholder key,
      (l.withStrict false).load ≠ .error (.unresolvedPlaceholder placeholder key)) := by
  have hlockstep := lockstep_load (l := l) (admits_true _)
  refine ⟨fun a h ↦ hlockstep.eq_ok h, fun e h he ↦ hlockstep.eq_error h he, ?_⟩
  intro hdefaults placeholder key h
  have hlenient := lockstep_load (l := l) (admits_not_isUnresolved hdefaults)
  exact hlenient.failsOnlyWith _ h ⟨placeholder, key, rfl⟩

/-- A loader of a document in memory, beside which there is a document to import. -/
def inMemory (text : String) : Loader :=
  { Loader.ofEntry ⟨"/etc/app.yaml"⟩
      (MemoryStore.ofList [(⟨"/etc/app.yaml"⟩, text), (⟨"/srv/base.yaml"⟩, "name: base\n")]).reader
      (fun name ↦ if name = "ROOT" then some "/srv" else none) (some ⟨"/home"⟩) with
    defaults := some (.fixed [(.string "port", .int 80)]) }

theorem strict_only_adds_failures_inMemory :
    ((inMemory "imports: \"%env(ROOT)%/base.yaml\"\ncopy: \"%conf(name)%\"\n").withStrict
        false).load =
      .ok ⟨[(.string "port", .int 80), (.string "name", .string "base"),
          (.string "copy", .string "base")],
        [⟨⟨"/etc/app.yaml"⟩, .entry, 0⟩, ⟨⟨"<static defaults>"⟩, .default, 0⟩,
          ⟨⟨"/srv/base.yaml"⟩, .imported, 1⟩]⟩ ∧
    ((inMemory "list: [1]\ntext: \"a%conf(list)%\"\n").withStrict false).load =
      .error (.nonScalarInterpolation "%conf(list)%" "text") ∧
    (withStrict { inMemory "imports: \"~/base.yaml\"\n" with home := none } false).load =
      .error .homeNotFound ∧
    ∀ placeholder key, ((inMemory "text: \"%env(NONE)%\"\n").withStrict false).load ≠
      .error (.unresolvedPlaceholder placeholder key) := by
  refine ⟨?_, ?_, ?_, ?_⟩
  · exact (strict_only_adds_failures _).1 _ (by decide +kernel)
  · refine (strict_only_adds_failures _).2.1 _ (by decide +kernel) ?_
    rintro ⟨_, _, ⟨⟩⟩
  · refine (strict_only_adds_failures _).2.1 _ (by decide +kernel) ?_
    rintro ⟨_, _, ⟨⟩⟩
  · refine (strict_only_adds_failures _).2.2 ?_
    rintro _ ⟨⟩
    exact DefaultLayer.failsAsDocument_fixed _

end Loader

end LayeredConfig
