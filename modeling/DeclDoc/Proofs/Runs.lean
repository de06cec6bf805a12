import DeclDoc.Proofs.Acceptance
import DeclDoc.Proofs.Finalize

/-!
# Runs

A run reads one file after the other into an empty store, each as its `Call` says. Of every file some
entities are accepted (`Call.accepted`); which ones depends on the call alone.

* `Call.holds_readAll`: the store of a run holds what was accepted in its calls, one after the other.
* `run_tells_accepted`: once its categories are settled, it says at every path what the declarations
  accepted for that path say together, in their order, and its summaries count them.
-/

set_option autoImplicit false

namespace DeclDoc

namespace Extraction

/-- The entities that the walk of a file hands out. There are none in a file that is left out or
cannot be read. -/
def entitiesOf (extraction : Extraction) (path : String) (source : List Char) : List Entity :=
  if !extraction.settings.includesPath path then []
  else
    match extraction.frontEnd.translate extraction.settings.compilerArguments path source with
    | .error _ => []
    | .ok unit => (unit.steps (.ofText path source)).filterMap (·.2)

/-- Those of them that go into a store. -/
def acceptedOf (extraction : Extraction) (path : String) (source : List Char) : List Accepted :=
  Slot.acceptAll extraction.settings extraction.dialect {} (extraction.entitiesOf path source)

end Extraction

theorem TranslationUnit.flavor_of_mem_steps {unit : TranslationUnit} {file : SourceFile}
    {step : List Diagnostic × Option Entity} (h : step ∈ unit.steps file) {found : Entity}
    (hfound : step.2 = some found) : found.flavor.isSome = true ↔ found.kind = .method := by
  unfold steps at h
  split at h
  · cases h
  · next diagnostics entity rest hsteps =>
    rcases List.mem_cons.1 h with rfl | h
    · have hmem : (diagnostics, entity) ∈ (Walk.ofCursors unit.cursors).steps file :=
        hsteps ▸ List.mem_cons_self
      exact Walk.flavor_of_mem_steps hmem hfound
    · have hmem : step ∈ (Walk.ofCursors unit.cursors).steps file :=
        hsteps ▸ List.mem_cons_of_mem _ h
      exact Walk.flavor_of_mem_steps hmem hfound

namespace Extraction

/-- What reading a file comes to: the store takes what is accepted of it, and the summary counts that
and all its entities. -/
theorem readSource_takes (extraction : Extraction) {store : Store} (h : store.Keyed) (path : String)
    (source : List Char) :
    store.TakesAll (extraction.acceptedOf path source)
        (extraction.readSource store path source).store ∧
      ∀ summary, (extraction.readSource store path source).outcome = .ok summary →
        summary.entities = (extraction.acceptedOf path source).length ∧
        summary.total = (extraction.entitiesOf path source).length := by
  by_cases hp : extraction.settings.includesPath path = true
  · cases hu : extraction.frontEnd.translate extraction.settings.compilerArguments path source with
    | error fault =>
      simp only [readSource, acceptedOf, entitiesOf, hp, hu, Slot.acceptAll, Bool.not_true,
        Bool.false_eq_true, if_false]
      exact ⟨.nil, fun summary hs => by cases hs⟩
    | ok unit =>
      have hopened : Reading.Follows store
          { store, log := [.note .debug (topLevelNote path extraction.frontEnd unit)] } {} [] 0 :=
        .begin h rfl rfl rfl rfl
      have hdone := hopened.foldl_readStep extraction.settings extraction.dialect
        (unit.steps (.ofText path source)) fun step hstep entity => unit.flavor_of_mem_steps hstep
      simp only [readSource, acceptedOf, entitiesOf, hp, hu, Bool.not_true, Bool.false_eq_true,
        if_false]
      refine ⟨hdone.takes, ?_⟩
      intro summary hs
      cases hs
      exact ⟨hdone.entities, hdone.total.trans (Nat.zero_add _)⟩
  · simp only [readSource, acceptedOf, entitiesOf, hp, Slot.acceptAll, Bool.not_false, if_true]
    refine ⟨.nil, ?_⟩
    intro summary hs
    cases hs
    exact ⟨rfl, rfl⟩

/-- A store that holds something holds after a file what is accepted of it as well, and the summary
counts that and all its entities. -/
theorem readSource_holds (extraction : Extraction) {store : Store} {before : List Accepted}
    (h : store.Holds before) (path : String) (source : List Char) :
    (extraction.readSource store path source).store.Holds
        (before ++ extraction.acceptedOf path source) ∧
      ∀ summary, (extraction.readSource store path source).outcome = .ok summary →
        summary.entities = (extraction.acceptedOf path source).length ∧
        summary.total = (extraction.entitiesOf path source).length := by
  obtain ⟨htakes, hcounts⟩ := extraction.readSource_takes h.keyed path source
  exact ⟨h.takesAll htakes, hcounts⟩

/-- Nothing is accepted of a file that is left out or cannot be read. -/
theorem acceptedOf_eq_nil {extraction : Extraction} {store : Store} {path : String}
    {source : List Char}
    (h : extraction.settings.includesPath path = false ∨
      ∃ fault, (extraction.readSource store path source).outcome = .error fault) :
    extraction.acceptedOf path source = [] := by
  have hnone : extraction.entitiesOf path source = [] := by
    cases hp : extraction.settings.includesPath path with
    | false => simp only [entitiesOf, hp, Bool.not_false, if_true]
    | true =>
      cases hu : extraction.frontEnd.translate extraction.settings.compilerArguments path source with
      | error fault => simp only [entitiesOf, hp, hu, Bool.not_true, Bool.false_eq_true, if_false]
      | ok unit =>
        rcases h with h | ⟨fault, h⟩
        · rw [hp] at h
          cases h
        · simp only [readSource, hp, hu, Bool.not_true, Bool.false_eq_true, if_false] at h
          cases h
  rw [acceptedOf, hnone, Slot.acceptAll]

end Extraction

/-- One file to be read, and how. -/
structure Call where
  extraction : Extraction
  path : String
  source : List Char

namespace Call

def entities (call : Call) : List Entity := call.extraction.entitiesOf call.path call.source

def accepted (call : Call) : List Accepted := call.extraction.acceptedOf call.path call.source

def read (call : Call) (store : Store) : FileResult :=
  call.extraction.readSource store call.path call.source

/-- Reads one file after the other. A file that cannot be read does not stop the run. -/
def readAll (calls : List Call) (store : Store) : Store :=
  calls.foldl (fun store call => (call.read store).store) store

/-- A store holds what was accepted in its calls, one after the other. -/
theorem holds_readAll (calls : List Call) {store : Store} {before : List Accepted}
    (h : store.Holds before) :
    (readAll calls store).Holds (before ++ calls.flatMap accepted) := by
  induction calls generalizing store before with
  | nil => rwa [List.flatMap_nil, List.append_nil]
  | cons call rest ih =>
    rw [List.flatMap_cons, ← List.append_assoc]
    exact ih (call.extraction.readSource_holds h call.path call.source).1

/-- What a run from the empty store holds. -/
theorem holds_readAll_empty (calls : List Call) :
    (readAll calls {}).Holds (calls.flatMap accepted) :=
  holds_readAll calls .empty

end Call

/-- A run from the empty store, settled: a path leads to a node exactly when an entity was accepted
for a path that leads there, and the node says what those entities say together, in their order. On
the way every summary counts what its file brought, and a file that is left out or cannot be read
brings nothing and leaves the store as it was. -/
theorem run_tells_accepted (calls : List Call) :
    (∀ path,
      (((Call.readAll calls {}).finalize.infoAt? path).isSome = true ↔
        ∃ a ∈ calls.flatMap Call.accepted,
          a.path.home (declaresClass (calls.flatMap Call.accepted)) = path) ∧
      ∀ info, (Call.readAll calls {}).finalize.infoAt? path = some info →
        info.Summarizes (settledAt (calls.flatMap Call.accepted) path)) ∧
    ∀ (done : List Call) (call : Call),
      (∀ summary, (call.read (Call.readAll done {})).outcome = .ok summary →
        summary.entities = call.accepted.length ∧
        summary.entities + summary.filtered + summary.skipped = call.entities.length) ∧
      (call.extraction.settings.includesPath call.path = false ∨
          (∃ fault, (call.read (Call.readAll done {})).outcome = .error fault) →
        call.accepted = [] ∧ (call.read (Call.readAll done {})).store = Call.readAll done {}) := by
  have hholds := Call.holds_readAll_empty calls
  refine ⟨fun path => ⟨?_, ?_⟩, fun done call => ⟨?_, ?_⟩⟩
  · exact hholds.isSome_infoAt?_finalize_iff path
  · intro info hinfo
    have := hholds.tells_finalize path
    rwa [hinfo] at this
  · intro summary hs
    exact (call.extraction.readSource_holds (Call.holds_readAll_empty done) call.path
      call.source).2 summary hs
  · intro h
    refine ⟨Extraction.acceptedOf_eq_nil h, ?_⟩
    rcases h with h | ⟨fault, h⟩
    · exact Extraction.store_readSource_of_excluded h
    · exact Extraction.store_readSource_of_error h

end DeclDoc
