import DeclDoc.Comment.Draft
import DeclDoc.Entity.Walk
import DeclDoc.FrontEnd
import DeclDoc.Settings
import DeclDoc.Store.Documented

/-! # Extraction

An extraction reads files into a store. Every entity of a file goes past the filters, has its comment
read, and then goes where its kind belongs: a container opens, a member goes into the open container,
all else stands at the root. What is said on the way goes into a log.
-/

set_option autoImplicit false

namespace DeclDoc

/-! ## Log -/

inductive LogLevel where
  | debug
  | info
  | warning
  | error
deriving DecidableEq, Repr

/-- What an extraction says: a diagnostic, or a note on its progress. -/
inductive LogEntry where
  | diagnostic (diagnostic : Diagnostic)
  | note (level : LogLevel) (text : String)
deriving DecidableEq, Repr

/-! ## Reading a file -/

/-- How many entities of a file went into the store, were filtered out, and were given up. -/
structure Summary where
  entities : Nat := 0
  filtered : Nat := 0
  skipped : Nat := 0
deriving DecidableEq, Repr, Inhabited

structure OpenContainer where
  target : ContainerRef
  kind : Kind
  name : String
deriving DecidableEq, Repr

/-- The state of reading one file: the open container and the group its members go to. -/
structure Reading where
  store : Store
  container : Option OpenContainer := none
  group : Option String := none
  summary : Summary := {}
  log : List LogEntry := []

namespace Reading

/-- Says a diagnostic and keeps it in the store, unless it is a trace. -/
def emit (reading : Reading) (diagnostic : Diagnostic) : Reading :=
  { reading with
    log := reading.log ++ [.diagnostic diagnostic]
    store :=
      if diagnostic.severity.isKept then reading.store.report diagnostic else reading.store }

def warn (reading : Reading) (location : Location) (message : String) : Reading :=
  reading.emit { severity := .warning, location := some location, message }

def trace (reading : Reading) (location : Location) (message : String) : Reading :=
  reading.emit { severity := .trace, location := some location, message }

def note (reading : Reading) (level : LogLevel) (text : String) : Reading :=
  { reading with log := reading.log ++ [.note level text] }

def openContainer (reading : Reading) (container : OpenContainer) : Reading :=
  { reading with container := some container, group := none }

def closeContainer (reading : Reading) : Reading :=
  { reading with container := none, group := none }

/-- Closes the open container where `kind` would have opened another one. -/
def closeFor (reading : Reading) (kind : Kind) : Reading :=
  if kind.isContainer || kind.isCategoryLike then reading.closeContainer else reading

def countEntity (reading : Reading) : Reading :=
  { reading with summary := { reading.summary with entities := reading.summary.entities + 1 } }

def countFiltered (reading : Reading) : Reading :=
  { reading with summary := { reading.summary with filtered := reading.summary.filtered + 1 } }

def countSkipped (reading : Reading) : Reading :=
  { reading with summary := { reading.summary with skipped := reading.summary.skipped + 1 } }

/-! ### Where entities go -/

def insertRoot (reading : Reading) (entity : Entity) (comment : Option Comment) : Reading :=
  { reading with store := reading.store.insertRoot (.ofEntity entity comment) }.countEntity

def insertContainer (reading : Reading) (entity : Entity) (comment : Option Comment) : Reading :=
  (reading.insertRoot entity comment).openContainer
    ⟨.root entity.key, entity.kind, entity.name⟩

def insertCategory (reading : Reading) (entity : Entity) (comment : Option Comment) : Reading :=
  match entity.baseClass with
  | none =>
    ((reading.warn entity.location
      (entity.kind.name ++ " " ++ entity.name ++ " has no base class")).closeContainer).countSkipped
  | some base =>
    ({ reading with
      store := reading.store.insertCategory base (.ofEntity entity comment) }.countEntity).openContainer
        ⟨.pending ⟨base, entity.key⟩, entity.kind, entity.name⟩

/-- The open container, if a member belongs to it. -/
def targetOf? (reading : Reading) (entity : Entity) : Option ContainerRef :=
  (reading.container.filter fun container =>
    container.kind.accepts entity.kind &&
      entity.parent.any fun parent =>
        parent.kind == container.kind && parent.name == container.name).map OpenContainer.target

/-- A member other than a value goes to the group that was opened last in its container. -/
def enterGroup (reading : Reading) (entity : Entity) : Reading × Entity :=
  if entity.kind = .enumValue then (reading, entity)
  else
    let group := entity.group.or reading.group
    ({ reading with group }, { entity with group })

def insertMember (reading : Reading) (entity : Entity) (comment : Option Comment) : Reading :=
  match reading.targetOf? entity with
  | none =>
    (reading.warn entity.location
      (entity.kind.name ++ " " ++ entity.name ++ " has no enclosing container")).countSkipped
  | some target =>
    let (reading, entity) := reading.enterGroup entity
    match reading.store.insertChild? target (.ofEntity entity comment) with
    | some store => { reading with store }.countEntity
    | none => reading.countSkipped

/-- Puts an entity where its kind belongs. -/
def insert (reading : Reading) (entity : Entity) (comment : Option Comment) : Reading :=
  match entity.kind with
  | .interface | .protocol | .enumeration => reading.insertContainer entity comment
  | .category | .classExtension => reading.insertCategory entity comment
  | .method | .property | .enumValue => reading.insertMember entity comment
  | .function | .typedef | .constant | .struct | .union | .macroDefinition =>
    reading.insertRoot entity comment
  | .unknown =>
    (reading.trace entity.location ("unknown declaration " ++ entity.name ++ " skipped")).countSkipped

/-! ### Entities -/

/-- An entity whose kind is left out. -/
def filterOut (reading : Reading) (entity : Entity) : Reading :=
  ((reading.countFiltered.closeFor entity.kind).trace entity.location
    (entity.kind.name ++ " " ++ entity.name ++ " excluded by kind filter"))

/-- An entity whose comment cannot be read. -/
def giveUp (reading : Reading) (entity : Entity) (fault : Comment.Malformed) : Reading :=
  ((reading.warn entity.location
    (entity.kind.name ++ " " ++ entity.name ++ " skipped: " ++ fault.message)).countSkipped).closeFor
      entity.kind

def readEntity (settings : Settings) (comments : Comment.Reader) (reading : Reading)
    (entity : Entity) : Reading :=
  if !settings.includesKind entity.kind then reading.filterOut entity
  else if entity.rawComment.isEmpty then reading.insert entity none
  else
    match comments.read entity.rawComment with
    | .error fault => reading.giveUp entity fault
    | .ok parsed =>
      (parsed.warnings.foldl (fun reading warning => reading.warn entity.location warning)
        reading).insert entity (some parsed.comment)

/-- One step of a walk: its warnings first, then its entity. -/
def readStep (settings : Settings) (comments : Comment.Reader) (reading : Reading)
    (step : List Diagnostic × Option Entity) : Reading :=
  let warned := step.1.foldl emit reading
  match step.2 with
  | some entity => readEntity settings comments warned entity
  | none => warned

end Reading

/-! ## Runs -/

/-- How files are read; `dialect` reads their comments. -/
structure Extraction where
  settings : Settings := {}
  dialect : Comment.Reader := .markup
  frontEnd : FrontEnd := .scanner

/-- What reading a file comes to, the store after it and the log. -/
structure FileResult where
  outcome : Except FileError Summary
  store : Store
  log : List LogEntry := []

/-- The steps of a file's walk; the front-end's diagnostics come before the first. -/
def TranslationUnit.steps (unit : TranslationUnit) (file : SourceFile) :
    List (List Diagnostic × Option Entity) :=
  match (Walk.ofCursors unit.cursors).steps file with
  | [] => []
  | (diagnostics, entity) :: rest => (unit.diagnostics ++ diagnostics, entity) :: rest

namespace Extraction

def topLevelNote (path : String) (frontEnd : FrontEnd) (unit : TranslationUnit) : String :=
  path ++ ": " ++ toString unit.cursors.length ++ " top-level cursors from " ++ frontEnd.name

def summaryNote (path : String) (summary : Summary) : String :=
  path ++ ": " ++ toString summary.entities ++ " entities, " ++ toString summary.filtered ++
    " filtered, " ++ toString summary.skipped ++ " skipped"

/-- Reads the text of a file into a store. A file that is left out or cannot be read adds nothing. -/
def readSource (extraction : Extraction) (store : Store) (path : String) (source : List Char) :
    FileResult :=
  if !extraction.settings.includesPath path then
    { outcome := .ok {}
      store
      log :=
        [.diagnostic { severity := .trace, message := path ++ ": excluded by path filter" }] }
  else
    match extraction.frontEnd.translate extraction.settings.compilerArguments path source with
    | .error fault => { outcome := .error fault, store }
    | .ok unit =>
      let opened : Reading :=
        { store, log := [.note .debug (topLevelNote path extraction.frontEnd unit)] }
      let done :=
        (unit.steps (.ofText path source)).foldl
          (Reading.readStep extraction.settings extraction.dialect) opened
      { outcome := .ok done.summary
        store := done.store
        log := done.log ++ [.note .debug (summaryNote path done.summary)] }

/-- What closing a run leaves. -/
structure Finished where
  unresolved : Nat
  store : Store
  log : List LogEntry

def finalizeNote (closed : Store.Finalized) : String :=
  "finalized store: " ++ toString closed.roots.length ++ " roots, " ++
    toString closed.unresolved ++ " unresolved categories"

/-- What is said of a node without documentation. -/
def undocumentedWarning (node : Node) : Diagnostic where
  severity := .warning
  location := some node.info.location
  message := node.info.kind.name ++ " " ++ node.info.displayName ++ " is not documented"

def keepPolicy (settings : Settings) : KeepPolicy where
  objects := settings.keepUndocumentedObjects
  members := settings.keepUndocumentedMembers

/-- Closes a run: categories go to their classes, then undocumented nodes are warned about and
removed as the settings say. -/
def finish (extraction : Extraction) (store : Store) : Finished :=
  let final := store.finalize
  let said := (final.diagnostics.drop store.diagnostics.length).map LogEntry.diagnostic
  let warnings :=
    if extraction.settings.warnUndocumented then final.undocumented.map undocumentedWarning else []
  let warned : Store := { final with diagnostics := final.diagnostics ++ warnings }
  let log := .note .debug (finalizeNote final) :: said ++ warnings.map LogEntry.diagnostic
  let policy := keepPolicy extraction.settings
  if policy.objects && policy.members then ⟨final.unresolved, warned, log⟩
  else
    let pruned := warned.prune policy
    ⟨final.unresolved, pruned.value,
      log ++ [.note .debug ("removed " ++ toString pruned.removed ++ " undocumented nodes")]⟩

/-- A file that the settings leave out adds nothing. -/
theorem store_readSource_of_excluded {extraction : Extraction} {store : Store} {path : String}
    {source : List Char} (h : extraction.settings.includesPath path = false) :
    (extraction.readSource store path source).store = store := by
  simp [readSource, h]

/-- A file that cannot be read adds nothing. -/
theorem store_readSource_of_error {extraction : Extraction} {store : Store} {path : String}
    {source : List Char} {fault : FileError}
    (h : (extraction.readSource store path source).outcome = .error fault) :
    (extraction.readSource store path source).store = store := by
  unfold readSource at h ⊢
  split
  · rfl
  · next hp =>
    simp only [hp] at h
    split
    · rfl
    · next hu => simp [hu] at h

end Extraction

end DeclDoc
