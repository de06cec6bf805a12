import DeclDoc.CommandLine.Inputs
import DeclDoc.CommandLine.Options
import DeclDoc.Format
import DeclDoc.Text.Terminal

/-! # Running the program

A run reads its inputs into a store, closes it and renders it. Whatever ends a run early is a
`Failure`: it has a context and perhaps a cause, and then nothing is written but messages.
-/

set_option autoImplicit false

namespace DeclDoc.CommandLine

/-- What ends a run early. -/
inductive Failure where
  | ignorePattern (pattern : String) (fault : Wildcard.PatternError)
  | unknownKind (name : String)
  | frontEnd (fault : FrontEnd.Unavailable)
  | format (fault : UnknownFormat)
  | input (fault : InputError)
  | unreadableStdin (fault : FileFault)
  | unreadableText (name : String) (fault : FileError)
  | unwritable (path : String) (fault : FileFault)
deriving DecidableEq, Repr

namespace Failure

def context : Failure → String
  | .ignorePattern pattern _ => "invalid ignore pattern: " ++ pattern
  | .unknownKind name => "unknown kind: " ++ name
  | .frontEnd fault => fault.message
  | .format fault => fault.message
  | .input (.unreadableDirectory path _) => "failed to read directory: " ++ path
  | .input (.badPattern pattern _) => "invalid glob pattern: " ++ pattern
  | .unreadableStdin _ => "failed to read stdin"
  | .unreadableText name _ => "failed to parse " ++ name
  | .unwritable path _ => "failed to write " ++ path

def cause? : Failure → Option String
  | .ignorePattern _ fault => some fault.message
  | .unknownKind _ | .frontEnd _ | .format _ => none
  | .input (.unreadableDirectory _ fault) => some fault.message
  | .input (.badPattern _ fault) => some fault.message
  | .unreadableStdin fault => some fault.message
  | .unreadableText _ fault => some fault.message
  | .unwritable _ fault => some fault.message

/-- A text whose lines after the first are indented. -/
def indented (text : String) : String := "\n    ".intercalate (text.splitOn "\n")

def message (failure : Failure) : String :=
  "Error: " ++ failure.context ++ "\n" ++
    match failure.cause? with
    | some cause => "\nCaused by:\n    " ++ indented cause ++ "\n"
    | none => ""

end Failure

/-! ## Log lines -/

def levelText : LogLevel → String
  | .debug => "DEBUG "
  | .info => " INFO "
  | .warning => " WARN "
  | .error => "ERROR "

/-- How often the program must be asked to say more before it says something of a level. -/
def LogLevel.verbosity : LogLevel → Nat
  | .error | .warning => 0
  | .info => 1
  | .debug => 2

/-- The level and the text of an entry; traces are not shown. -/
def entryText? : LogEntry → Option (LogLevel × String)
  | .note level text => some (level, text)
  | .diagnostic diagnostic =>
    match diagnostic.severity with
    | .trace => none
    | .warning => some (.warning, diagnostic.toString)
    | .error => some (.error, diagnostic.toString)

/-- The line of an entry; what it quotes cannot steer the terminal. -/
def logLine (level : LogLevel) (text : String) : String :=
  levelText level ++ String.ofList (Text.inert text.toList) ++ "\n"

def logText (verbosity : Nat) (log : List LogEntry) : String :=
  String.join <| (log.filterMap entryText?).map fun (level, text) =>
    if LogLevel.verbosity level ≤ verbosity then logLine level text else ""

/-! ## Setting up -/

def ignorePatterns (settings : Settings) : (patterns : List String) → Except Failure Settings
  | [] => .ok settings
  | pattern :: rest =>
    match settings.ignorePath pattern with
    | .ok settings => ignorePatterns settings rest
    | .error fault => .error (.ignorePattern pattern fault)

def ignoreKinds (settings : Settings) : (names : List String) → Except Failure Settings
  | [] => .ok settings
  | name :: rest =>
    match Kind.ofName? name with
    | some kind => ignoreKinds (settings.ignoreKind kind) rest
    | none => .error (.unknownKind name)

/-- The settings that options ask for; patterns are checked before kinds. -/
def settingsOf (options : Options) : Except Failure Settings := do
  let settings : Settings :=
    { compilerArguments := options.compilerArguments
      keepUndocumentedObjects := !options.skipUndocumentedObjects
      keepUndocumentedMembers := !options.skipUndocumentedMembers
      warnUndocumented := options.warnUndocumented }
  ignoreKinds (← ignorePatterns settings options.ignore) options.ignoreKinds

/-- What a run works with. -/
structure Setup where
  extraction : Extraction
  format : Format

/-- The setup that options ask for, and what is said on the way to it. -/
def setupOf (options : Options) : Except Failure Setup × List LogEntry :=
  match settingsOf options with
  | .error failure => (.error failure, [])
  | .ok settings =>
    match FrontEnd.choose (options.frontEnd.getD "auto") with
    | .error fault => (.error (.frontEnd fault), [])
    | .ok choice =>
      let log :=
        match choice.givenUp with
        | none => []
        | some fault => [LogEntry.note .info (fault.message ++ "; using the built-in scanner")]
      match Format.ofName (options.format.getD "json") with
      | .error fault => (.error (.format fault), log)
      | .ok format =>
        (.ok
          { extraction :=
              { settings
                dialect := if options.plainComments then .plain else .markup
                frontEnd := choice.frontEnd }
            format }, log)

/-! ## Reading -/

/-- The store while inputs are read, and what was said. -/
structure Progress where
  store : Store := {}
  log : List LogEntry := []

namespace Progress

def note (progress : Progress) (level : LogLevel) (text : String) : Progress :=
  { progress with log := progress.log ++ [.note level text] }

/-- Gives a file up; the store remembers why. -/
def skip (progress : Progress) (name reason : String) : Progress :=
  let message := "skipping " ++ name ++ ": " ++ reason
  { progress.note .error message with
    store := progress.store.report { severity := .error, message } }

/-- Reads a text into the store; the failure of one file is not the failure of the run. -/
def readText (extraction : Extraction) (progress : Progress) (name text : String) :
    Progress × Option FileError :=
  let result := extraction.readSource progress.store name text.toList
  let read : Progress := ⟨result.store, progress.log ++ result.log⟩
  match result.outcome with
  | .ok _ => (read, none)
  | .error fault => (read, some fault)

end Progress

section
variable {m : Type → Type} [Monad m]

/-- Reads a file into the store, or gives it up. -/
def readPath (files : FileSystem m) (extraction : Extraction) (progress : Progress)
    (path : String) : m Progress := do
  match ← files.loadText path with
  | .error fault => return progress.skip path fault.message
  | .ok text =>
    match progress.readText extraction path text with
    | (read, none) => return read
    | (read, some fault) => return read.skip path fault.message

/-- Reads all files of the inputs, each once, in order. -/
def readInputs (files : FileSystem m) (extraction : Extraction) (inputs : List String)
    (progress : Progress) : m (Except Failure Unit × Progress) := do
  let (paths, log) ← expandAll files inputs
  let progress := { progress with log := progress.log ++ log }
  match paths with
  | .error fault => return (.error (.input fault), progress)
  | .ok paths => return (.ok (), ← (arrange paths).foldlM (readPath files extraction) progress)

/-- Reads standard input as a file of the given name. -/
def readStdin (stdin : m ByteArray) (extraction : Extraction) (name : String)
    (progress : Progress) : m (Except Failure Unit × Progress) := do
  match FileSystem.decode (← stdin) with
  | .error fault => return (.error (.unreadableStdin fault), progress)
  | .ok text =>
    match progress.readText extraction name text with
    | (read, none) => return (.ok (), read)
    | (read, some fault) => return (.error (.unreadableText name fault), read)

/-! ## The whole run -/

/-- What a run leaves: its exit code, its output and its messages. -/
structure Outcome where
  exitCode : UInt8
  output : String := ""
  messages : String := ""
deriving DecidableEq, Repr

def Outcome.ofFailure (verbosity : Nat) (log : List LogEntry) (failure : Failure) : Outcome :=
  { exitCode := 1, messages := logText verbosity log ++ failure.message }

def closingNote (unresolved : Nat) (store : Store) : String :=
  toString store.roots.length ++ " root nodes, " ++ toString unresolved ++
    " unresolved categories, " ++ toString store.diagnostics.length ++ " diagnostics"

/-- Closes the run and hands out what was rendered. -/
def conclude (files : FileSystem m) (options : Options) (setup : Setup) (progress : Progress) :
    m Outcome := do
  let finished := setup.extraction.finish progress.store
  let log :=
    progress.log ++ finished.log ++
      [.note .info (closingNote finished.unresolved finished.store)]
  let text := setup.format.render finished.store
  let messages := logText options.verbosity log
  match options.output with
  | none => return { exitCode := 0, output := text, messages }
  | some path =>
    match ← files.store path text with
    | .ok _ => return { exitCode := 0, messages }
    | .error fault => return .ofFailure options.verbosity log (.unwritable path fault)

def runOptions (files : FileSystem m) (stdin : m ByteArray) (options : Options) : m Outcome := do
  match setupOf options with
  | (.error failure, log) => return .ofFailure options.verbosity log failure
  | (.ok setup, log) =>
    let (read, progress) ←
      if options.files.isEmpty then
        readStdin stdin setup.extraction (options.stdinName.getD "stdin.h") { log }
      else readInputs files setup.extraction options.files { log }
    match read with
    | .error failure => return .ofFailure options.verbosity progress.log failure
    | .ok _ => conclude files options setup progress

def versionText : String := "objcdoc 0.1.0\n"

def helpText : String :=
  "Extract a documentation model from C, C++ and Objective-C sources\n\n" ++
    "Usage: objcdoc [OPTIONS] [FILES]...\n"

/-- Runs the program with its arguments. -/
def run (files : FileSystem m) (stdin : m ByteArray) (arguments : List String) : m Outcome := do
  match read arguments with
  | .error fault => return { exitCode := 2, messages := "error: " ++ fault.message ++ "\n" }
  | .ok .version => return { exitCode := 0, output := versionText }
  | .ok .help => return { exitCode := 0, output := helpText }
  | .ok (.run options) => runOptions files stdin options

end

end DeclDoc.CommandLine
