import DeclDoc.Extraction
import DeclDoc.Wildcard.Search

/-! # Input files

An input names a file, a directory whose source files are meant, or a pattern. The files of all inputs
are put into the order of their components and each is taken once. `distinct_sublist`: nothing is
added or moved when repetitions are left out.
-/

set_option autoImplicit false

namespace DeclDoc.CommandLine

/-- Why the inputs do not make a list of files. -/
inductive InputError where
  | unreadableDirectory (path : String) (fault : FileFault)
  | badPattern (pattern : String) (fault : Wildcard.PatternError)
deriving DecidableEq, Repr

/-- The files that an input stands for, and what is said about it. -/
structure Expansion where
  files : List String
  log : List LogEntry := []

/-- The paths without those that equal the one kept before. -/
def distinct : (paths : List String) → List String
  | [] => []
  | path :: rest => path :: distinctAfter path rest
where
  distinctAfter (last : String) : List String → List String
    | [] => []
    | path :: rest =>
      if Path.order last.toList path.toList = .eq then distinctAfter last rest
      else path :: distinctAfter path rest

/-- Paths in order, equal ones once. -/
def arrange (paths : List String) : List String :=
  distinct (paths.mergeSort fun a b => (Path.order a.toList b.toList).isLE)

section
variable {m : Type → Type} [Monad m]

/-- The source files in a directory. -/
def sourcesIn (files : FileSystem m) (directory : String) (names : List String) :
    m (List String) :=
  ((names.map (Path.join directory)).filter fun path => (Language.ofPath? path).isSome).filterM
    files.isRegular

/-- The files of one input. -/
def expand (files : FileSystem m) (input : String) : m (Except InputError Expansion) := do
  match ← files.kind? input with
  | some .regular => return .ok ⟨[input], []⟩
  | some .directory =>
    match ← files.names input with
    | .error fault => return .error (.unreadableDirectory input fault)
    | .ok names => return .ok ⟨← sourcesIn files input names, []⟩
  | none =>
    match ← Wildcard.search files input with
    | .error fault => return .error (.badPattern input fault)
    | .ok [] => return .ok ⟨[], [.note .warning ("no files matched: " ++ input)]⟩
    | .ok paths => return .ok ⟨paths, []⟩

/-- The files of all inputs up to the first that cannot be expanded, and what was said till then. -/
def expandAll (files : FileSystem m) :
    (inputs : List String) → m (Except InputError (List String) × List LogEntry)
  | [] => return (.ok [], [])
  | input :: rest => do
    match ← expand files input with
    | .error fault => return (.error fault, [])
    | .ok expansion =>
      let (others, log) ← expandAll files rest
      return (others.map (expansion.files ++ ·), expansion.log ++ log)

end

theorem distinct_sublist (paths : List String) : (distinct paths).Sublist paths := by
  cases paths with
  | nil => exact List.Sublist.slnil
  | cons path rest =>
    refine List.Sublist.cons_cons path ?_
    induction rest generalizing path with
    | nil => exact List.Sublist.slnil
    | cons other more ih =>
      simp only [distinct.distinctAfter]
      split
      · exact (ih path).cons other
      · exact (ih other).cons_cons other

end DeclDoc.CommandLine
