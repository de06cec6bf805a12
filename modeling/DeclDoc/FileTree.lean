import DeclDoc.FileSystem

/-! # File trees

A file system held in memory: directories of named entries below a root, and a working directory from
which paths are read. `get?_put`: what is put somewhere is found there.
-/

set_option autoImplicit false

namespace DeclDoc

inductive FileTree where
  | file (content : ByteArray)
  | directory (entries : List (String × FileTree))

namespace FileTree

def empty : FileTree := .directory []

/-- The entry of a name. -/
def lookup (name : String) : List (String × FileTree) → Option FileTree
  | [] => none
  | (other, tree) :: rest => if other = name then some tree else lookup name rest

/-- The entries with another tree under a name. -/
def assign (name : String) (tree : FileTree) : List (String × FileTree) → List (String × FileTree)
  | [] => [(name, tree)]
  | (other, old) :: rest =>
    if other = name then (name, tree) :: rest else (other, old) :: assign name tree rest

/-- What the names lead to, one directory after the other. -/
def get? (tree : FileTree) : (names : List String) → Option FileTree
  | [] => some tree
  | name :: rest =>
    match tree with
    | .file _ => none
    | .directory entries => (lookup name entries).bind fun child => get? child rest

/-- The tree with another one where the names lead; missing directories are made. -/
def put (tree new : FileTree) : (names : List String) → FileTree
  | [] => new
  | name :: rest =>
    let entries :=
      match tree with
      | .file _ => []
      | .directory entries => entries
    .directory (assign name (put ((lookup name entries).getD empty) new rest) entries)

theorem lookup_assign (name : String) (tree : FileTree) (entries : List (String × FileTree)) :
    lookup name (assign name tree entries) = some tree := by
  induction entries with
  | nil => simp [assign, lookup]
  | cons entry rest ih =>
    obtain ⟨other, old⟩ := entry
    by_cases h : other = name <;> simp [assign, lookup, h, ih]

/-- What is put somewhere is found there. -/
theorem get?_put (tree new : FileTree) (names : List String) :
    (tree.put new names).get? names = some new := by
  induction names generalizing tree with
  | nil => rfl
  | cons name rest ih => simp [put, get?, lookup_assign, ih]

/-! ## Paths -/

/-- A name has at most so many bytes. -/
def longestName : Nat := 255

/-- A path has at most so many bytes. -/
def longestPath : Nat := 4095

/-- What a directory has under a name. -/
def child? (entries : List (String × FileTree)) (name : String) : Except FileFault (Option FileTree) :=
  if longestName < name.utf8ByteSize then .error .nameTooLong else .ok (lookup name entries)

/-- Where the pieces of a path lead from a place. Only a directory can be left by a piece: an empty
one and `.` stay there, `..` goes up, at most to the root, and a name has to be there. -/
def follow (tree : FileTree) (place : List String) :
    (pieces : List (List Char)) → Except FileFault (List String)
  | [] => .ok place
  | piece :: rest =>
    match tree.get? place with
    | none => .error .notFound
    | some (.file _) => .error .notDirectory
    | some (.directory entries) =>
      if piece = [] ∨ piece = ['.'] then follow tree place rest
      else if piece = ['.', '.'] then follow tree place.dropLast rest
      else
        let name := String.ofList piece
        match child? entries name with
        | .error fault => .error fault
        | .ok none => .error .notFound
        | .ok (some _) => follow tree (place ++ [name]) rest

/-- Where a path begins, seen from the directory `home`, and its pieces. -/
def split (home : List String) (path : String) :
    Except FileFault (List String × List (List Char)) :=
  if path.isEmpty then .error .notFound
  else if longestPath < path.utf8ByteSize then .error .nameTooLong
  else .ok (if path.startsWith "/" then [] else home, Path.pieces path.toList)

/-- What a path names, seen from `home`. -/
def at? (tree : FileTree) (home : List String) (path : String) : Except FileFault FileTree := do
  let (start, pieces) ← split home path
  let place ← tree.follow start pieces
  (tree.get? place).elim (.error .notFound) .ok

def kindAt? (tree : FileTree) (home : List String) (path : String) : Option FileKind :=
  match tree.at? home path with
  | .ok (.file _) => some .regular
  | .ok (.directory _) => some .directory
  | .error _ => none

def namesAt (tree : FileTree) (home : List String) (path : String) :
    Except FileFault (List String) :=
  match tree.at? home path with
  | .ok (.directory entries) => .ok (entries.map (·.1))
  | .ok (.file _) => .error .notDirectory
  | .error fault => .error fault

def load (tree : FileTree) (home : List String) (path : String) : Except FileFault ByteArray :=
  match tree.at? home path with
  | .ok (.file content) => .ok content
  | .ok (.directory _) => .error .isDirectory
  | .error fault => .error fault

/-- The pieces of a path up to its last one that is not empty, which stands apart. -/
def splitLast (pieces : List (List Char)) : List (List Char) × List Char :=
  match pieces.reverse.dropWhile List.isEmpty with
  | [] => ([], [])
  | last :: before => (before.reverse, last)

/-- Writes a file into a directory that is there. A path that ends in a slash, `.` or `..` can name
a directory only. -/
def store (tree : FileTree) (home : List String) (path content : String) :
    Except FileFault FileTree := do
  let (start, pieces) ← split home path
  let (before, last) := splitLast pieces
  let place ← tree.follow start (before ++ [['.']])
  if path.endsWith "/" || last == ['.'] || last == ['.', '.'] then .error .isDirectory
  else
    let name := String.ofList last
    match tree.get? place with
    | some (.directory entries) =>
      match ← child? entries name with
      | some (.directory _) => .error .isDirectory
      | _ => .ok (tree.put (.file content.toUTF8) (place ++ [name]))
    | _ => .error .notDirectory

/-- The tree as a file system whose state it is, where paths without a leading slash begin at
`home`. -/
def fileSystem (home : List String) : FileSystem (StateM FileTree) where
  kind? path := return (← get).kindAt? home path
  names path := return (← get).namesAt home path
  load path := return (← get).load home path
  store path content := do
    match (← get).store home path content with
    | .ok tree =>
      set tree
      return .ok ()
    | .error fault => return .error fault

end FileTree

end DeclDoc
