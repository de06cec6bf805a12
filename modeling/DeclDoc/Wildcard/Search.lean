import DeclDoc.FileSystem
import DeclDoc.Wildcard

/-! # Searching files by pattern

A pattern with slashes has one part for each directory level. A part without wildcards names an entry;
a part with wildcards is tried on the entries of a directory; `**` goes down any number of levels. A
search finds regular files. `parts_error`: a pattern is read as a whole before its parts are.
-/

set_option autoImplicit false

namespace DeclDoc.Wildcard

/-- The character that a piece without wildcards stands for. -/
def Piece.literal? : Piece → Option Char
  | .literal c => some c
  | _ => none

/-- The name that a pattern without wildcards stands for. -/
def literal? (pattern : Wildcard) : Option String :=
  (pattern.pieces.mapM Piece.literal?).map String.ofList

/-- The pattern of any number of directories. -/
def isRecursive (pattern : Wildcard) : Bool := pattern.pieces.contains .anyDirectories

/-- The current and the parent directory are looked at only where a pattern begins with a dot. -/
def specialNames (pattern : Wildcard) : List String :=
  if pattern.pieces.head? = some (.literal '.') then
    ["..", "."].filter fun name => pattern.admits name.toList
  else []

/-- The pieces between slashes, without an empty one at the end. -/
def segments (text : List Char) : List (List Char) :=
  let pieces := Path.pieces text
  if pieces.getLast? = some [] then pieces.dropLast else pieces

/-- The parts of a pattern, each a pattern of its own. -/
def parts (text : List Char) : Except PatternError (List Wildcard) := do
  let _ ← read text
  let path := match text with
    | '/' :: rest => rest
    | _ => text
  let parts ← (segments path).mapM fun segment => (read segment).map Wildcard.mk
  return if parts.isEmpty then [⟨[]⟩] else parts

theorem parts_error {text : List Char} {fault : PatternError} (h : read text = .error fault) :
    parts text = .error fault := by
  simp [parts, h, bind, Except.bind]

/-! ## Searching -/

section
variable {m : Type → Type} [Monad m]

/-- A directory searched is the current one. -/
def isCurrent (path : String) : Bool := Path.components path.toList == [.current]

/-- The path of an entry; in the current directory it is the name alone. -/
def entryPath (directory name : String) : String :=
  if isCurrent directory then name else Path.join directory name

/-- The path of `.` or `..` in a directory. -/
def specialPath (directory name : String) : String := Path.join directory name

/-- The result of a search that has come to its last part. -/
def found (files : FileSystem m) (path : String) : m (List String) :=
  return if ← files.isRegular path then [path] else []

/-- What a directory holds, in order; nothing if it cannot be read. -/
def entriesOf (files : FileSystem m) (directory : String) : m (List String) :=
  return match ← files.names directory with
    | .ok names => names.mergeSort fun a b => (compare a b).isLE
    | .error _ => []

mutual

/-- The files that the parts lead to from a path. `fuel` bounds the steps. -/
def searchFrom (files : FileSystem m) (fuel : Nat) (parts : List Wildcard) (path : String) :
    m (List String) :=
  match fuel, parts with
  | fuel + 1, part :: rest => do
    let go (next : String) : m (List String) :=
      if rest.isEmpty then found files next else searchFrom files fuel rest next
    match part.literal? with
    | some name =>
      let next := entryPath path name
      let exists? ←
        if name == "." || name == ".." then files.isDirectory path
        else (return (← files.kind? next).isSome)
      if exists? then go next else return []
    | none =>
      if ← files.isDirectory path then
        let special ← part.specialNames.mapM fun name => go (specialPath path name)
        let below ← (← entriesOf files path).mapM fun name =>
          searchEntry files fuel part rest name (entryPath path name)
        return special.flatten ++ below.flatten
      else return []
  | _, _ => return []

/-- The files that an entry of a directory is or leads to, where `part` is tried on it. -/
def searchEntry (files : FileSystem m) (fuel : Nat) (part : Wildcard) (rest : List Wildcard)
    (name path : String) : m (List String) :=
  match fuel with
  | 0 => return []
  | fuel + 1 => do
    if part.isRecursive then
      match rest.dropWhile isRecursive with
      | [] => if ← files.isDirectory path then searchFrom files fuel [part] path else return []
      | next :: more =>
        let here ← searchOwn files fuel next more name path
        if ← files.isDirectory path then
          return here ++ (← searchFrom files fuel (part :: next :: more) path)
        else return here
    else searchOwn files fuel part rest name path

/-- The files that an entry is or leads to by its own name. -/
def searchOwn (files : FileSystem m) (fuel : Nat) (part : Wildcard) (rest : List Wildcard)
    (name path : String) : m (List String) :=
  match fuel with
  | 0 => return []
  | fuel + 1 =>
    if part.admits name.toList then
      if rest.isEmpty then found files path else searchFrom files fuel rest path
    else return []

end

/-- Steps that a search takes at most: a path has at most 4096 bytes, so at most half as many levels,
and each level takes at most three steps. -/
def searchDepth : Nat := 3 * 4096

/-- The regular files that a pattern selects. A slash at its end asks for directories. -/
def search (files : FileSystem m) (text : String) : m (Except PatternError (List String)) := do
  match parts text.toList with
  | .error fault => return .error fault
  | .ok parts =>
    if text.toList.getLast? = some '/' then return .ok []
    else
      let scope := if text.toList.head? = some '/' then "/" else "."
      return .ok (← searchFrom files searchDepth parts scope)

end

end DeclDoc.Wildcard
