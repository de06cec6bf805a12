import DeclDoc.Path

/-! # File systems

What a program needs of the files around it, as a record of operations in some monad, and the faults
that these can meet.
-/

set_option autoImplicit false

namespace DeclDoc

/-- Why an operation on files fails. -/
inductive FileFault where
  | notFound
  | notDirectory
  | isDirectory
  | nameTooLong
  | notText
  | other (reason : String)
deriving DecidableEq, Repr

def FileFault.message : FileFault → String
  | .notFound => "No such file or directory (os error 2)"
  | .notDirectory => "Not a directory (os error 20)"
  | .isDirectory => "Is a directory (os error 21)"
  | .nameTooLong => "File name too long (os error 36)"
  | .notText => "stream did not contain valid UTF-8"
  | .other reason => reason

inductive FileKind where
  | regular
  | directory
deriving DecidableEq, Repr

/-- Operations on files by path. `names` lists what is in a directory, in any order. -/
structure FileSystem (m : Type → Type) where
  kind? : String → m (Option FileKind)
  names : String → m (Except FileFault (List String))
  load : String → m (Except FileFault ByteArray)
  store : String → String → m (Except FileFault Unit)

namespace FileSystem

variable {m : Type → Type} [Monad m]

def isRegular (files : FileSystem m) (path : String) : m Bool :=
  return (← files.kind? path) == some .regular

def isDirectory (files : FileSystem m) (path : String) : m Bool :=
  return (← files.kind? path) == some .directory

/-- Bytes as text. -/
def decode (bytes : ByteArray) : Except FileFault String :=
  match String.fromUTF8? bytes with
  | some text => .ok text
  | none => .error .notText

def loadText (files : FileSystem m) (path : String) : m (Except FileFault String) :=
  return (← files.load path).bind decode

end FileSystem

/-- A name inside a directory. -/
def Path.join (directory name : String) : String :=
  String.ofList (Path.child directory.toList name.toList)

end DeclDoc
