import DeclDoc.CommandLine.Run

/-! # The program

The command line over the files of the system, as far as they can be opened by name. A directory is
recognised, but what it holds is not listed here: files below it are given by their paths.
-/

set_option autoImplicit false

namespace DeclDoc.Program

/-- The fault that an error of the system stands for. -/
def fault : IO.Error → FileFault
  | .noFileOrDirectory .. => .notFound
  | .inappropriateType _ 20 _ => .notDirectory
  | .inappropriateType .. => .isDirectory
  | .invalidArgument _ 36 _ => .nameTooLong
  | .permissionDenied _ code details => .other (details ++ " (os error " ++ toString code ++ ")")
  | e => .other (toString e)

/-- An operation with its error as a value. -/
def attempt {α : Type} (action : IO α) : IO (Except FileFault α) := do
  try return .ok (← action) catch e => return .error (fault e)

/-- What a path names: a file can be read, and a directory can be opened but not read. -/
def kind? (path : String) : IO (Option FileKind) := do
  match ← attempt (IO.FS.Handle.mk path .read) with
  | .error _ => return none
  | .ok handle =>
    match ← attempt (handle.read 1) with
    | .error .isDirectory => return some .directory
    | _ => return some .regular

def fileSystem : FileSystem IO where
  kind? := kind?
  names _ := return .error (.other "directories are not listed")
  load path := attempt (IO.FS.readBinFile path)
  store path text := attempt (IO.FS.writeFile path text)

end DeclDoc.Program

def main (arguments : List String) : IO UInt32 := do
  let stdin := do (← IO.getStdin).readBinToEnd
  let outcome ← DeclDoc.CommandLine.run DeclDoc.Program.fileSystem stdin arguments
  (← IO.getStderr).putStr outcome.messages
  (← IO.getStdout).putStr outcome.output
  return outcome.exitCode.toUInt32
