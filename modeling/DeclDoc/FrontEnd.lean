import DeclDoc.Declaration.Scan
import DeclDoc.Diagnostic
import DeclDoc.Language

/-! # Front-ends

A front-end turns the text of a file into the cursors at its top level. The built-in one scans the
code tokens. `translate_unsupported`: a file without a dialect reaches no front-end.
-/

set_option autoImplicit false

namespace DeclDoc

/-- Why nothing could be read from a file. -/
inductive FileError where
  | unsupported (path : String)
  | untranslatable (path reason : String)
deriving DecidableEq, Repr

def FileError.message : FileError → String
  | .unsupported path => "unsupported source file: " ++ path
  | .untranslatable path reason => path ++ ": cannot create a translation unit: " ++ reason

/-- The cursors at the top level of a file, and the problems that its front-end got over. -/
structure TranslationUnit where
  cursors : List Cursor
  diagnostics : List Diagnostic := []

/-- A front-end reads a text with compiler arguments, under the path of its file. -/
structure FrontEnd where
  name : String
  read : (arguments : List String) → (path : String) → (source : List Char) →
    Except FileError TranslationUnit

namespace FrontEnd

/-- The faults of a scan as warnings. -/
def scanWarnings (path : String) (source : List Char) (remarks : List Declaration.Remark) :
    List Diagnostic :=
  let index := Text.LineIndex.ofText source
  remarks.map fun remark =>
    { severity := .warning
      location := some (.ofPosition path (index.position remark.offset))
      message := remark.fault.message }

/-- The built-in scanner; it takes no text with NUL characters. -/
def scanner : FrontEnd where
  name := "scan"
  read _ path source :=
    if (Language.ofPath? path).isNone then .error (.unsupported path)
    else if source.contains '\x00' then
      .error (.untranslatable path "input contains NUL bytes")
    else
      let outcome := Declaration.scanText source
      .ok ⟨outcome.cursors, scanWarnings path source outcome.remarks⟩

/-- What a front-end reads from a file; only source files are given to it. -/
def translate (frontEnd : FrontEnd) (arguments : List String) (path : String)
    (source : List Char) : Except FileError TranslationUnit :=
  if (Language.ofPath? path).isNone then .error (.unsupported path)
  else frontEnd.read arguments path source

theorem translate_unsupported {frontEnd : FrontEnd} {arguments : List String} {path : String}
    {source : List Char} (h : Language.ofPath? path = none) :
    frontEnd.translate arguments path source = .error (.unsupported path) := by
  simp [translate, h]

/-! ## Choosing a front-end -/

/-- Why a front-end cannot be had. -/
inductive Unavailable where
  | unknown (name : String)
  | compilerMissing
deriving DecidableEq, Repr

/-- The names under which a compiler's shared library is looked for. -/
def libraryPatterns : List String :=
  ["libclang.so", "libclang-*.so", "libclang.so.*", "libclang-*.so.*"]

def Unavailable.message : Unavailable → String
  | .unknown name =>
    "front-end unavailable: unknown front-end: " ++ name ++ ". Use auto, libclang or scan"
  | .compilerMissing =>
    "front-end unavailable: couldn't find any valid shared libraries matching: [" ++
      ", ".intercalate (libraryPatterns.map fun pattern => "'" ++ pattern ++ "'") ++
      "], set the `LIBCLANG_PATH` environment variable to a path where one of these files can be " ++
      "found (invalid: [])"

/-- A front-end, and what had to be given up to have it. -/
structure Choice where
  frontEnd : FrontEnd
  givenUp : Option Unavailable := none

/-- The front-end of a name. There is no compiler library, so `auto` is the scanner. -/
def choose (name : String) : Except Unavailable Choice :=
  match name with
  | "auto" => .ok ⟨scanner, some .compilerMissing⟩
  | "scan" => .ok ⟨scanner, none⟩
  | "libclang" | "clang" => .error .compilerMissing
  | other => .error (.unknown other)

end FrontEnd

end DeclDoc
