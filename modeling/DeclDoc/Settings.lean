import DeclDoc.Kind
import DeclDoc.Path
import DeclDoc.Wildcard

/-! # Settings

What an extraction leaves out: files by path, declarations by kind, and at its end nodes that are
not documented. `includesPath_iff`: a file is left out when a pattern admits its path or one of the
path's components.
-/

set_option autoImplicit false

namespace DeclDoc

structure Settings where
  compilerArguments : List String := []
  ignoredPaths : List Wildcard := []
  ignoredKinds : List Kind := []
  keepUndocumentedObjects : Bool := true
  keepUndocumentedMembers : Bool := true
  warnUndocumented : Bool := false
deriving Repr, Inhabited

namespace Settings

/-- Files that the pattern admits are left out from now on. -/
def ignorePath (settings : Settings) (pattern : String) : Except Wildcard.PatternError Settings :=
  (Wildcard.ofText pattern).map fun wildcard =>
    { settings with ignoredPaths := settings.ignoredPaths ++ [wildcard] }

def ignoreKind (settings : Settings) (kind : Kind) : Settings :=
  { settings with ignoredKinds := settings.ignoredKinds ++ [kind] }

/-- The texts that an ignore pattern is tried on. -/
def pathTexts (path : String) : List (List Char) :=
  path.toList :: (Path.components path.toList).map Path.Component.text

def includesPath (settings : Settings) (path : String) : Bool :=
  !settings.ignoredPaths.any fun wildcard => (pathTexts path).any wildcard.admits

def includesKind (settings : Settings) (kind : Kind) : Bool := !settings.ignoredKinds.contains kind

theorem includesPath_iff {settings : Settings} {path : String} :
    settings.includesPath path = true ↔
      ∀ wildcard ∈ settings.ignoredPaths, ∀ text ∈ pathTexts path, wildcard.admits text = false := by
  simp [includesPath]

end Settings

end DeclDoc
