import DeclDoc.Path

/-! # Source dialects

The dialect of a source file follows from its extension. `isSome_ofPath?_iff`: a file has a dialect
exactly when its extension is one of `extensions`.
-/

set_option autoImplicit false

namespace DeclDoc

inductive Language where
  | c
  | objectiveC
  | cPlusPlus
  | objectiveCPlusPlus
deriving DecidableEq, Repr, Inhabited

namespace Language

/-- The extensions of source files, with their dialects. -/
def byExtension : List (String × Language) :=
  [("h", .objectiveC), ("c", .c), ("m", .objectiveC), ("mm", .objectiveCPlusPlus),
    ("cc", .cPlusPlus), ("cpp", .cPlusPlus), ("cxx", .cPlusPlus), ("hpp", .cPlusPlus),
    ("hh", .cPlusPlus)]

def extensions : List String := byExtension.map (·.1)

def ofPath? (path : String) : Option Language :=
  (Path.extension? path.toList).bind fun ending => byExtension.lookup (String.ofList ending)

/-- Compiler arguments that select the dialect. -/
def arguments : Language → List String
  | .c => ["-x", "c"]
  | .objectiveC => ["-x", "objective-c"]
  | .cPlusPlus => ["-x", "c++"]
  | .objectiveCPlusPlus => ["-x", "objective-c++"]

theorem isSome_ofPath?_iff {path : String} :
    (ofPath? path).isSome ↔
      ∃ ending, Path.extension? path.toList = some ending ∧ String.ofList ending ∈ extensions := by
  cases h : Path.extension? path.toList with
  | none => simp [ofPath?, h]
  | some ending => simp [ofPath?, h, extensions, List.lookup_isSome_iff]

end Language

end DeclDoc
