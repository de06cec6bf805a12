import DeclDoc.Text.LineIndex

/-! # Locations and diagnostics

A location is a file, a line and a column, ordered in that order. A diagnostic says what went wrong
and where, if anywhere.
-/

set_option autoImplicit false

namespace DeclDoc

structure Location where
  file : String
  line : UInt32
  column : UInt32
deriving DecidableEq, Repr, Inhabited

namespace Location

/-- By file, then line, then column. -/
instance : Ord Location where
  compare a b :=
    (compare a.file b.file).then ((compare a.line b.line).then (compare a.column b.column))

instance : Std.TransOrd Location :=
  inferInstanceAs <| Std.TransCmp <|
    compareLex (compareOn file) (compareLex (compareOn line) (compareOn column))

instance : Std.LawfulEqOrd Location where
  eq_of_compare {a b} h := by
    obtain ⟨file, line, column⟩ := a
    obtain ⟨hfile, h⟩ := Ordering.then_eq_eq.1 h
    obtain ⟨hline, hcolumn⟩ := Ordering.then_eq_eq.1 h
    cases Std.LawfulEqOrd.eq_of_compare hfile
    cases Std.LawfulEqOrd.eq_of_compare hline
    cases Std.LawfulEqOrd.eq_of_compare hcolumn
    rfl

def ofPosition (file : String) (position : Text.Position) : Location :=
  ⟨file, position.line, position.column⟩

protected def toString (location : Location) : String :=
  location.file ++ ":" ++ toString location.line.toNat ++ ":" ++ toString location.column.toNat

/-- The earlier of two locations, the first of equal ones. -/
def earlier (a b : Location) : Location := if compare b a = .lt then b else a

end Location

inductive Severity where
  | trace
  | warning
  | error
deriving DecidableEq, Repr, Inhabited

def Severity.name : Severity → String
  | .trace => "trace"
  | .warning => "warning"
  | .error => "error"

/-- Warnings and errors are kept; a trace is only shown. -/
def Severity.isKept : Severity → Bool
  | .trace => false
  | .warning | .error => true

structure Diagnostic where
  severity : Severity
  location : Option Location := none
  message : String
deriving DecidableEq, Repr, Inhabited

namespace Diagnostic

protected def toString (diagnostic : Diagnostic) : String :=
  let text := diagnostic.severity.name ++ ": " ++ diagnostic.message
  match diagnostic.location with
  | some location => location.toString ++ ": " ++ text
  | none => text

end Diagnostic

end DeclDoc
