import DeclDoc.Dump
import DeclDoc.Outline

/-! # Output formats -/

set_option autoImplicit false

namespace DeclDoc

inductive Format where
  | json
  | outline
deriving DecidableEq, Repr

/-- A name that no format has. -/
structure UnknownFormat where
  name : String
deriving DecidableEq, Repr

def UnknownFormat.message (fault : UnknownFormat) : String :=
  "unknown format: " ++ fault.name ++ ". Use json or outline"

namespace Format

def ofName (name : String) : Except UnknownFormat Format :=
  match name with
  | "json" => .ok .json
  | "outline" | "text" => .ok .outline
  | other => .error ⟨other⟩

def render (format : Format) (store : Store) : String :=
  match format with
  | .json => store.dump
  | .outline => store.outlineText

theorem ofName_eq_error_iff {name : String} {fault : UnknownFormat} :
    ofName name = .error fault ↔
      fault = ⟨name⟩ ∧ name ≠ "json" ∧ name ≠ "outline" ∧ name ≠ "text" := by
  unfold ofName
  split <;> simp_all [eq_comm]

end Format

end DeclDoc
