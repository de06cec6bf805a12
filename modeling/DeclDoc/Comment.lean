/-! # Documentation comments

A `Comment` is what a documentation comment says, in fields. It is empty when it says nothing,
whatever its raw text.
-/

set_option autoImplicit false

namespace DeclDoc

/-- What is said about one named thing, such as a parameter. -/
structure NamedDescription where
  name : String
  description : String
deriving DecidableEq, Repr, Inhabited

structure Comment where
  raw : String := ""
  shortDescription : Option String := none
  longDescription : Option String := none
  parameters : List NamedDescription := []
  returns : Option String := none
  exceptions : List NamedDescription := []
  seeAlso : List String := []
  warnings : List String := []
  bugs : List String := []
  deprecated : Option String := none
deriving DecidableEq, Repr, Inhabited

namespace Comment

/-- The comment says nothing. -/
def isEmpty (comment : Comment) : Bool :=
  comment.shortDescription.isNone && comment.longDescription.isNone &&
    comment.parameters.isEmpty && comment.returns.isNone && comment.exceptions.isEmpty &&
    comment.seeAlso.isEmpty && comment.warnings.isEmpty && comment.bugs.isEmpty &&
    comment.deprecated.isNone

theorem isEmpty_iff {comment : Comment} :
    comment.isEmpty = true ↔ comment = { raw := comment.raw } := by
  cases comment
  simp [isEmpty, and_assoc]

end Comment

end DeclDoc
