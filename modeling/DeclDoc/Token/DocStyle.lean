import DeclDoc.Text.Affix
import DeclDoc.Text.Blank
import DeclDoc.Token

/-! # Documentation comments and group markers

A comment documents when it is written in block style (`/** … */`, `/*! … */`) or in line style
(`/// …`, `//! …`). Trailing comments (`///<`) and decoration lines do not. A documentation comment
that begins with `@name` and a title marks a group of members instead.
-/

set_option autoImplicit false

namespace DeclDoc

open Text

inductive DocStyle where
  | block
  | line
deriving DecidableEq, Repr, Inhabited

/-- The style of a documentation comment, `none` for any other comment. -/
def DocStyle.ofText? (text : List Char) : Option DocStyle :=
  match afterAnyPrefix? [['/', '*', '*'], ['/', '*', '!']] text with
  | some rest => if rest.head?.any (· ∈ ['/', '<', '*']) then none else some .block
  | none =>
    match afterAnyPrefix? [['/', '/', '/'], ['/', '/', '!']] text with
    | some rest => if rest.head?.any (· ∈ ['/', '<']) then none else some .line
    | none => none

/-! ## Group markers -/

/-- A text without the closing marks `*/` at its end. -/
def withoutClosers (text : List Char) : List Char :=
  match _closed : beforeSuffix? ['*', '/'] text with
  | none => text
  | some rest => withoutClosers rest
termination_by text.length
decreasing_by
  have := beforeSuffix?_eq_some_iff.1 _closed
  simp [this]

/-- The title that follows `@name` or `\name` and a space or tab. -/
def markerTitle? (body : List Char) : Option (List Char) :=
  match afterAnyPrefix? ["@name".toList, "\\name".toList] body with
  | some (c :: rest) =>
    if c = ' ' ∨ c = '\t' then
      let title := trim (rest.takeWhile (· != '\n'))
      if title.isEmpty then none else some title
    else none
  | _ => none

/-- The title of the group that a comment opens: `Title` for `/// @name Title`. -/
def groupTitle? (text : List Char) : Option (List Char) :=
  match DocStyle.ofText? text with
  | none => none
  | some _ =>
    markerTitle? ((withoutClosers (trimEnd (text.drop 3))).dropWhile fun c => isBlank c || c == '*')

/-- The style of a lexeme that documents what follows it: a documentation comment and no marker. -/
def Lexeme.docStyle? (lexeme : Lexeme) : Option DocStyle :=
  if lexeme.isComment && (groupTitle? lexeme.text).isNone then DocStyle.ofText? lexeme.text else none

end DeclDoc
