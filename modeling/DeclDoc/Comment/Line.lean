import DeclDoc.Text.Blank
import DeclDoc.Text.WordChar

/-! # Lines of a comment's body

A line is blank, heads a section with a directive, or continues the text. Plain comments know no
directives.
-/

set_option autoImplicit false

namespace DeclDoc.Comment

open Text

/-- How the text of comments is read. -/
inductive Dialect where
  | markup
  | plain
deriving DecidableEq, Repr, Inhabited

inductive Line where
  | blank
  | directive (name rest : List Char)
  | text (content : List Char)
deriving DecidableEq, Repr, Inhabited

namespace Line

/-- A directive is `@` or `\` and a name of ASCII letters that no word character continues. -/
def directive? : List Char → Option Line
  | mark :: rest =>
    if mark = '@' ∨ mark = '\\' then
      let name := rest.takeWhile Char.isAlpha
      let after := rest.dropWhile Char.isAlpha
      if name.isEmpty || after.head?.any isWordChar then none
      else some (.directive name (after.dropWhile fun c => c == ' ' || c == '\t'))
    else none
  | [] => none

/-- A line of a body; blanks around it mean nothing. -/
def read (dialect : Dialect) (line : List Char) : Line :=
  let line := trim line
  if line.isEmpty then .blank
  else
    match dialect with
    | .plain => .text line
    | .markup => (directive? line).getD (.text line)

end Line

end DeclDoc.Comment
