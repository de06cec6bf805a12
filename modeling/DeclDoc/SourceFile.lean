import DeclDoc.Diagnostic
import DeclDoc.Text.LineIndex
import DeclDoc.Token.DocStyle
import DeclDoc.Token.Lexer

/-! # Source files

A file's text with its lines and lexemes: where an offset is, which documentation comment stands
right before it, and which group was opened last.
-/

set_option autoImplicit false

namespace DeclDoc

structure SourceFile where
  path : String
  text : List Char
  lines : Text.LineIndex
  lexemes : List Lexeme

namespace SourceFile

def ofText (path : String) (text : List Char) : SourceFile where
  path
  text
  lines := .ofText text
  lexemes := (lex text).1

def location (file : SourceFile) (offset : Nat) : Location :=
  .ofPosition file.path (file.lines.position offset)

/-- Number of line feeds in a text. -/
def lineBreaks (gap : List Char) : Nat := gap.count '\n'

/-! ## Comments -/

/-- The text `below`, which begins with the lexeme `first`, together with the line comments that run
up to it; `earlier` are the lexemes before, in reverse. -/
def joinLineComments (first : Lexeme) (below : List Char) : (earlier : List Lexeme) → List Char
  | [] => below
  | previous :: more =>
    if previous.token = some .lineComment ∧ previous.docStyle? = some .line ∧
        lineBreaks first.gap = 1 then
      joinLineComments previous (previous.text ++ first.gap ++ below) more
    else below

/-- The documentation comment that ends right before an offset: it is the last lexeme that begins
before, and at most one line break follows it. -/
def commentBefore (file : SourceFile) (offset : Nat) : List Char :=
  match (file.lexemes.takeWhile (·.start < offset)).reverse with
  | [] => []
  | last :: earlier =>
    if offset < last.stop ∨ 1 < lineBreaks (Text.slice last.stop offset file.text) then []
    else
      match last.docStyle? with
      | none => []
      | some .block => last.text
      | some .line => joinLineComments last last.text earlier

/-- The title of the last group marker between two offsets. -/
def groupBetween (file : SourceFile) (start stop : Nat) : Option String :=
  let between := (file.lexemes.dropWhile (·.start < start)).takeWhile (·.stop ≤ stop)
  let titles := (between.filter Lexeme.isComment).filterMap (groupTitle? ·.text)
  titles.getLast?.map String.ofList

end SourceFile

end DeclDoc
