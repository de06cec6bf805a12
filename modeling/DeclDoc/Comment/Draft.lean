import DeclDoc.Comment
import DeclDoc.Comment.Body
import DeclDoc.Comment.Line
import DeclDoc.Text.Spacing

/-! # Reading a comment

A comment is read line by line into a `Draft`: the sections finished so far, the open one and its
text. A blank line or a directive closes the open section. Whatever is dropped or looks wrong on the
way leaves a `Remark`. `read_eq_error_iff`: reading fails exactly where there is no body.
-/

set_option autoImplicit false

namespace DeclDoc.Comment

open Text

/-- Something odd in a comment. -/
inductive Remark where
  | nestedOpener
  | nameMissing (directive : String)
  | descriptionMissing (parameter : String)
  | returnsEmpty
  | unknownDirective (directive : String)
deriving DecidableEq, Repr

def Remark.message : Remark → String
  | .nestedOpener => "`/*` inside a block comment"
  | .nameMissing directive => "@" ++ directive ++ " without a name"
  | .descriptionMissing parameter => "@param " ++ parameter ++ " has no description"
  | .returnsEmpty => "empty @return"
  | .unknownDirective directive => "unknown directive @" ++ directive

/-! ## Sections -/

inductive Section where
  | description
  | parameter (name : List Char)
  | returns
  | exception (name : List Char)
  | see
  | warning
  | bug
  | deprecated
  | ignored
deriving DecidableEq, Repr

/-- A directive's section, the text on its line, and what was odd. -/
structure Heading where
  sort : Section
  text : List Char := []
  remarks : List Remark := []

/-- The heading of a directive whose text begins with the name of what it describes. -/
def Heading.named (directive : String) (sort : List Char → Section) (rest : List Char) : Heading :=
  let rest := trim rest
  if rest.isEmpty then { sort := .ignored, remarks := [.nameMissing directive] }
  else
    { sort := sort (rest.takeWhile fun c => !isBlank c)
      text := (rest.dropWhile fun c => !isBlank c).drop 1 }

def Heading.ofDirective (name rest : List Char) : Heading :=
  match String.ofList name with
  | "param" => .named "param" .parameter rest
  | "exception" => .named "exception" .exception rest
  | "throws" => .named "throws" .exception rest
  | "return" | "returns" | "result" => { sort := .returns, text := rest }
  | "see" | "sa" => { sort := .see, text := rest }
  | "warning" => { sort := .warning, text := rest }
  | "bug" => { sort := .bug, text := rest }
  | "deprecated" => { sort := .deprecated, text := rest }
  | "abstract" | "brief" | "discussion" => { sort := .description, text := rest }
  | other => { sort := .ignored, remarks := [.unknownDirective other] }

/-! ## Drafts -/

/-- A comment in the making. -/
structure Draft where
  comment : Comment := {}
  paragraphs : List (List Char) := []
  remarks : List Remark := []
  current : Section := .description
  buffer : List Char := []

namespace Draft

/-- A block that opens another one inside is odd from the start. -/
def start (raw : List Char) : Draft :=
  match afterPrefix? opener (trimStart raw) with
  | some rest => if contains opener rest then { remarks := [.nestedOpener] } else {}
  | none => {}

def addText (draft : Draft) (text : List Char) : Draft :=
  { draft with
    buffer := if draft.buffer.isEmpty then text else draft.buffer ++ ' ' :: text }

/-- Ends the open section; the next one is a description until a directive says otherwise. -/
def close (draft : Draft) : Draft :=
  let text := draft.buffer
  let comment := draft.comment
  let next : Draft := { draft with current := .description, buffer := [] }
  match draft.current with
  | .description =>
    if text.isEmpty then next else { next with paragraphs := draft.paragraphs ++ [text] }
  | .parameter name =>
    let entry := { name := String.ofList name, description := String.ofList text }
    { next with
      comment := { comment with parameters := comment.parameters ++ [entry] }
      remarks :=
        if text.isEmpty then draft.remarks ++ [.descriptionMissing entry.name] else draft.remarks }
  | .exception name =>
    let entry := { name := String.ofList name, description := String.ofList text }
    { next with comment := { comment with exceptions := comment.exceptions ++ [entry] } }
  | .returns =>
    if text.isEmpty then { next with remarks := draft.remarks ++ [.returnsEmpty] }
    else
      { next with
        comment := { comment with returns := comment.returns.or (some (String.ofList text)) } }
  | .see =>
    { next with
      comment := { comment with seeAlso := comment.seeAlso ++ (words text).map String.ofList } }
  | .warning =>
    if text.isEmpty then next
    else { next with comment := { comment with warnings := comment.warnings ++ [String.ofList text] } }
  | .bug =>
    if text.isEmpty then next
    else { next with comment := { comment with bugs := comment.bugs ++ [String.ofList text] } }
  | .deprecated => { next with comment := { comment with deprecated := some (String.ofList text) } }
  | .ignored => next

/-- Opens the section of a heading. -/
def openSection (draft : Draft) (heading : Heading) : Draft :=
  let closed := draft.close
  let opened : Draft :=
    { closed with current := heading.sort, remarks := closed.remarks ++ heading.remarks }
  let text := trim heading.text
  if text.isEmpty then opened else opened.addText text

def readLine (draft : Draft) : Line → Draft
  | .blank => draft.close
  | .directive name rest => draft.openSection (.ofDirective name rest)
  | .text content => draft.addText content

/-- The comment: its first paragraph is the short description, the others are the long one. -/
def finish (draft : Draft) (raw : List Char) : Comment :=
  let done := draft.close
  { done.comment with
    raw := String.ofList raw
    shortDescription := done.paragraphs.head?.map String.ofList
    longDescription :=
      match done.paragraphs.tail with
      | [] => none
      | more => some (String.ofList (List.intercalate ['\n', '\n'] more)) }

end Draft

/-! ## Whole comments -/

/-- A comment and what was odd about it. -/
structure Reading where
  comment : Comment
  remarks : List Remark

/-- Reads the raw text of a comment. -/
def read (dialect : Dialect) (raw : List Char) : Except Malformed Reading :=
  (body raw).map fun lines =>
    let draft := (lines.map (Line.read dialect)).foldl Draft.readLine (.start raw)
    { comment := draft.finish raw, remarks := draft.close.remarks }

theorem read_eq_error_iff {dialect : Dialect} {raw : List Char} {e : Malformed} :
    read dialect raw = .error e ↔ body raw = .error e := by
  unfold read
  cases body raw <;> simp [Except.map]

/-! ## Readers -/

/-- What is made of the raw text of a comment: the comment, and what is wrong with its text. -/
structure Parsed where
  comment : Comment
  warnings : List String := []
deriving DecidableEq, Repr

/-- A way to read comments, each from its raw text alone. -/
structure Reader where
  read : (raw : List Char) → Except Malformed Parsed

/-- A dialect reads comments; its remarks are warnings. -/
def Dialect.reader (dialect : Dialect) : Reader where
  read raw :=
    (Comment.read dialect raw).map fun reading =>
      ⟨reading.comment, reading.remarks.map Remark.message⟩

instance : Coe Dialect Reader := ⟨Dialect.reader⟩

def Reader.markup : Reader := Dialect.markup.reader

def Reader.plain : Reader := Dialect.plain.reader

end DeclDoc.Comment
