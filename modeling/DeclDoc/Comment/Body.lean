import DeclDoc.Text.Affix
import DeclDoc.Text.Blank

/-! # The body of a comment

The lines of a comment without its delimiters: the opening and closing marks and the leading star
of each line in block style, the leading slashes in line style. `body_eq_error_iff`: only a block
that is not closed has no body.
-/

set_option autoImplicit false

namespace DeclDoc.Comment

open Text

/-- Why a comment cannot be read. -/
inductive Malformed where
  | unterminated
deriving DecidableEq, Repr

def Malformed.message : Malformed → String
  | .unterminated => "unterminated block comment"

def opener : List Char := ['/', '*']

def closer : List Char := ['*', '/']

/-- What follows the opening mark of a block; a second star or a `!` belongs to the mark. -/
def afterOpener (block : List Char) : List Char :=
  (afterAnyPrefix? [['/', '*', '*'], ['/', '*', '!'], opener] block).getD block

/-- A line of a block without the star that leads it; a star before a slash leads nothing. -/
def blockLine (line : List Char) : List Char :=
  match trimStart line with
  | '*' :: '/' :: rest => '*' :: '/' :: rest
  | '*' :: rest => rest
  | other => other

/-- A line without the slashes that lead it. -/
def slashLine (line : List Char) : List Char :=
  let line := trimStart line
  (afterAnyPrefix? [['/', '/', '/'], ['/', '/', '!'], ['/', '/']] line).getD line

/-- The lines of a comment without its delimiters. -/
def body (raw : List Char) : Except Malformed (List (List Char)) :=
  let text := trim raw
  if startsWith opener text then
    match beforeSuffix? closer text with
    | some block =>
      if text.length < 4 then .error .unterminated
      else .ok ((lines (afterOpener block)).map blockLine)
    | none => .error .unterminated
  else .ok ((lines text).map slashLine)

theorem body_eq_error_iff {raw : List Char} {e : Malformed} :
    body raw = .error e ↔
      startsWith opener (trim raw) = true ∧
        (endsWith closer (trim raw) = false ∨ (trim raw).length < 4) := by
  cases e
  by_cases h : startsWith opener (trim raw) = true
  · cases hs : beforeSuffix? closer (trim raw) with
    | none => simp [body, h, hs, endsWith]
    | some block =>
      by_cases hl : (trim raw).length < 4 <;> simp [body, h, hs, hl, endsWith]
  · simp [body, h]

end DeclDoc.Comment
