import DeclDoc.Text.Bytes

/-! # Tokens of C-family source

A lexeme is a piece of source with the white space in front of it. Comments, directives and literals
are single tokens, so nothing inside them is taken for code; a piece that is no token has none.
-/

set_option autoImplicit false

namespace DeclDoc

inductive Token where
  | lineComment
  | blockComment
  | directive
  | atKeyword
  | stringLiteral
  | charLiteral
  | ident
  | number
  | openBrace
  | closeBrace
  | openParen
  | closeParen
  | openBracket
  | closeBracket
  | semicolon
  | comma
  | colon
  | less
  | greater
  | equals
  | star
  | caret
  | minus
  | plus
  | ellipsis
  | punctuation
deriving DecidableEq, Repr, Inhabited

def Token.isComment : Token → Bool
  | .lineComment | .blockComment => true
  | _ => false

/-- A piece of source: `gap` is the white space before it, `start` the byte offset of `text`, and
`token` is `none` for a piece that no token describes. -/
structure Lexeme where
  gap : List Char
  token : Option Token
  start : Nat
  text : List Char
deriving DecidableEq, Repr, Inhabited

namespace Lexeme

/-- Byte offset of the end of the text. -/
def stop (lexeme : Lexeme) : Nat := lexeme.start + Text.byteLength lexeme.text

def isComment (lexeme : Lexeme) : Bool := lexeme.token.any Token.isComment

/-- The lexeme as it stands in the source, with the white space before it. -/
def written (lexeme : Lexeme) : List Char := lexeme.gap ++ lexeme.text

end Lexeme

end DeclDoc
