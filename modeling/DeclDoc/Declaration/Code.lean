import DeclDoc.Text.Spacing
import DeclDoc.Token

/-! # Code tokens

The code of a source is its tokens without comments and unknown pieces. Each code token keeps what
stands between it and the one before, so text across several tokens can be quoted from the source.
`length_ofLexemes_le`: there are no more code tokens than lexemes.
-/

set_option autoImplicit false

namespace DeclDoc

/-- `lead` is the source text since the code token before; `afterComment` holds of the first code
token on a line below a comment. -/
structure CodeToken where
  token : Token
  text : List Char
  start : Nat
  lead : List Char
  afterComment : Bool
deriving DecidableEq, Repr, Inhabited

abbrev Code := List CodeToken

namespace CodeToken

def word (t : CodeToken) : String := String.ofList t.text

/-- The token is an identifier among `words`. -/
def isWordOf (t : CodeToken) (words : List String) : Bool :=
  t.token == .ident && words.contains t.word

def isWord (t : CodeToken) (word : String) : Bool := t.isWordOf [word]

end CodeToken

namespace Code

/-- The code tokens among lexemes. `lead` is the text since the last code token, and `commented`
tells that a comment is the last lexeme before. -/
def ofLexemesAfter (lead : List Char) (commented : Bool) : List Lexeme → Code
  | [] => []
  | lexeme :: rest =>
    match lexeme.token with
    | none => ofLexemesAfter (lead ++ lexeme.written) false rest
    | some token =>
      if token.isComment then ofLexemesAfter (lead ++ lexeme.written) true rest
      else
        { token
          text := lexeme.text
          start := lexeme.start
          lead := lead ++ lexeme.gap
          afterComment := commented && lexeme.gap.contains '\n' } :: ofLexemesAfter [] false rest

def ofLexemes (lexemes : List Lexeme) : Code := ofLexemesAfter [] false lexemes

/-- The kind of the next token. -/
def next? (code : Code) : Option Token := code.head?.map CodeToken.token

/-- The next token is of this kind. -/
def nextIs (code : Code) (token : Token) : Bool := code.next? == some token

/-- Where the code begins. -/
def start (code : Code) : Nat := (code.head?.map CodeToken.start).getD 0

/-- The source text of the tokens with what stands before each. -/
def trail (code : Code) : List Char := code.flatMap fun t => t.lead ++ t.text

/-- The source text from the first token to the last. -/
def text : Code → List Char
  | [] => []
  | t :: rest => t.text ++ trail rest

/-- The text on one line. -/
def line (code : Code) : String := String.ofList (Text.tidy code.text)

/-- The tokens before the first one of this kind. -/
def before (code : Code) (token : Token) : Code := code.takeWhile (·.token != token)

theorem length_ofLexemesAfter_le (lead : List Char) (commented : Bool) (lexemes : List Lexeme) :
    (ofLexemesAfter lead commented lexemes).length ≤ lexemes.length := by
  induction lexemes generalizing lead commented with
  | nil => simp [ofLexemesAfter]
  | cons l ls ih =>
    simp only [ofLexemesAfter]
    split
    · exact Nat.le_succ_of_le (ih ..)
    · split
      · exact Nat.le_succ_of_le (ih ..)
      · simpa using ih ..

theorem length_ofLexemes_le (lexemes : List Lexeme) :
    (ofLexemes lexemes).length ≤ lexemes.length :=
  length_ofLexemesAfter_le [] false lexemes

end Code

end DeclDoc
