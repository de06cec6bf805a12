import DeclDoc.Token

/-! # The lexer

At each character that is not white space the longest token is taken. `Extent.read` decides how far
it reaches; a literal that is not closed on its line is no token, and reaches as far as its body.

* `flatten_written_lex`: the lexemes, with their gaps, and the white space at the end are the source.
* `isSpace_of_mem_gap`: gaps hold white space only.
-/

set_option autoImplicit false

namespace DeclDoc

namespace Lexer

/-! ## Character classes -/

/-- White space between tokens. -/
def isSpace (c : Char) : Bool :=
  c == ' ' || c == '\t' || c == '\r' || c == '\n' || c == '\x0c' || c == '\x0b'

def isKeywordStart (c : Char) : Bool := c.isAlpha || c == '_'

def isKeywordPart (c : Char) : Bool := c.isAlphanum || c == '_'

def isIdentStart (c : Char) : Bool := isKeywordStart c || c == '$'

def isIdentPart (c : Char) : Bool := isKeywordPart c || c == '$'

def isNumberPart (c : Char) : Bool := isKeywordPart c || c == '.'

/-! ## How far a token reaches -/

/-- Length of the longest run of characters of a class. -/
def run (part : Char → Bool) (s : List Char) : Nat := (s.takeWhile part).length

/-- Characters up to and including the first closing mark of a block comment, or all of them. -/
def blockCommentTail : List Char → Nat
  | [] => 0
  | '*' :: '/' :: _ => 2
  | _ :: rest => blockCommentTail rest + 1

/-- Characters of a directive after its `#`: up to the end of the line, where a backslash takes the
next character along, a line feed included. -/
def directiveTail : List Char → Nat
  | [] => 0
  | '\n' :: _ => 0
  | ['\\'] => 0
  | '\\' :: _ :: rest => directiveTail rest + 2
  | _ :: rest => directiveTail rest + 1

/-- Length of the body of a literal closed by `quote`, and whether the quote is there. A backslash
takes the next character of the line along. -/
def literalBody (quote : Char) : List Char → Nat × Bool
  | [] => (0, false)
  | ['\\'] => (0, false)
  | '\\' :: c :: rest =>
    if c = '\n' then (0, false)
    else ((literalBody quote rest).1 + 2, (literalBody quote rest).2)
  | c :: rest =>
    if c = quote then (0, true)
    else if c = '\n' then (0, false)
    else ((literalBody quote rest).1 + 1, (literalBody quote rest).2)

/-- The token of a character that never combines with the next ones. -/
def single? (c : Char) : Option Token :=
  match c with
  | '\x7b' => some .openBrace
  | '\x7d' => some .closeBrace
  | '(' => some .openParen
  | ')' => some .closeParen
  | '[' => some .openBracket
  | ']' => some .closeBracket
  | ';' => some .semicolon
  | ',' => some .comma
  | ':' => some .colon
  | '<' => some .less
  | '>' => some .greater
  | '=' => some .equals
  | '*' => some .star
  | '^' => some .caret
  | '-' => some .minus
  | '+' => some .plus
  | '&' | '|' | '!' | '~' | '?' | '%' | '/' | '.' => some .punctuation
  | _ => none

/-- A token, if any, and how many characters after the first belong to it. -/
structure Extent where
  token : Option Token
  more : Nat
deriving DecidableEq, Repr

/-- A literal that opens with `opening` further characters. -/
def Extent.literal (token : Token) (quote : Char) (opening : Nat) (rest : List Char) : Extent :=
  let body := literalBody quote (rest.drop opening)
  if body.2 then ⟨some token, opening + body.1 + 1⟩ else ⟨none, opening + body.1⟩

/-- What begins with character `c` before `rest`. -/
def Extent.read (c : Char) (rest : List Char) : Extent :=
  if isIdentStart c then ⟨some .ident, run isIdentPart rest⟩
  else if c.isDigit then ⟨some .number, run isNumberPart rest⟩
  else
    match c, rest with
    | '/', '/' :: _ => ⟨some .lineComment, run (· != '\n') rest⟩
    | '/', '*' :: body => ⟨some .blockComment, blockCommentTail body + 1⟩
    | '#', _ => ⟨some .directive, directiveTail rest⟩
    | '@', '"' :: _ => .literal .stringLiteral '"' 1 rest
    | '@', d :: _ => if isKeywordStart d then ⟨some .atKeyword, run isKeywordPart rest⟩ else ⟨none, 0⟩
    | '"', _ => .literal .stringLiteral '"' 0 rest
    | '\'', _ => .literal .charLiteral '\'' 0 rest
    | '.', '.' :: '.' :: _ => ⟨some .ellipsis, 2⟩
    | _, _ => ⟨single? c, 0⟩

/-! ## Tails and the first characters of a text -/

theorem run_le (part : Char → Bool) (s : List Char) : run part s ≤ s.length :=
  (List.takeWhile_sublist part).length_le

theorem blockCommentTail_le (s : List Char) : blockCommentTail s ≤ s.length := by
  fun_induction blockCommentTail s with
  | case1 => exact Nat.le_refl 0
  | case2 tail => simp
  | case3 c s _ ih =>
    rw [List.length_cons]
    omega

theorem blockCommentTail_cons (c : Char) (s : List Char) :
    blockCommentTail (c :: s) =
      if c = '*' ∧ s.head? = some '/' then 2 else blockCommentTail s + 1 := by
  split
  · next h =>
    obtain ⟨rfl, hhead⟩ := h
    obtain ⟨tail, rfl⟩ := List.head?_eq_some_iff.1 hhead
    rfl
  · next h =>
    rw [blockCommentTail]
    rintro tail rfl rfl
    exact h ⟨rfl, rfl⟩

theorem directiveTail_le (s : List Char) : directiveTail s ≤ s.length := by
  fun_induction directiveTail s with
  | case1 | case2 | case3 => exact Nat.zero_le _
  | case4 d s ih => exact Nat.succ_le_succ (Nat.succ_le_succ ih)
  | case5 c s _ _ _ ih => exact Nat.succ_le_succ ih

theorem directiveTail_cons {c : Char} (hbreak : c ≠ '\n') (hescape : c ≠ '\\') (s : List Char) :
    directiveTail (c :: s) = directiveTail s + 1 := by
  rw [directiveTail]
  · exact hbreak
  · exact fun h _ => hescape h
  · exact fun _ _ h _ => hescape h

theorem literalBody_cons {quote c : Char} (hquote : c ≠ quote) (hbreak : c ≠ '\n')
    (hescape : c ≠ '\\') (s : List Char) :
    literalBody quote (c :: s) = ((literalBody quote s).1 + 1, (literalBody quote s).2) := by
  rw [literalBody]
  · simp only [hquote, hbreak, if_false]
  · exact fun h _ => hescape h
  · exact fun _ _ h _ => hescape h

theorem literalBody_close {quote : Char} (hescape : quote ≠ '\\') (s : List Char) :
    literalBody quote (quote :: s) = (0, true) := by
  rw [literalBody]
  · exact if_pos rfl
  · exact fun h _ => hescape h
  · exact fun _ _ h _ => hescape h

theorem literalBody_break {quote : Char} (hquote : quote ≠ '\n') (s : List Char) :
    literalBody quote ('\n' :: s) = (0, false) := by
  simp [literalBody, hquote.symm]

end Lexer

/-! ## The lexemes of a source -/

theorem Lexer.length_dropWhile_le (p : Char → Bool) (s : List Char) :
    (s.dropWhile p).length ≤ s.length :=
  (List.dropWhile_sublist p).length_le

/-- Lexemes of a text that begins at byte `offset`, and the white space left at its end. -/
def lexFrom (offset : Nat) (s : List Char) : List Lexeme × List Char :=
  let gap := s.takeWhile Lexer.isSpace
  match _shape : s.dropWhile Lexer.isSpace with
  | [] => ([], gap)
  | c :: rest =>
    let start := offset + Text.byteLength gap
    let extent := Lexer.Extent.read c rest
    let text := c :: rest.take extent.more
    let after := lexFrom (start + Text.byteLength text) (rest.drop extent.more)
    (⟨gap, extent.token, start, text⟩ :: after.1, after.2)
termination_by s.length
decreasing_by
  have := Lexer.length_dropWhile_le Lexer.isSpace s
  simp only [_shape, List.length_cons] at this
  simp only [List.length_drop]
  omega

/-- The lexemes of a source, and the white space after the last one. -/
def lex (source : List Char) : List Lexeme × List Char := lexFrom 0 source

theorem flatten_written_lexFrom (offset : Nat) (s : List Char) :
    ((lexFrom offset s).1.map Lexeme.written).flatten ++ (lexFrom offset s).2 = s := by
  fun_induction lexFrom offset s with
  | case1 offset s gap h =>
    have := List.takeWhile_append_dropWhile (p := Lexer.isSpace) (l := s)
    rw [h, List.append_nil] at this
    exact this
  | case2 offset s gap c rest h start extent text after ih =>
    have := List.takeWhile_append_dropWhile (p := Lexer.isSpace) (l := s)
    rw [h] at this
    simp only [List.map_cons, List.flatten_cons, Lexeme.written, List.append_assoc]
    rw [ih]
    simpa [text] using this

/-- The lexemes with their gaps, then the white space at the end, are the source. -/
theorem flatten_written_lex (source : List Char) :
    ((lex source).1.map Lexeme.written).flatten ++ (lex source).2 = source :=
  flatten_written_lexFrom 0 source

theorem Lexer.isSpace_of_mem_takeWhile {s : List Char} {c : Char}
    (h : c ∈ s.takeWhile isSpace) : isSpace c = true := by
  induction s with
  | nil => simp at h
  | cons d s ih => by_cases hd : isSpace d <;> simp_all; grind

theorem isSpace_of_mem_gapFrom {offset : Nat} {s : List Char} {lexeme : Lexeme}
    (h : lexeme ∈ (lexFrom offset s).1) {c : Char} (hc : c ∈ lexeme.gap) :
    Lexer.isSpace c = true := by
  fun_induction lexFrom offset s with
  | case1 => simp at h
  | case2 offset s gap d rest hd start extent text after ih =>
    rcases List.mem_cons.1 h with rfl | h
    · exact Lexer.isSpace_of_mem_takeWhile hc
    · exact ih h

/-- Only white space stands between lexemes. -/
theorem isSpace_of_mem_gap {source : List Char} {lexeme : Lexeme} (h : lexeme ∈ (lex source).1)
    {c : Char} (hc : c ∈ lexeme.gap) : Lexer.isSpace c = true :=
  isSpace_of_mem_gapFrom h hc

end DeclDoc
