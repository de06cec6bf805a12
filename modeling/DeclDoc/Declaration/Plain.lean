import DeclDoc.Declaration.Function
import DeclDoc.Declaration.Record
import DeclDoc.Declaration.Variable

/-! # Plain declarations

A declaration in plain C or C++ is a head up to a semicolon or an opening brace. A comment on lines
of its own inside the head restarts it: what came before was no part of the declaration.
`readPlain_length`: reading a declaration takes at least one token.
-/

set_option autoImplicit false

namespace DeclDoc.Declaration

/-! ## Where a head begins -/

/-- The code from the last token below a comment, up to the first bracket or equals sign. -/
def lastRestart? : Code → Option Code
  | [] => none
  | t :: rest =>
    if t.token = .openParen ∨ t.token = .openBracket ∨ t.token = .equals then none
    else (lastRestart? rest).or (if t.afterComment then some (t :: rest) else none)

/-- The head without what stands above the last comment in it. -/
def restart (head : Code) : Code := (lastRestart? head.tail).getD head

/-! ## Heads before a semicolon -/

/-- A record or enumeration that is named and nothing more. -/
def isForward (head : Code) : Bool :=
  head.length == 2 && head.head?.any (·.isWordOf ("enum" :: recordWords))

/-- What a head before a semicolon declares. -/
def terminated (head : Code) : List Cursor :=
  match head with
  | [] => []
  | first :: more =>
    if first.isWord "typedef" then (typedef? first more).toList
    else if isForward head ∨ first.isWordOf statementWords then []
    else
      match function? head with
      | some cursor => [cursor]
      | none => variablesOf head

/-! ## Heads before a brace -/

/-- A head whose brace holds further declarations. -/
def isTransparent (head : Code) : Bool :=
  match head with
  | first :: more =>
    first.isWord "namespace" || (first.isWord "extern" && Code.nextIs more .stringLiteral)
  | [] => false

def readEnumeration (head : EnumHead) (isTypedef : Bool) (extent : Nat) (code : Code) :
    List Cursor × Code :=
  let read := enumeration head isTypedef extent code
  ([read.1], read.2)

theorem readEnumeration_suffix (head : EnumHead) (isTypedef : Bool) (extent : Nat) (code : Code) :
    (readEnumeration head isTypedef extent code).2 <:+ code :=
  enumeration_suffix head isTypedef extent code

def readRecord (keyword : CodeToken) (after : Code) (isTypedef : Bool) (extent : Nat) (code : Code) :
    List Cursor × Code :=
  let read := record keyword after isTypedef extent code
  (read.1.toList, read.2)

theorem readRecord_suffix (keyword : CodeToken) (after : Code) (isTypedef : Bool) (extent : Nat)
    (code : Code) : (readRecord keyword after isTypedef extent code).2 <:+ code :=
  record_suffix keyword after isTypedef extent code

/-- What a head declares whose brace opens before the code, and the code after the declaration. -/
def braced (head code : Code) : List Cursor × Code :=
  let isTypedef := head.head?.any (·.isWord "typedef")
  if head.any (·.token == .equals) then
    ((variableOf? (withoutInitializer head)).toList, afterStatement (afterBraces code))
  else
    match findWord? enumMacros head with
    | some (keyword, after) => readEnumeration (.ofMacro keyword after) isTypedef head.start code
    | none =>
      match function? head with
      | some cursor => ([cursor], afterBraces code)
      | none =>
        match findWord? ["enum"] head with
        | some (keyword, after) =>
          readEnumeration (.ofKeyword keyword after) isTypedef head.start code
        | none =>
          match findWord? recordWords head with
          | some (keyword, after) => readRecord keyword after isTypedef head.start code
          | none => ([], if isTransparent head then code else afterBraces code)

theorem braced_suffix (head code : Code) : (braced head code).2 <:+ code := by
  have hskip : afterBraces code <:+ code := Bracket.skip_suffix ..
  unfold braced
  dsimp only
  split
  · exact (afterStatement_suffix _).trans hskip
  · split
    · exact readEnumeration_suffix ..
    · split
      · exact hskip
      · split
        · exact readEnumeration_suffix ..
        · split
          · exact readRecord_suffix ..
          · split
            · exact List.suffix_rfl
            · exact hskip

/-! ## Declarations -/

/-- What the declaration at the start of the code declares, and the code after it. A head that is
interrupted declares nothing. -/
def readPlain (code : Code) : List Cursor × Code :=
  let head := (spanHead code).1
  match (spanHead code).2 with
  | [] => ([], [])
  | t :: rest =>
    match t.token with
    | .semicolon => (terminated (restart head), rest)
    | .openBrace => braced (restart head) rest
    | _ => ([], if head.isEmpty then rest else t :: rest)

theorem readPlain_suffix (code : Code) : (readPlain code).2 <:+ code := by
  have h : (spanHead code).2 <:+ code := spanTop_suffix ..
  unfold readPlain
  dsimp only
  split
  · exact List.nil_suffix
  · next t rest ht =>
    rw [ht] at h
    have hrest : rest <:+ code := (List.suffix_cons t rest).trans h
    split
    · exact hrest
    · exact (braced_suffix ..).trans hrest
    · split
      · exact hrest
      · exact h

/-- Reading a declaration takes at least one token. -/
theorem readPlain_length {code : Code} (h : code ≠ []) :
    (readPlain code).2.length < code.length := by
  have happ : (spanHead code).1 ++ (spanHead code).2 = code := spanTop_append ..
  have hlen := congrArg List.length happ
  have hpos := List.length_pos_iff.2 h
  rw [List.length_append] at hlen
  unfold readPlain
  dsimp only
  split
  · simpa using hpos
  · next t rest ht =>
    simp only [ht, List.length_cons] at hlen
    split
    · dsimp only; omega
    · have := (braced_suffix (restart (spanHead code).1) rest).length_le
      omega
    · split
      · dsimp only; omega
      · next hhead =>
        have : 0 < (spanHead code).1.length := List.length_pos_iff.2 (by simpa using hhead)
        simp only [List.length_cons]
        omega

end DeclDoc.Declaration
