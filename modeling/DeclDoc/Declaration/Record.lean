import DeclDoc.Declaration.Enumeration

/-! # Records

A structure, union or class is named by the tag after its keyword or by a `typedef` behind its
members, which are not looked at. `record_suffix`: reading leaves an end of the code.
-/

set_option autoImplicit false

namespace DeclDoc.Declaration

def recordKind (keyword : CodeToken) : CursorKind :=
  if keyword.isWord "struct" then .struct
  else if keyword.isWord "union" then .union
  else .classDeclaration

/-- The tag: the first identifier that is no attribute, past attributes and their arguments. -/
def recordTag? : Code → Option CodeToken
  | [] => none
  | t :: rest =>
    match t.token with
    | .ident => if isAttribute t then recordTag? rest else some t
    | .openParen =>
      match _group : Bracket.paren.close? 1 rest with
      | some group => recordTag? group.after
      | none => none
    | _ => none
termination_by code => code.length
decreasing_by
  · simp
  · have := Bracket.length_after_lt _group
    simp only [List.length_cons]
    omega

/-- The record, if it is named, that `keyword` and `after` head and whose members begin the code, and
the code after it. -/
def record (keyword : CodeToken) (after : Code) (isTypedef : Bool) (extent : Nat) (code : Code) :
    Option Cursor × Code :=
  let tail := readTail isTypedef (afterBraces code)
  let tag := recordTag? after
  let offset :=
    match tail.1, tag with
    | none, some name => name.start
    | _, _ => keyword.start
  ((tail.1.or tag).map fun name =>
    { kind := recordKind keyword, spelling := name.word, offset, extent }, tail.2)

theorem record_suffix (keyword : CodeToken) (after : Code) (isTypedef : Bool) (extent : Nat)
    (code : Code) : (record keyword after isTypedef extent code).2 <:+ code :=
  (readTail_suffix isTypedef (afterBraces code)).trans (Bracket.skip_suffix ..)

end DeclDoc.Declaration
