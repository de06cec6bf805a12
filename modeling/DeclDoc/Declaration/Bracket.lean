import DeclDoc.Declaration.Code

/-! # Brackets

A group runs from an opening bracket to the closing one of the same form, other forms of brackets
notwithstanding. `skip` goes past a group, `close?` looks what is in it.

* `close?_append`: what a group holds, its closing bracket and what follows are the code.
* `skip_suffix`, `afterStatement_suffix`: skipping leaves an end of the code.
-/

set_option autoImplicit false

namespace DeclDoc.Declaration

inductive Bracket where
  | paren
  | square
  | brace
deriving DecidableEq, Repr

namespace Bracket

def opening : Bracket → Token
  | .paren => .openParen
  | .square => .openBracket
  | .brace => .openBrace

def closing : Bracket → Token
  | .paren => .closeParen
  | .square => .closeBracket
  | .brace => .closeBrace

def ofOpening? : Token → Option Bracket
  | .openParen => some .paren
  | .openBracket => some .square
  | .openBrace => some .brace
  | _ => none

/-- The code after the bracket that closes the outermost of `depth` open groups, and none of it when
that bracket is missing. -/
def skip (bracket : Bracket) (depth : Nat) : Code → Code
  | [] => []
  | t :: rest =>
    if t.token = bracket.opening then skip bracket (depth + 1) rest
    else if t.token = bracket.closing then
      if depth ≤ 1 then rest else skip bracket (depth - 1) rest
    else skip bracket depth rest

end Bracket

/-- A closed group: what is in it, its closing bracket, and the code after that. -/
structure Group where
  inside : Code
  close : CodeToken
  after : Code
deriving DecidableEq, Repr

namespace Bracket

/-- The rest of the outermost of `depth` open groups. -/
def close? (bracket : Bracket) (depth : Nat) : Code → Option Group
  | [] => none
  | t :: rest =>
    let deeper (depth : Nat) :=
      (close? bracket depth rest).map fun group => { group with inside := t :: group.inside }
    if t.token = bracket.opening then deeper (depth + 1)
    else if t.token = bracket.closing then
      if depth ≤ 1 then some ⟨[], t, rest⟩ else deeper (depth - 1)
    else deeper depth

theorem close?_append {bracket : Bracket} {depth : Nat} {code : Code} {group : Group}
    (h : bracket.close? depth code = some group) :
    code = group.inside ++ group.close :: group.after := by
  induction code generalizing depth group with
  | nil => simp [close?] at h
  | cons t rest ih =>
    simp only [close?] at h
    split at h
    · obtain ⟨g, hg, rfl⟩ := Option.map_eq_some_iff.1 h
      simpa using ih hg
    · split at h
      · split at h
        · cases h; rfl
        · obtain ⟨g, hg, rfl⟩ := Option.map_eq_some_iff.1 h
          simpa using ih hg
      · obtain ⟨g, hg, rfl⟩ := Option.map_eq_some_iff.1 h
        simpa using ih hg

theorem length_after_lt {bracket : Bracket} {depth : Nat} {code : Code} {group : Group}
    (h : bracket.close? depth code = some group) : group.after.length < code.length := by
  have := congrArg List.length (close?_append h)
  simp at this
  omega

theorem skip_suffix (bracket : Bracket) (depth : Nat) (code : Code) :
    bracket.skip depth code <:+ code := by
  induction code generalizing depth with
  | nil => simp [skip]
  | cons t rest ih =>
    simp only [skip]
    split
    · exact (ih _).trans (List.suffix_cons t rest)
    · split
      · split
        · exact List.suffix_cons t rest
        · exact (ih _).trans (List.suffix_cons t rest)
      · exact (ih _).trans (List.suffix_cons t rest)

theorem length_skip_le (bracket : Bracket) (depth : Nat) (code : Code) :
    (bracket.skip depth code).length ≤ code.length :=
  (skip_suffix bracket depth code).length_le

end Bracket

/-- The code after a group that opens before it. -/
def afterBraces (code : Code) : Code := Bracket.brace.skip 1 code

/-! ## Statements -/

/-- The code after the next semicolon outside of groups, or from the first `@`-keyword, directive or
stray closing brace before it. -/
def afterStatement : Code → Code
  | [] => []
  | t :: rest =>
    match t.token with
    | .semicolon => rest
    | .atKeyword | .directive | .closeBrace => t :: rest
    | token =>
      match Bracket.ofOpening? token with
      | some bracket => afterStatement (bracket.skip 1 rest)
      | none => afterStatement rest
termination_by code => code.length
decreasing_by
  · have := Bracket.length_skip_le bracket 1 rest
    simp only [List.length_cons]
    omega
  · simp

theorem afterStatement_suffix (code : Code) : afterStatement code <:+ code := by
  fun_induction afterStatement code with
  | case1 => simp
  | case2 => exact List.suffix_cons ..
  | case3 => exact List.suffix_rfl
  | case4 => exact List.suffix_rfl
  | case5 => exact List.suffix_rfl
  | case6 t rest bracket _ _ _ _ _ ih =>
    exact (ih.trans (bracket.skip_suffix 1 rest)).trans (List.suffix_cons t rest)
  | case7 t rest _ _ _ _ _ ih => exact ih.trans (List.suffix_cons t rest)

end DeclDoc.Declaration
