import DeclDoc.Declaration.Declarator
import DeclDoc.Declaration.Span

/-! # Functions

A head declares a function when a name, a type before it, and a closed group of parameters after it
can be told apart. Argument groups of attribute words are no parameters.
-/

set_option autoImplicit false

namespace DeclDoc.Declaration

/-! ## Parameters -/

/-- The parts between commas; a comma at the very end opens no further part. -/
def parameterParts (inside : Code) : List Code :=
  let parts := splitCommas .arguments inside
  if parts.getLast?.any List.isEmpty then parts.dropLast else parts

/-- A parameter can have a name where more than a type stands. -/
def canBeNamed (part : Code) : Bool :=
  1 < part.length &&
    part.getLast?.any fun t =>
      t.token == .ident || t.token == .closeBracket || t.token == .closeParen

def parameter (part : Code) : Fragment :=
  match part with
  | [t] => if t.token = .ellipsis then .variadic else .parameter none (Code.line part) ""
  | _ =>
    match if canBeNamed part then Declarator.find? part else none with
    | some declarator => .parameter none declarator.typeName declarator.name.word
    | none => .parameter none (Code.line part) ""

/-- The parameters between the parentheses of a function; `void` alone stands for none. -/
def parameters (inside : Code) : List Fragment :=
  match parameterParts inside with
  | [[t]] => if t.isWord "void" then [] else [parameter [t]]
  | parts => (parts.filter fun part => !part.isEmpty).map parameter

/-! ## Heads -/

/-- The code before the first parenthesis that opens no arguments of an attribute word, in reverse,
and the code after that parenthesis; `reversed` is what was passed already. -/
def splitArguments? (reversed : Code) : Code → Option (Code × Code)
  | [] => none
  | t :: rest =>
    if t.token = .openParen then
      if reversed.head?.any isAttribute then
        match _group : Bracket.paren.close? 1 rest with
        | some group =>
          splitArguments? (group.close :: group.inside.reverse ++ t :: reversed) group.after
        | none => none
      else some (reversed, rest)
    else splitArguments? (t :: reversed) rest
termination_by code => code.length
decreasing_by
  · have := Bracket.length_after_lt _group
    simp only [List.length_cons]
    omega
  · simp

/-- The function that a declaration's head declares. -/
def function? (head : Code) : Option Cursor :=
  match splitArguments? [] head with
  | some (name :: reversed, after) =>
    let result := dropStorage reversed.reverse
    if name.token = .ident ∧ !isReserved name ∧ !after.head?.any isPointerMark ∧ !result.isEmpty then
      (Bracket.paren.close? 1 after).map fun group =>
        { kind := .function
          spelling := name.word
          offset := name.start
          extent := head.start
          detail := { signature := .returns (Code.line result) :: parameters group.inside } }
    else none
  | _ => none

end DeclDoc.Declaration
