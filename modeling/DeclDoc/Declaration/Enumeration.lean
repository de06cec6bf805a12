import DeclDoc.Declaration.Declarator
import DeclDoc.Declaration.Span

/-! # Enumerations

An enumeration is named by a macro's arguments or after the keyword, and a `typedef` may name it
again behind its values. `enumerators_suffix`, `enumeration_suffix`: reading leaves an end of the
code.
-/

set_option autoImplicit false

namespace DeclDoc.Declaration

/-! ## Enumerators -/

/-- A closing brace or a comma: what ends an enumerator. -/
def endsEnumerator (token : Token) : Bool := token == .closeBrace || token == .comma

/-- The code after an enumerator's value and the comma behind it. -/
def afterEnumerator (code : Code) : Code :=
  let rest := (spanTop .initializers endsEnumerator 0 code).2
  if rest.nextIs .comma then rest.tail else rest

theorem afterEnumerator_suffix (code : Code) : afterEnumerator code <:+ code := by
  have h := spanTop_suffix .initializers endsEnumerator 0 code
  unfold afterEnumerator
  dsimp only
  split
  · exact (List.tail_suffix _).trans h
  · exact h

def enumerator (t : CodeToken) : Cursor :=
  { kind := .enumerator, spelling := t.word, offset := t.start, extent := t.start }

/-- The enumerators behind an opening brace, and the code after the closing one. -/
def enumerators : Code → List Cursor × Code
  | [] => ([], [])
  | t :: rest =>
    match t.token with
    | .closeBrace => ([], rest)
    | .ident =>
      let more := enumerators (afterEnumerator rest)
      (if isAttribute t then more.1 else enumerator t :: more.1, more.2)
    | _ => enumerators rest
termination_by code => code.length
decreasing_by
  · have := (afterEnumerator_suffix rest).length_le
    simp only [List.length_cons]
    omega
  · simp

theorem enumerators_suffix (code : Code) : (enumerators code).2 <:+ code := by
  fun_induction enumerators code with
  | case1 => simp
  | case2 => exact List.suffix_cons ..
  | case3 t rest _ more ih =>
    exact (ih.trans (afterEnumerator_suffix rest)).trans (List.suffix_cons t rest)
  | case4 t rest _ _ ih => exact ih.trans (List.suffix_cons t rest)

/-! ## Heads -/

/-- What stands before an enumeration's brace; `keyword` introduces it. -/
structure EnumHead where
  keyword : CodeToken
  name : Option CodeToken := none
  typeName : Option String := none

namespace EnumHead

/-- The head that a macro with a type and a name as arguments makes. -/
def ofMacro (keyword : CodeToken) (after : Code) : EnumHead :=
  match after with
  | p :: args =>
    if p.token = .openParen then
      match Bracket.paren.close? 1 args with
      | some group =>
        { keyword
          name := group.inside.reverse.find? (·.token == .ident)
          typeName :=
            if group.inside.any (·.token == .comma) then
              some (Code.line (group.inside.before .comma))
            else none }
      | none => { keyword }
    else { keyword }
  | [] => { keyword }

/-- The underlying type after a colon. -/
def typeAfterColon? : Code → Option String
  | t :: rest => if t.token = .colon then some (Code.line rest) else none
  | [] => none

/-- The head that the keyword makes, with `class` or `struct` after it perhaps. -/
def ofKeyword (keyword : CodeToken) (after : Code) : EnumHead :=
  let after := if after.head?.any (·.isWordOf ["class", "struct"]) then after.tail else after
  match after with
  | t :: rest =>
    if t.token = .ident then { keyword, name := some t, typeName := typeAfterColon? rest }
    else { keyword, typeName := typeAfterColon? after }
  | [] => { keyword }

end EnumHead

/-! ## The tail behind the closing brace -/

/-- The name that a `typedef` gives behind the closing brace, and the code after the declaration. -/
def readTail (isTypedef : Bool) (code : Code) : Option CodeToken × Code :=
  let tail := spanHead code
  (if isTypedef then (Declarator.find? tail.1).map Declarator.name else none, dropSemicolon tail.2)

theorem readTail_suffix (isTypedef : Bool) (code : Code) : (readTail isTypedef code).2 <:+ code :=
  (dropSemicolon_suffix _).trans (spanTop_suffix ..)

/-- The enumeration whose head begins at `extent` and whose values begin the code, and the code after
it. A name behind the values is not where the enumeration is located. -/
def enumeration (head : EnumHead) (isTypedef : Bool) (extent : Nat) (code : Code) :
    Cursor × Code :=
  let values := enumerators code
  let tail := readTail isTypedef values.2
  let offset :=
    match tail.1, head.name with
    | none, some name => name.start
    | _, _ => head.keyword.start
  ({ kind := .enumeration
     spelling := ((tail.1.or head.name).map CodeToken.word).getD ""
     offset
     extent
     detail := { typeName := head.typeName }
     children := values.1 }, tail.2)

theorem enumeration_suffix (head : EnumHead) (isTypedef : Bool) (extent : Nat) (code : Code) :
    (enumeration head isTypedef extent code).2 <:+ code :=
  (readTail_suffix isTypedef (enumerators code).2).trans (enumerators_suffix code)

end DeclDoc.Declaration
