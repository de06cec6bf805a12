import DeclDoc.Declaration.Declarator
import DeclDoc.Declaration.Span

/-! # Methods and properties

The members of an Objective-C container. Reading one leaves an end of the code
(`readMethod_suffix`, `readProperty_suffix`), also where nothing could be made of it.
-/

set_option autoImplicit false

namespace DeclDoc.Declaration

/-- What is wrong with a declaration. -/
inductive Fault where
  | strayEnd
  | classNameMissing (keyword : String)
  | protocolNameMissing
  | endMissing
  | selectorMissing
  | propertyNameMissing
deriving DecidableEq, Repr

def Fault.message : Fault → String
  | .strayEnd => "@end without a matching container"
  | .classNameMissing keyword => keyword ++ " without a class name"
  | .protocolNameMissing => "@protocol without a name"
  | .endMissing => "missing @end"
  | .selectorMissing => "method declaration without a selector"
  | .propertyNameMissing => "@property without a name"

/-! ## Text in parentheses -/

/-- The text of the group that opens before the code, on one line, and the code after it. A group
that is never closed reaches to the end, less a parenthesis there. -/
def readParenText (code : Code) : String × Code :=
  match Bracket.paren.close? 1 code with
  | some group => (Code.line group.inside, group.after)
  | none =>
    let inside := if code.getLast?.any (·.token == .closeParen) then code.dropLast else code
    (Code.line inside, [])

/-- The type in parentheses at the start of the code, `id` where there is none. -/
def readType (code : Code) : String × Code :=
  if code.nextIs .openParen then readParenText code.tail else ("id", code)

theorem readParenText_suffix (code : Code) : (readParenText code).2 <:+ code := by
  unfold readParenText
  split
  · next group h =>
    exact ⟨group.inside ++ [group.close], by simpa using (Bracket.close?_append h).symm⟩
  · exact List.nil_suffix

theorem readType_suffix (code : Code) : (readType code).2 <:+ code := by
  unfold readType
  split
  · exact (readParenText_suffix _).trans (List.tail_suffix code)
  · exact List.suffix_rfl

/-! ## Selectors -/

/-- One part of a selector with its parameter; `start` is where the part begins. -/
structure SelectorPart where
  keyword : Option String
  typeName : String
  name : String
  start : Nat

namespace SelectorPart

def fragment (part : SelectorPart) : Fragment := .parameter part.keyword part.typeName part.name

def spelling (part : SelectorPart) : String := part.keyword.getD "" ++ ":"

/-- The part whose colon stands before the code. -/
def read (keyword : Option String) (start : Nat) (code : Code) : SelectorPart × Code :=
  let type := readType code
  match type.2 with
  | t :: rest =>
    if t.token = .ident ∧ !Code.nextIs rest .colon then
      (⟨keyword, type.1, t.word, start⟩, rest)
    else (⟨keyword, type.1, "", start⟩, t :: rest)
  | [] => (⟨keyword, type.1, "", start⟩, [])

theorem read_suffix (keyword : Option String) (start : Nat) (code : Code) :
    (read keyword start code).2 <:+ code := by
  have h := readType_suffix code
  unfold read
  dsimp only
  split
  · next t rest ht =>
    rw [ht] at h
    split
    · exact (List.suffix_cons t rest).trans h
    · exact h
  · exact List.nil_suffix

end SelectorPart

/-- The parts of a selector at the start of the code. -/
def selectorParts (code : Code) : List SelectorPart × Code :=
  match code with
  | t :: rest =>
    if t.token = .colon then
      let part := SelectorPart.read none t.start rest
      let more := selectorParts part.2
      (part.1 :: more.1, more.2)
    else if t.token = .ident ∧ Code.nextIs rest .colon then
      let part := SelectorPart.read (some t.word) t.start rest.tail
      let more := selectorParts part.2
      (part.1 :: more.1, more.2)
    else ([], t :: rest)
  | [] => ([], [])
termination_by code.length
decreasing_by
  · have := (SelectorPart.read_suffix none t.start rest).length_le
    simp only [List.length_cons]
    omega
  · have := (SelectorPart.read_suffix (some t.word) t.start rest.tail).length_le
    simp only [List.length_cons, List.length_tail] at this ⊢
    omega

theorem selectorParts_suffix (code : Code) : (selectorParts code).2 <:+ code := by
  fun_induction selectorParts code with
  | case1 t rest _ part more ih =>
    exact (ih.trans (SelectorPart.read_suffix ..)).trans (List.suffix_cons t rest)
  | case2 t rest _ _ part more ih =>
    exact ((ih.trans (SelectorPart.read_suffix ..)).trans (List.tail_suffix rest)).trans
      (List.suffix_cons t rest)
  | case3 => exact List.suffix_rfl
  | case4 => exact List.suffix_rfl

/-- A selector: how it is spelled, where it begins, and what it takes. -/
structure Selector where
  spelling : String
  start : Nat
  parameters : List Fragment

/-- The selector at the start of the code, if there is one. -/
def readSelector (code : Code) : Option Selector × Code :=
  let parts := selectorParts code
  match parts.1, parts.2 with
  | first :: more, rest =>
    (some
      { spelling := String.join ((first :: more).map SelectorPart.spelling)
        start := first.start
        parameters := (first :: more).map SelectorPart.fragment }, rest)
  | [], t :: rest =>
    if t.token = .ident then (some ⟨t.word, t.start, []⟩, rest) else (none, t :: rest)
  | [], [] => (none, [])

theorem readSelector_suffix (code : Code) : (readSelector code).2 <:+ code := by
  have h := selectorParts_suffix code
  unfold readSelector
  dsimp only
  split
  · exact h
  · next t rest _ ht =>
    rw [ht] at h
    split
    · exact (List.suffix_cons t rest).trans h
    · exact h
  · exact List.nil_suffix

/-! ## Methods -/

/-- Whether a method takes further arguments, and the code after the mark that says so. -/
def readVariadic (code : Code) : List Fragment × Code :=
  match code with
  | c :: e :: rest =>
    if c.token = .comma ∧ e.token = .ellipsis then ([.variadic], rest) else ([], c :: e :: rest)
  | _ => ([], code)

theorem readVariadic_suffix (code : Code) : (readVariadic code).2 <:+ code := by
  unfold readVariadic
  split
  · next c e rest =>
    split
    · exact (List.suffix_cons e rest).trans (List.suffix_cons c _)
    · exact List.suffix_rfl
  · exact List.suffix_rfl

/-- The code after a method: past its attributes and its semicolon or body, or from the start of the
next declaration. -/
def afterMethod : Code → Code
  | [] => []
  | t :: rest =>
    match t.token with
    | .semicolon => rest
    | .openBrace => afterBraces rest
    | .openParen => afterMethod (Bracket.paren.skip 1 rest)
    | .minus | .plus | .atKeyword => t :: rest
    | _ => afterMethod rest
termination_by code => code.length
decreasing_by
  · have := Bracket.length_skip_le .paren 1 rest
    simp only [List.length_cons]
    omega
  · simp

theorem afterMethod_suffix (code : Code) : afterMethod code <:+ code := by
  fun_induction afterMethod code with
  | case1 => simp
  | case2 => exact List.suffix_cons ..
  | case3 t rest => exact (Bracket.skip_suffix .brace 1 rest).trans (List.suffix_cons t rest)
  | case4 t rest _ ih =>
    exact (ih.trans (Bracket.skip_suffix .paren 1 rest)).trans (List.suffix_cons t rest)
  | case5 => exact List.suffix_rfl
  | case6 => exact List.suffix_rfl
  | case7 => exact List.suffix_rfl
  | case8 t rest _ _ _ _ _ _ ih => exact ih.trans (List.suffix_cons t rest)

/-- The method that `sign` begins and the code continues, and the code after it. -/
def readMethod (sign : CodeToken) (code : Code) : Except Fault Cursor × Code :=
  let result := readType code
  let selector := readSelector result.2
  let variadic := readVariadic selector.2
  let cursor :=
    match selector.1 with
    | none => .error .selectorMissing
    | some selector =>
      .ok
        { kind := if sign.token = .plus then .classMethod else .instanceMethod
          spelling := selector.spelling
          offset := selector.start
          extent := sign.start
          detail := { signature := .returns result.1 :: selector.parameters ++ variadic.1 } }
  (cursor, afterMethod variadic.2)

theorem readMethod_suffix (sign : CodeToken) (code : Code) : (readMethod sign code).2 <:+ code :=
  (afterMethod_suffix _).trans <| (readVariadic_suffix _).trans <|
    (readSelector_suffix _).trans <| readType_suffix code

/-! ## Properties -/

/-- The attributes in a property's parentheses. -/
def attributeNames (text : String) : List String :=
  ((text.toList.splitOn ',').map fun part => String.ofList (Text.trim part)).filter (· != "")

/-- A semicolon, or the start of the next member: what ends a property. -/
def endsProperty : Token → Bool
  | .semicolon | .atKeyword | .minus | .plus => true
  | _ => false

/-- The attributes of a property in parentheses at the start of the code, and the code after them. -/
def readAttributes (code : Code) : List String × Code :=
  if code.nextIs .openParen then
    let group := readParenText code.tail
    (attributeNames group.1, group.2)
  else ([], code)

theorem readAttributes_suffix (code : Code) : (readAttributes code).2 <:+ code := by
  unfold readAttributes
  split
  · exact (readParenText_suffix _).trans (List.tail_suffix code)
  · exact List.suffix_rfl

/-- The property that `keyword` begins and the code continues, and the code after it. -/
def readProperty (keyword : CodeToken) (code : Code) : Except Fault Cursor × Code :=
  let attributes := readAttributes code
  let span := spanTop .arguments endsProperty 0 attributes.2
  let cursor :=
    match Declarator.find? span.1 with
    | none => .error .propertyNameMissing
    | some declarator =>
      .ok
        { kind := .property
          spelling := declarator.name.word
          offset := declarator.name.start
          extent := keyword.start
          detail := { attributes := attributes.1, typeName := some declarator.typeName } }
  (cursor, dropSemicolon span.2)

theorem readProperty_suffix (keyword : CodeToken) (code : Code) :
    (readProperty keyword code).2 <:+ code :=
  (dropSemicolon_suffix _).trans <| (spanTop_suffix ..).trans (readAttributes_suffix code)

end DeclDoc.Declaration
