import DeclDoc.Declaration.Declarator
import DeclDoc.Declaration.Span

/-! # Variables and typedefs

A declaration of variables has one declarator between each two commas. The type in front of the
first one is shared by all; pointer marks belong to their own declarator.
-/

set_option autoImplicit false

namespace DeclDoc.Declaration

/-- A declaration without its initializer. -/
def withoutInitializer (code : Code) : Code := code.before .equals

/-- The variable of a declarator, whose declaration begins at `extent`. -/
def Declarator.toVariable (declarator : Declarator) (extent : Nat) (typeName : String) : Cursor :=
  { kind := .variable
    spelling := declarator.name.word
    offset := declarator.name.start
    extent
    detail := { typeName := some typeName } }

/-- The declarator of a variable; without a type in front of its name there is none. -/
def variableDeclarator? (code : Code) : Option Declarator :=
  (Declarator.find? code).filter fun declarator => !declarator.typeTokens.isEmpty

def variableOf? (code : Code) : Option Cursor :=
  (variableDeclarator? code).map fun declarator =>
    declarator.toVariable code.start declarator.typeName

/-- The type that all variables of a declaration share: the first one's without pointer marks. -/
def sharedType (first : Declarator) : String :=
  Code.line (first.typeTokens.reverse.dropWhile isPointerMark).reverse

/-- A variable after the first one. -/
def laterVariable? (shared : String) (part : Code) : Option Cursor :=
  (Declarator.find? (withoutInitializer part)).map fun declarator =>
    declarator.toVariable part.start
      (String.ofList (Text.tidy (shared.toList ++ ' ' :: declarator.typeName.toList)))

/-- The variables that a head declares. -/
def variablesOf (head : Code) : List Cursor :=
  match splitCommas .initializers head with
  | [] => []
  | first :: more =>
    match variableDeclarator? (withoutInitializer first) with
    | none => []
    | some declarator =>
      declarator.toVariable first.start declarator.typeName ::
        more.filterMap (laterVariable? (sharedType declarator))

/-- The type name that a head declares after the word `first`. -/
def typedef? (first : CodeToken) (more : Code) : Option Cursor :=
  (Declarator.find? more).map fun declarator =>
    { kind := .typedef
      spelling := declarator.name.word
      offset := declarator.name.start
      extent := first.start
      detail := { typeName := some (declarator.prepend first).typeName } }

end DeclDoc.Declaration
