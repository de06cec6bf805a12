import DeclDoc.Diagnostic
import DeclDoc.Signature

/-! # Cursors

A front-end describes one file as a tree of cursors, each a declaration or a statement with its
position in bytes. `size` counts the cursors of a tree.
-/

set_option autoImplicit false

namespace DeclDoc

inductive CursorKind where
  | translationUnit
  | interface
  | implementation
  | category
  | categoryImplementation
  | protocol
  | instanceMethod
  | classMethod
  | property
  | function
  | enumeration
  | enumerator
  | typedef
  | variable
  | struct
  | union
  | classDeclaration
  | macroDefinition
  | compoundStatement
  | other
deriving DecidableEq, Repr, Inhabited

/-- What a front-end knows of a declaration beside its name and place. -/
structure CursorDetail where
  superclass : Option String := none
  protocols : List String := []
  baseClass : Option String := none
  attributes : List String := []
  typeName : Option String := none
  signature : List Fragment := []
deriving DecidableEq, Repr, Inhabited

/-- `offset` is where the declared name begins, `extent` where the declaration does. A front-end may
say otherwise than by the offset at which `location` the name stands. -/
structure Cursor where
  kind : CursorKind
  spelling : String
  offset : Nat
  extent : Nat
  location : Option Location := none
  detail : CursorDetail := {}
  children : List Cursor := []
deriving Repr, Inhabited

mutual

/-- Number of cursors in a tree. -/
def Cursor.size : Cursor → Nat
  | ⟨_, _, _, _, _, _, children⟩ => Cursor.sizes children + 1

def Cursor.sizes : List Cursor → Nat
  | [] => 0
  | cursor :: rest => cursor.size + Cursor.sizes rest

end

theorem Cursor.size_eq (cursor : Cursor) : cursor.size = Cursor.sizes cursor.children + 1 := by
  cases cursor
  rw [Cursor.size]

theorem Cursor.sizes_append (xs ys : List Cursor) :
    Cursor.sizes (xs ++ ys) = Cursor.sizes xs + Cursor.sizes ys := by
  induction xs with
  | nil => simp [Cursor.sizes]
  | cons x xs ih => simp [Cursor.sizes, ih, Nat.add_assoc]

end DeclDoc
