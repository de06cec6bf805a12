import DeclDoc.Declaration.Code
import DeclDoc.Text.Affix

/-! # Words with a meaning in declarations

Storage words stand in front of a type without being part of it, reserved words are never declared,
and attribute words are macros and compiler words that annotate a declaration.
-/

set_option autoImplicit false

namespace DeclDoc.Declaration

/-- Leading words that are no part of the declared type. -/
def storageWords : List String :=
  ["typedef", "extern", "static", "inline", "__inline", "__inline__", "FOUNDATION_EXPORT",
    "FOUNDATION_EXTERN", "UIKIT_EXTERN", "APPKIT_EXTERN", "CF_EXPORT", "OBJC_EXPORT", "NS_INLINE",
    "CF_INLINE"]

/-- Words that are never a declared name. -/
def reservedWords : List String :=
  ["typedef", "struct", "union", "enum", "class", "extern", "static", "const", "volatile",
    "restrict", "inline", "signed", "unsigned", "return", "using", "namespace", "template"]

/-- Macros whose arguments are an enumeration's type and name. -/
def enumMacros : List String :=
  ["NS_ENUM", "NS_OPTIONS", "NS_CLOSED_ENUM", "NS_ERROR_ENUM", "CF_ENUM", "CF_OPTIONS",
    "CF_CLOSED_ENUM"]

def recordWords : List String := ["struct", "union", "class"]

/-- Words that begin a statement that declares nothing. -/
def statementWords : List String := ["using", "template", "namespace", "return"]

/-- Beginnings of attribute words. -/
def attributeBeginnings : List String :=
  ["__", "NS_", "CF_", "UI_", "API_", "OBJC_", "AVAILABLE", "DEPRECATED", "UNAVAILABLE"]

/-- Words of availability and other attributes. -/
def isAttributeText (text : List Char) : Bool :=
  attributeBeginnings.any (fun beginning => Text.startsWith beginning.toList text) ||
    Text.endsWith "_ATTRIBUTE".toList text || Text.contains "_AVAILABLE".toList text ||
    Text.contains "_DEPRECATED".toList text

def isAttribute (t : CodeToken) : Bool := t.token == .ident && isAttributeText t.text

def isStorage (t : CodeToken) : Bool := t.isWordOf storageWords

def isReserved (t : CodeToken) : Bool := t.isWordOf reservedWords

/-- A star or caret: what makes a pointer or a block of the declared name. -/
def isPointerMark (t : CodeToken) : Bool := t.token == .star || t.token == .caret

/-- The first of `words` in the code, and what follows it. -/
def findWord? (words : List String) : Code → Option (CodeToken × Code)
  | [] => none
  | t :: rest => if t.isWordOf words then some (t, rest) else findWord? words rest

end DeclDoc.Declaration
