import DeclDoc.Declaration.Word
import DeclDoc.Store

/-!
# A grammar of plain headers

What a header is made of that has nothing in it but classes, categories, class extensions, protocols,
prototypes, enumerations, macros and forward declarations, as relations between the nodes that are to
come of it and its code tokens. Nothing here says how a header is read.

An `Entry` is a node with the keys of its members. `IsDeclaration entry code`: the code is one
declaration, and it declares the entry. `IsSource entries code`: the code is such declarations one
behind the other, with forward declarations anywhere between them.
-/

set_option autoImplicit false

namespace DeclDoc.Declaration

/-! ## Words and types -/

/-- A word without a meaning of its own. -/
structure IsIdentifier (t : CodeToken) : Prop where
  token : t.token = .ident
  notAttribute : isAttribute t = false
  notStorage : isStorage t = false
  notReserved : isReserved t = false
  notEnumMacro : t.isWordOf enumMacros = false

instance (t : CodeToken) : Decidable (IsIdentifier t) :=
  decidable_of_iff (t.token = .ident ∧ isAttribute t = false ∧ isStorage t = false ∧
      isReserved t = false ∧ t.isWordOf enumMacros = false)
    ⟨fun ⟨h₁, h₂, h₃, h₄, h₅⟩ => ⟨h₁, h₂, h₃, h₄, h₅⟩,
      fun h => ⟨h.token, h.notAttribute, h.notStorage, h.notReserved, h.notEnumMacro⟩⟩

/-- Identifiers with a comma between each two. -/
inductive IsNames : Code → Prop where
  | one {t : CodeToken} : IsIdentifier t → IsNames [t]
  | more {t comma : CodeToken} {code : Code} : IsIdentifier t → comma.token = .comma →
      IsNames code → IsNames (t :: comma :: code)

/-- Identifiers, and stars behind them. -/
structure IsType (code : Code) : Prop where
  split : ∃ names stars, code = names ++ stars ∧ names ≠ [] ∧ (∀ t ∈ names, IsIdentifier t) ∧
    ∀ t ∈ stars, t.token = .star

theorem IsType.of_identifier {t : CodeToken} (h : IsIdentifier t) : IsType [t] :=
  ⟨[t], [], rfl, List.cons_ne_nil t [], by simpa using h, nofun⟩

/-- A keyword with an at sign. -/
def IsAt (word : String) (t : CodeToken) : Prop := t.token = .atKeyword ∧ t.word = word

instance (word : String) (t : CodeToken) : Decidable (IsAt word t) :=
  inferInstanceAs (Decidable (_ ∧ _))

/-! ## Members -/

/-- A type in parentheses. -/
inductive IsParenType : Code → Prop where
  | mk {p q : CodeToken} {type : Code} : p.token = .openParen → IsType type →
      q.token = .closeParen → IsParenType (p :: type ++ [q])

/-- Keywords, each with a parameter. -/
inductive IsParts : (spelling : String) → Code → Prop where
  | one {keyword colon name : CodeToken} {type : Code} : IsIdentifier keyword →
      colon.token = .colon → IsParenType type → IsIdentifier name →
      IsParts (keyword.word ++ ":") (keyword :: colon :: type ++ [name])
  | more {keyword colon name : CodeToken} {type code : Code} {spelling : String} :
      IsIdentifier keyword → colon.token = .colon → IsParenType type → IsIdentifier name →
      IsParts spelling code →
      IsParts (keyword.word ++ ":" ++ spelling) (keyword :: colon :: type ++ name :: code)

inductive IsSelector : (spelling : String) → Code → Prop where
  | unary {name : CodeToken} : IsIdentifier name → IsSelector name.word [name]
  | parts {spelling : String} {code : Code} : IsParts spelling code → IsSelector spelling code

/-- The sign in front of a method. -/
inductive IsSign : Flavor → CodeToken → Prop where
  | minus {t : CodeToken} : t.token = .minus → IsSign .ofInstances t
  | plus {t : CodeToken} : t.token = .plus → IsSign .ofClass t

/-- Code in which each parenthesis has the one that belongs to it. -/
inductive IsBalanced : Code → Prop where
  | nil : IsBalanced []
  | token {t : CodeToken} {code : Code} : t.token ≠ .openParen → t.token ≠ .closeParen →
      IsBalanced code → IsBalanced (t :: code)
  | group {p q : CodeToken} {inside code : Code} : p.token = .openParen → IsBalanced inside →
      q.token = .closeParen → IsBalanced code → IsBalanced (p :: inside ++ q :: code)

/-- The attributes of a property, if there are any. -/
inductive IsAttributes : Code → Prop where
  | none : IsAttributes []
  | some {p q : CodeToken} {code : Code} : p.token = .openParen → IsBalanced code →
      q.token = .closeParen → IsAttributes (p :: code ++ [q])

/-- A member and its key. -/
inductive IsMember : NodeKey → Code → Prop where
  | method {sign semicolon : CodeToken} {type code : Code} {flavor : Flavor} {spelling : String} :
      IsSign flavor sign → IsParenType type → IsSelector spelling code →
      semicolon.token = .semicolon →
      IsMember (.ofDeclaration .method spelling (some flavor)) (sign :: type ++ code ++ [semicolon])
  | property {keyword name semicolon : CodeToken} {attributes type : Code} :
      IsAt "@property" keyword → IsAttributes attributes → IsType type → IsIdentifier name →
      semicolon.token = .semicolon →
      IsMember ⟨.property, name.word⟩ (keyword :: attributes ++ type ++ [name, semicolon])

inductive IsMembers : List NodeKey → Code → Prop where
  | nil : IsMembers [] []
  | cons {key : NodeKey} {keys : List NodeKey} {front code : Code} : IsMember key front →
      IsMembers keys code → IsMembers (key :: keys) (front ++ code)

/-! ## Containers -/

/-- The superclass of a class, if it has one. -/
inductive IsSuperclass : Code → Prop where
  | none : IsSuperclass []
  | some {colon name : CodeToken} : colon.token = .colon → IsIdentifier name →
      IsSuperclass [colon, name]

/-- The protocols that a container lists, if it does. -/
inductive IsProtocols : Code → Prop where
  | none : IsProtocols []
  | some {less greater : CodeToken} {names : Code} : less.token = .less → IsNames names →
      greater.token = .greater → IsProtocols (less :: names ++ [greater])

/-! ## Functions and enumerations -/

/-- Parameters with a comma between each two. -/
inductive IsParameters : Code → Prop where
  | one {name : CodeToken} {type : Code} : IsType type → IsIdentifier name →
      IsParameters (type ++ [name])
  | more {name comma : CodeToken} {type code : Code} : IsType type → IsIdentifier name →
      comma.token = .comma → IsParameters code → IsParameters (type ++ name :: comma :: code)

/-- What stands between the parentheses of a prototype. -/
inductive IsArguments : Code → Prop where
  | none : IsArguments []
  | void {t : CodeToken} : t.isWord "void" = true → IsArguments [t]
  | some {code : Code} : IsParameters code → IsArguments code

/-- A value of an enumeration and its key. -/
inductive IsEnumerator : NodeKey → Code → Prop where
  | bare {name : CodeToken} : IsIdentifier name → IsEnumerator ⟨.enumValue, name.word⟩ [name]
  | numbered {name equals number : CodeToken} : IsIdentifier name → equals.token = .equals →
      number.token = .number → IsEnumerator ⟨.enumValue, name.word⟩ [name, equals, number]

/-- Values with a comma between each two. -/
inductive IsEnumerators : List NodeKey → Code → Prop where
  | one {key : NodeKey} {code : Code} : IsEnumerator key code → IsEnumerators [key] code
  | more {key : NodeKey} {keys : List NodeKey} {comma : CodeToken} {front code : Code} :
      IsEnumerator key front → comma.token = .comma → IsEnumerators keys code →
      IsEnumerators (key :: keys) (front ++ comma :: code)

/-- No token behind the first stands on a line below a comment. -/
def IsUninterrupted (head : Code) : Prop := ∀ t ∈ head.tail, t.afterComment = false

instance (head : Code) : Decidable (IsUninterrupted head) :=
  inferInstanceAs (Decidable (∀ t ∈ head.tail, t.afterComment = false))

/-! ## Macros -/

def isGap (c : Char) : Bool := c == ' ' || c == '\t'

/-- Letters, digits and underscores. -/
def isMacroChar (c : Char) : Bool := c.isAlphanum || c == '_'

/-- A directive that defines a macro. No name begins with a digit. -/
structure IsDefine (name : List Char) (directive : CodeToken) : Prop where
  token : directive.token = .directive
  text : ∃ gap gap' rest, directive.text = '#' :: gap ++ "define".toList ++ gap' ++ name ++ rest ∧
    gap.all isGap = true ∧ gap'.all isGap = true ∧ gap' ≠ [] ∧ rest.head?.any isMacroChar = false
  chars : name.all isMacroChar = true
  first : name.head?.any (fun c => !c.isDigit) = true

/-! ## Sources -/

/-- A node that is to be stored, and the keys of its members. -/
structure Entry where
  ref : ContainerRef
  members : List NodeKey := []
deriving DecidableEq, Repr

/-- A declaration and what it declares. -/
inductive IsDeclaration : Entry → Code → Prop where
  | interface {keyword name close : CodeToken} {superclass protocols members : Code}
      {keys : List NodeKey} :
      IsAt "@interface" keyword → IsIdentifier name → IsSuperclass superclass →
      IsProtocols protocols → IsMembers keys members → IsAt "@end" close →
      IsDeclaration ⟨.root ⟨.interface, name.word⟩, keys⟩
        (keyword :: name :: superclass ++ protocols ++ members ++ [close])
  | category {keyword name p category q close : CodeToken} {protocols members : Code}
      {keys : List NodeKey} :
      IsAt "@interface" keyword → IsIdentifier name → p.token = .openParen →
      IsIdentifier category → q.token = .closeParen → IsProtocols protocols →
      IsMembers keys members → IsAt "@end" close →
      IsDeclaration ⟨.pending ⟨name.word, ⟨.category, category.word⟩⟩, keys⟩
        (keyword :: name :: p :: category :: q :: protocols ++ members ++ [close])
  | classExtension {keyword name p q close : CodeToken} {protocols members : Code}
      {keys : List NodeKey} :
      IsAt "@interface" keyword → IsIdentifier name → p.token = .openParen →
      q.token = .closeParen → IsProtocols protocols → IsMembers keys members →
      IsAt "@end" close →
      IsDeclaration ⟨.pending ⟨name.word, ⟨.classExtension, ""⟩⟩, keys⟩
        (keyword :: name :: p :: q :: protocols ++ members ++ [close])
  | protocol {keyword name close : CodeToken} {protocols members : Code} {keys : List NodeKey} :
      IsAt "@protocol" keyword → IsIdentifier name → IsProtocols protocols →
      IsMembers keys members → IsAt "@end" close →
      IsDeclaration ⟨.root ⟨.protocol, name.word⟩, keys⟩
        (keyword :: name :: protocols ++ members ++ [close])
  | prototype {name p q semicolon : CodeToken} {type arguments : Code} :
      IsType type → IsIdentifier name → IsUninterrupted (type ++ [name]) →
      p.token = .openParen → IsArguments arguments → q.token = .closeParen →
      semicolon.token = .semicolon →
      IsDeclaration ⟨.root ⟨.function, name.word⟩, []⟩
        (type ++ name :: p :: arguments ++ [q, semicolon])
  | enumeration {keyword name p q semicolon : CodeToken} {values : Code} {keys : List NodeKey} :
      keyword.isWord "enum" = true → IsIdentifier name → IsUninterrupted [keyword, name] →
      p.token = .openBrace → IsEnumerators keys values → q.token = .closeBrace →
      semicolon.token = .semicolon →
      IsDeclaration ⟨.root ⟨.enumeration, name.word⟩, keys⟩
        (keyword :: name :: p :: values ++ [q, semicolon])
  | define {directive : CodeToken} {name : List Char} : IsDefine name directive →
      IsDeclaration ⟨.root ⟨.macroDefinition, String.ofList name⟩, []⟩ [directive]

/-- A declaration without a node. -/
inductive IsForward : Code → Prop where
  | classes {keyword semicolon : CodeToken} {names : Code} : IsAt "@class" keyword →
      IsNames names → semicolon.token = .semicolon → IsForward (keyword :: names ++ [semicolon])
  | protocol {keyword name semicolon : CodeToken} : IsAt "@protocol" keyword →
      IsIdentifier name → semicolon.token = .semicolon → IsForward [keyword, name, semicolon]
  | struct {keyword name semicolon : CodeToken} : keyword.isWord "struct" = true →
      IsIdentifier name → semicolon.token = .semicolon → IsForward [keyword, name, semicolon]

inductive IsSource : List Entry → Code → Prop where
  | nil : IsSource [] []
  | declared {entry : Entry} {entries : List Entry} {front code : Code} :
      IsDeclaration entry front → IsSource entries code →
      IsSource (entry :: entries) (front ++ code)
  | forward {entries : List Entry} {front code : Code} : IsForward front →
      IsSource entries code → IsSource entries (front ++ code)

end DeclDoc.Declaration
