/-! # Kinds of documented declarations

A closed set of kinds. Containers own members; a member kind exists only inside a container.
`ofName?_name`: a kind is found by its name, and by no other name (`name_of_ofName?`).
-/

set_option autoImplicit false

namespace DeclDoc

inductive Kind where
  | interface
  | category
  | classExtension
  | protocol
  | method
  | property
  | function
  | enumeration
  | enumValue
  | typedef
  | constant
  | struct
  | union
  | macroDefinition
  | unknown
deriving DecidableEq, Repr, Inhabited

namespace Kind

/-- Every kind, in their order. -/
def all : List Kind :=
  [.interface, .category, .classExtension, .protocol, .method, .property, .function, .enumeration,
    .enumValue, .typedef, .constant, .struct, .union, .macroDefinition, .unknown]

def name : Kind → String
  | .interface => "interface"
  | .category => "category"
  | .classExtension => "class-extension"
  | .protocol => "protocol"
  | .method => "method"
  | .property => "property"
  | .function => "function"
  | .enumeration => "enum"
  | .enumValue => "enum-value"
  | .typedef => "typedef"
  | .constant => "constant"
  | .struct => "struct"
  | .union => "union"
  | .macroDefinition => "macro"
  | .unknown => "unknown"

def ofName? (text : String) : Option Kind := all.find? (·.name == text)

instance : Ord Kind := ⟨fun a b => compare a.ctorIdx b.ctorIdx⟩

/-- Kinds that own member nodes. -/
def isContainer : Kind → Bool
  | .interface | .category | .classExtension | .protocol | .enumeration => true
  | _ => false

/-- Kinds that exist only inside a container. -/
def isMember : Kind → Bool
  | .method | .property | .enumValue => true
  | _ => false

/-- Kinds that add members to a class declared elsewhere. -/
def isCategoryLike : Kind → Bool
  | .category | .classExtension => true
  | _ => false

/-- Whether a `member` may stand inside a container of this kind. -/
def accepts (container member : Kind) : Bool :=
  match member with
  | .method | .property =>
    match container with
    | .interface | .category | .classExtension | .protocol => true
    | _ => false
  | .enumValue => container == .enumeration
  | _ => false

theorem mem_all (kind : Kind) : kind ∈ all := by cases kind <;> decide

instance : Std.TransOrd Kind := 
  inferInstanceAs (Std.TransCmp (compareOn fun kind : Kind => kind.ctorIdx))

instance : Std.LawfulEqOrd Kind where
  eq_of_compare {a b} h := by
    have : a.ctorIdx = b.ctorIdx := Nat.compare_eq_eq.1 h
    cases a <;> cases b <;> first | rfl | cases this

theorem ofName?_name (kind : Kind) : ofName? kind.name = some kind := by cases kind <;> rfl

theorem name_of_ofName? {text : String} {kind : Kind} (h : ofName? text = some kind) :
    kind.name = text := by
  simpa using List.find?_some h

theorem isMember_of_accepts {container member : Kind} (h : container.accepts member = true) :
    member.isMember = true ∧ container.isContainer = true := by
  cases member <;> cases container <;> simp_all [accepts, isMember, isContainer]

end Kind

end DeclDoc
