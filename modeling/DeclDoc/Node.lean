import DeclDoc.Comment
import DeclDoc.Entity
import DeclDoc.Ordered

/-! # Nodes

A node is what is known of one declared thing, put together from all its declarations, with the
members it owns under their keys. Sites and protocols are ordered sets, members an ordered map.
-/

set_option autoImplicit false

namespace DeclDoc

/-- Whether a category's class is known. -/
inductive Resolution where
  | resolved
  | unresolved
deriving DecidableEq, Repr, Inhabited

def Resolution.name : Resolution → String
  | .resolved => "resolved"
  | .unresolved => "unresolved"

/-- What a node says of itself. `location` is its earliest declaration site. -/
structure NodeInfo where
  kind : Kind
  name : String
  location : Location
  declaredIn : List Location
  comment : Option Comment := none
  signature : List Fragment := []
  flavor : Option Flavor := none
  typeName : Option String := none
  superclass : Option String := none
  protocols : List String := []
  baseClass : Option String := none
  attributes : List String := []
  group : Option String := none
  resolution : Option Resolution := none
  parent : Option NodeKey := none
deriving DecidableEq, Repr, Inhabited

namespace NodeInfo

def ofEntity (entity : Entity) (comment : Option Comment) : NodeInfo where
  kind := entity.kind
  name := entity.name
  location := entity.location
  declaredIn := [entity.location]
  comment
  signature := entity.signature
  flavor := entity.flavor
  typeName := entity.typeName
  superclass := entity.superclass
  protocols := OrderedSet.ofList entity.protocols
  baseClass := entity.baseClass
  attributes := entity.attributes
  group := entity.group

section
variable (entity : Entity) (comment : Option Comment)

@[simp] theorem ofEntity_kind : (ofEntity entity comment).kind = entity.kind := rfl
@[simp] theorem ofEntity_name : (ofEntity entity comment).name = entity.name := rfl
@[simp] theorem ofEntity_location : (ofEntity entity comment).location = entity.location := rfl
@[simp] theorem ofEntity_declaredIn :
    (ofEntity entity comment).declaredIn = [entity.location] := rfl
@[simp] theorem ofEntity_comment : (ofEntity entity comment).comment = comment := rfl
@[simp] theorem ofEntity_signature : (ofEntity entity comment).signature = entity.signature := rfl
@[simp] theorem ofEntity_flavor : (ofEntity entity comment).flavor = entity.flavor := rfl
@[simp] theorem ofEntity_typeName : (ofEntity entity comment).typeName = entity.typeName := rfl
@[simp] theorem ofEntity_superclass :
    (ofEntity entity comment).superclass = entity.superclass := rfl
@[simp] theorem ofEntity_protocols :
    (ofEntity entity comment).protocols = OrderedSet.ofList entity.protocols := rfl
@[simp] theorem ofEntity_baseClass : (ofEntity entity comment).baseClass = entity.baseClass := rfl
@[simp] theorem ofEntity_attributes :
    (ofEntity entity comment).attributes = entity.attributes := rfl
@[simp] theorem ofEntity_group : (ofEntity entity comment).group = entity.group := rfl
@[simp] theorem ofEntity_resolution : (ofEntity entity comment).resolution = none := rfl
@[simp] theorem ofEntity_parent : (ofEntity entity comment).parent = none := rfl

end

def key (info : NodeInfo) : NodeKey := .ofDeclaration info.kind info.name info.flavor

/-- There is a comment that says something. -/
def isDocumented (info : NodeInfo) : Bool := info.comment.any fun comment => !comment.isEmpty

/-- `Class(Category)` for categories, the signed selector for methods, else the name. -/
def displayName (info : NodeInfo) : String :=
  match info.kind with
  | .category | .classExtension => info.baseClass.getD "?" ++ "(" ++ info.name ++ ")"
  | .method => info.key.name
  | _ => info.name

end NodeInfo

/-- A node with its members. -/
structure Node where
  info : NodeInfo
  children : List (NodeKey × Node) := []
deriving Repr, Inhabited

namespace Node

def ofEntity (entity : Entity) (comment : Option Comment) : Node :=
  { info := .ofEntity entity comment }

def key (node : Node) : NodeKey := node.info.key

/-- The first child of a kind and a name, the name without a sign. -/
def child? (node : Node) (kind : Kind) (name : String) : Option Node :=
  (OrderedMap.values node.children).find? fun child =>
    child.info.kind == kind && child.info.name == name

/-- Earlier sites first, then smaller keys. -/
def sourceOrder (a b : Node) : Ordering :=
  (compare a.info.location b.info.location).then (compare a.key b.key)

/-- The children as they were first declared. -/
def childrenInSourceOrder (node : Node) : List Node :=
  (OrderedMap.values node.children).mergeSort fun a b => (a.sourceOrder b).isLE

mutual

/-- Number of nodes in a tree. -/
def count : Node → Nat
  | ⟨_, children⟩ => counts children + 1

def counts : List (NodeKey × Node) → Nat
  | [] => 0
  | (_, node) :: rest => node.count + counts rest

end

theorem key_ofEntity (entity : Entity) (comment : Option Comment) :
    (ofEntity entity comment).key = entity.key := rfl

end Node

end DeclDoc
