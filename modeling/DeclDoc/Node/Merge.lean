import DeclDoc.Node

/-! # Merging declarations

Two nodes of one key merge into one. The earlier node prevails wherever a node has one value; sets
and members are united. Disagreements are conflicts. `key_merge`: merging keeps the key.
-/

set_option autoImplicit false

namespace DeclDoc

/-- A disagreement between two declarations of the same thing. -/
inductive Conflict where
  | signatures (name : String)
  | types (name current incoming : String)
  | superclasses (name current incoming : String)
deriving DecidableEq, Repr

def Conflict.message : Conflict → String
  | .signatures name => "conflicting signatures for " ++ name
  | .types name current incoming =>
    "conflicting types for " ++ name ++ ": " ++ current ++ " vs " ++ incoming
  | .superclasses name current incoming =>
    name ++ " declared with superclass " ++ current ++ " and " ++ incoming

namespace NodeInfo

/-- The comment of a merged node: the first one that says something, else the first one. -/
def mergeComment (a b : NodeInfo) : Option Comment :=
  if !a.isDocumented && b.isDocumented then b.comment else a.comment.or b.comment

/-- The attributes of the first, then those that only the second has. -/
def mergeAttributes (current : List String) : (incoming : List String) → List String
  | [] => current
  | name :: rest =>
    mergeAttributes (if current.contains name then current else current ++ [name]) rest

def merge (a b : NodeInfo) : NodeInfo :=
  { a with
    location := a.location.earlier b.location
    declaredIn := OrderedSet.union a.declaredIn b.declaredIn
    comment := a.mergeComment b
    signature := if a.signature.isEmpty then b.signature else a.signature
    typeName := a.typeName.or b.typeName
    superclass := a.superclass.or b.superclass
    protocols := OrderedSet.union a.protocols b.protocols
    baseClass := a.baseClass.or b.baseClass
    attributes := mergeAttributes a.attributes b.attributes
    group := a.group.or b.group
    resolution := a.resolution.or b.resolution
    parent := a.parent.or b.parent }

def signatureConflict (a b : NodeInfo) : List Conflict :=
  if a.signature.isEmpty || b.signature.isEmpty || sameSignature a.signature b.signature then []
  else [.signatures a.displayName]

def typeConflict (a b : NodeInfo) : List Conflict :=
  match a.typeName, b.typeName with
  | some current, some incoming =>
    if sameType current incoming then [] else [.types a.displayName current incoming]
  | _, _ => []

def superclassConflict (a b : NodeInfo) : List Conflict :=
  match a.superclass, b.superclass with
  | some current, some incoming =>
    if current = incoming then [] else [.superclasses a.name current incoming]
  | _, _ => []

/-- What two nodes say differently of themselves. -/
def conflicts (a b : NodeInfo) : List Conflict :=
  a.signatureConflict b ++ a.typeConflict b ++ a.superclassConflict b

theorem key_merge (a b : NodeInfo) : (a.merge b).key = a.key := rfl

end NodeInfo

/-- A merged value and the conflicts found. -/
structure Merged (α : Type) where
  value : α
  conflicts : List Conflict := []

namespace Node

mutual

/-- The second node merged into the first. -/
def merge (a : Node) : Node → Merged Node
  | ⟨info, children⟩ =>
    let members := mergeChildren a.children children
    ⟨⟨a.info.merge info, members.value⟩, a.info.conflicts info ++ members.conflicts⟩

/-- Members put one after the other under their keys into a map, each merged into what is there. -/
def mergeChildren (into : List (NodeKey × Node)) :
    List (NodeKey × Node) → Merged (List (NodeKey × Node))
  | [] => ⟨into, []⟩
  | (_, child) :: rest =>
    let first : Merged (List (NodeKey × Node)) :=
      match OrderedMap.find? child.key into with
      | some existing =>
        let merged := existing.merge child
        ⟨OrderedMap.insert child.key merged.value into, merged.conflicts⟩
      | none => ⟨OrderedMap.insert child.key child into, []⟩
    let others := mergeChildren first.value rest
    ⟨others.value, first.conflicts ++ others.conflicts⟩

end

/-- A node merged into what stands under a key, or put there. -/
def mergeAt {κ : Type} [Ord κ] (key : κ) (node : Node) (into : List (κ × Node)) :
    Merged (List (κ × Node)) :=
  match OrderedMap.find? key into with
  | some existing =>
    let merged := existing.merge node
    ⟨OrderedMap.insert key merged.value into, merged.conflicts⟩
  | none => ⟨OrderedMap.insert key node into, []⟩

theorem info_merge (a b : Node) : (a.merge b).value.info = a.info.merge b.info := by
  cases b
  rfl

/-- Merging keeps the key. -/
theorem key_merge (a b : Node) : (a.merge b).value.key = a.key := by
  rw [key, info_merge, NodeInfo.key_merge, key]

/-- Members are merged one by one, each under its own key. -/
theorem mergeChildren_cons (into : List (NodeKey × Node)) (key : NodeKey) (child : Node)
    (rest : List (NodeKey × Node)) :
    mergeChildren into ((key, child) :: rest) =
      let first := mergeAt child.key child into
      ⟨(mergeChildren first.value rest).value,
        first.conflicts ++ (mergeChildren first.value rest).conflicts⟩ := rfl

end Node

end DeclDoc
