import DeclDoc.Store

/-! # Documented and undocumented nodes

The nodes of a store without documentation, and their removal. A node that is no member survives
while anything inside it is documented. `prune_info`: what is kept is not changed but for its members.
-/

set_option autoImplicit false

namespace DeclDoc

namespace Node

mutual

/-- The node or something inside it is documented. -/
def isDocumentedWithin : Node → Bool
  | ⟨info, children⟩ => info.isDocumented || anyDocumentedWithin children

def anyDocumentedWithin : List (NodeKey × Node) → Bool
  | [] => false
  | (_, node) :: rest => node.isDocumentedWithin || anyDocumentedWithin rest

end

mutual

/-- The nodes without documentation in a tree, each before what is inside it. -/
def undocumented : Node → List Node
  | ⟨info, children⟩ =>
    (if info.isDocumented then [] else [⟨info, children⟩]) ++ undocumentedAmong children

def undocumentedAmong : List (NodeKey × Node) → List Node
  | [] => []
  | (_, node) :: rest => node.undocumented ++ undocumentedAmong rest

end

end Node

/-- Which nodes without documentation are kept. -/
structure KeepPolicy where
  objects : Bool := true
  members : Bool := true
deriving DecidableEq, Repr

/-- Whether a node is kept among its siblings. -/
def KeepPolicy.keeps (policy : KeepPolicy) (node : Node) : Bool :=
  if node.info.kind.isMember then policy.members || node.info.isDocumented
  else policy.objects || node.isDocumentedWithin

/-- What is left of something, and how many nodes were removed one by one; what falls with a removed
node is not counted again. -/
structure Pruned (α : Type) where
  value : α
  removed : Nat

namespace Node

mutual

/-- A node without the members that are not kept. -/
def prune (policy : KeepPolicy) : Node → Pruned Node
  | ⟨info, children⟩ =>
    let members := pruneChildren policy children
    ⟨⟨info, members.value⟩, members.removed⟩

def pruneChildren (policy : KeepPolicy) :
    List (NodeKey × Node) → Pruned (List (NodeKey × Node))
  | [] => ⟨[], 0⟩
  | (key, node) :: rest =>
    let first := node.prune policy
    let others := pruneChildren policy rest
    if policy.keeps first.value then
      ⟨(key, first.value) :: others.value, first.removed + others.removed⟩
    else ⟨others.value, first.removed + others.removed + 1⟩

end

/-- The nodes of a map that are kept, each pruned. -/
def pruneEntries {κ : Type} (policy : KeepPolicy) : List (κ × Node) → Pruned (List (κ × Node))
  | [] => ⟨[], 0⟩
  | (key, node) :: rest =>
    let first := node.prune policy
    let others := pruneEntries policy rest
    if policy.keeps first.value then
      ⟨(key, first.value) :: others.value, first.removed + others.removed⟩
    else ⟨others.value, first.removed + others.removed + 1⟩

/-- Pruning changes nothing of a node but its members. -/
theorem prune_info (policy : KeepPolicy) (node : Node) :
    (node.prune policy).value.info = node.info := by
  cases node
  rfl

end Node

namespace Store

/-- Every node without documentation, roots first, in key order. -/
def undocumented (store : Store) : List Node :=
  (OrderedMap.values store.roots ++ OrderedMap.values store.pending).flatMap Node.undocumented

/-- Removes what is not kept. -/
def prune (store : Store) (policy : KeepPolicy) : Pruned Store :=
  let roots := Node.pruneEntries policy store.roots
  let pending := Node.pruneEntries policy store.pending
  ⟨{ store with roots := roots.value, pending := pending.value }, roots.removed + pending.removed⟩

theorem prune_diagnostics (store : Store) (policy : KeepPolicy) :
    (store.prune policy).value.diagnostics = store.diagnostics := rfl

end Store

end DeclDoc
