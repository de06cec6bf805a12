import DeclDoc.Node.Merge

/-! # The store

A store gathers the nodes of a run. Categories and class extensions wait, keyed by their class, until
`finalize` moves them under it, so the order of files does not matter to where they end up. Those whose
class is unknown wait on and are counted. Conflicts of merges become warnings at the location of the
later declaration.
-/

set_option autoImplicit false

namespace DeclDoc

/-- Identity of a category that waits for its class. -/
structure CategoryKey where
  baseClass : String
  key : NodeKey
deriving DecidableEq, Repr, Inhabited

/-- By class, then by key. -/
instance : Ord CategoryKey where
  compare a b := (compare a.baseClass b.baseClass).then (compare a.key b.key)

instance : Std.TransOrd CategoryKey :=
  inferInstanceAs <| Std.TransCmp <|
    compareLex (compareOn CategoryKey.baseClass) (compareOn CategoryKey.key)

instance : Std.LawfulEqOrd CategoryKey where
  eq_of_compare {a b} h := by
    obtain ⟨baseClass, key⟩ := a
    obtain ⟨hbase, hkey⟩ := Ordering.then_eq_eq.1 h
    cases Std.LawfulEqOrd.eq_of_compare hbase
    cases Std.LawfulEqOrd.eq_of_compare hkey
    rfl

/-- A node that can take members. -/
inductive ContainerRef where
  | root (key : NodeKey)
  | pending (key : CategoryKey)
deriving DecidableEq, Repr

structure Store where
  roots : List (NodeKey × Node) := []
  pending : List (CategoryKey × Node) := []
  diagnostics : List Diagnostic := []
deriving Inhabited

namespace Store

/-- Number of root and waiting nodes. -/
def size (store : Store) : Nat := store.roots.length + store.pending.length

def isEmpty (store : Store) : Bool := store.size == 0

def root? (store : Store) (kind : Kind) (name : String) : Option Node :=
  OrderedMap.find? ⟨kind, name⟩ store.roots

def report (store : Store) (diagnostic : Diagnostic) : Store :=
  { store with diagnostics := store.diagnostics ++ [diagnostic] }

/-- Conflicts as warnings at a location. -/
def conflictWarnings (location : Location) (conflicts : List Conflict) : List Diagnostic :=
  conflicts.map fun conflict =>
    { severity := .warning, location := some location, message := conflict.message }

/-! ## Insertion -/

/-- Puts a node at the root, merged into what is there. -/
def insertRoot (store : Store) (node : Node) : Store :=
  let merged := Node.mergeAt node.key node store.roots
  { store with
    roots := merged.value
    diagnostics := store.diagnostics ++ conflictWarnings node.info.location merged.conflicts }

/-- Lets a category wait for its class, merged into what waits already. -/
def insertCategory (store : Store) (baseClass : String) (node : Node) : Store :=
  let merged := Node.mergeAt ⟨baseClass, node.key⟩ node store.pending
  { store with
    pending := merged.value
    diagnostics := store.diagnostics ++ conflictWarnings node.info.location merged.conflicts }

def container? (store : Store) : ContainerRef → Option Node
  | .root key => OrderedMap.find? key store.roots
  | .pending key => OrderedMap.find? key store.pending

/-- The store with another node in the place of a container. -/
def setContainer (store : Store) (container : ContainerRef) (node : Node) : Store :=
  match container with
  | .root key => { store with roots := OrderedMap.insert key node store.roots }
  | .pending key => { store with pending := OrderedMap.insert key node store.pending }

/-- Puts a member into a container, merged into what is there; `none` without that container. -/
def insertChild? (store : Store) (container : ContainerRef) (node : Node) : Option Store :=
  (store.container? container).map fun parent =>
    let member : Node := { node with info := { node.info with parent := some parent.key } }
    let merged := Node.mergeAt member.key member parent.children
    let store := store.setContainer container { parent with children := merged.value }
    { store with
      diagnostics := store.diagnostics ++ conflictWarnings node.info.location merged.conflicts }

/-! ## Categories and their classes -/

/-- What a category says when its class is not known. -/
def unknownClassWarning (key : CategoryKey) (info : NodeInfo) : Diagnostic where
  severity := .warning
  location := some info.location
  message := info.displayName ++ " extends unknown class " ++ key.baseClass

/-- Moves one waiting category under its class. Without the class it waits on, marked, and is warned
about unless it was marked before. -/
def resolve (store : Store) (key : CategoryKey) (node : Node) : Store :=
  let base : NodeKey := ⟨.interface, key.baseClass⟩
  match OrderedMap.find? base store.roots with
  | some interface =>
    let member : Node :=
      { node with info := { node.info with resolution := some .resolved, parent := some base } }
    let merged := Node.mergeAt member.key member interface.children
    { store with
      roots := OrderedMap.insert base { interface with children := merged.value } store.roots
      diagnostics := store.diagnostics ++ conflictWarnings node.info.location merged.conflicts }
  | none =>
    let warnings :=
      if node.info.resolution = some .unresolved then [] else [unknownClassWarning key node.info]
    { store with
      pending :=
        OrderedMap.insert key
          { node with info := { node.info with resolution := some .unresolved } } store.pending
      diagnostics := store.diagnostics ++ warnings }

/-- A store whose categories went to their classes, and the number of those that wait on. -/
structure Finalized extends Store where
  unresolved : Nat := 0

instance : Coe Finalized Store := ⟨Finalized.toStore⟩

/-- Moves one more category, or counts it. -/
def Finalized.resolve (closed : Finalized) (key : CategoryKey) (node : Node) : Finalized where
  toStore := closed.toStore.resolve key node
  unresolved :=
    if (closed.root? .interface key.baseClass).isSome then closed.unresolved
    else closed.unresolved + 1

/-- Moves every waiting category whose class is known under it; the others wait on. -/
def finalize (store : Store) : Finalized :=
  store.pending.foldl (fun closed (key, node) => closed.resolve key node)
    { toStore := { store with pending := [] } }

theorem finalize_toStore (store : Store) :
    store.finalize.toStore =
      store.pending.foldl (fun store (key, node) => store.resolve key node)
        { store with pending := [] } :=
  (List.foldl_hom Finalized.toStore fun _ _ => rfl).symm

/-! ## Laws of insertion -/

theorem size_report (store : Store) (diagnostic : Diagnostic) :
    (store.report diagnostic).size = store.size := rfl

theorem insertChild?_isSome_iff {store : Store} {container : ContainerRef} {node : Node} :
    (store.insertChild? container node).isSome ↔ (store.container? container).isSome := by
  simp [insertChild?]

end Store

end DeclDoc
