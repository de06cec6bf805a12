import DeclDoc.Proofs.Ordered
import DeclDoc.Store

/-!
# Paths through a store

A `StorePath` leads to a node of a store: it starts at a root or at a category that waits, and goes
on from member to member by their keys. `Store.infoAt?` is what the node there says of itself.
Every insertion changes what is said at one path and nowhere else (`infoAt?_insertRoot`,
`infoAt?_insertCategory`, `infoAt?_insertChild?`). The maps of a store that is `Store.Ordered` have
each key once (`nodup_refs`).
-/

set_option autoImplicit false

namespace DeclDoc

/-! ## Below a node -/

namespace Node

/-- The node that keys of members lead to. -/
def descend? : Node → List NodeKey → Option Node
  | node, [] => some node
  | node, key :: trail => (OrderedMap.find? key node.children).bind (·.descend? trail)

theorem descend?_append (node : Node) (front back : List NodeKey) :
    node.descend? (front ++ back) = (node.descend? front).bind (·.descend? back) := by
  induction front generalizing node with
  | nil => rfl
  | cons key front ih =>
    rw [List.cons_append, descend?, descend?, Option.bind_assoc]
    exact Option.bind_congr fun child _ => ih child

def infoAt? (node : Node) (trail : List NodeKey) : Option NodeInfo :=
  (node.descend? trail).map Node.info

@[simp] theorem infoAt?_nil (node : Node) : node.infoAt? [] = some node.info := rfl

theorem infoAt?_cons (node : Node) (key : NodeKey) (trail : List NodeKey) :
    node.infoAt? (key :: trail) =
      (OrderedMap.find? key node.children).bind (·.infoAt? trail) := by
  simp only [infoAt?, descend?, Option.map_bind]
  rfl

/-- A node that says something else has the same members. -/
theorem infoAt?_withInfo (info : NodeInfo) (node : Node) (trail : List NodeKey) :
    ({ node with info } : Node).infoAt? trail =
      if trail = [] then some info else node.infoAt? trail := by
  cases trail <;> simp [infoAt?_cons]

/-- All members of the node, and theirs, are in order. -/
def Ordered (node : Node) : Prop :=
  ∀ trail below, node.descend? trail = some below → OrderedMap.Ascending below.children

theorem ordered_iff {node : Node} :
    node.Ordered ↔ OrderedMap.Ascending node.children ∧
      ∀ key child, OrderedMap.find? key node.children = some child → child.Ordered := by
  refine ⟨fun h => ⟨h [] node rfl, ?_⟩, ?_⟩
  · intro key child hc trail below hb
    exact h (key :: trail) below (by simp [descend?, hc, hb])
  · rintro ⟨h, hc⟩
    intro trail below hb
    cases trail with
    | nil => cases hb; exact h
    | cons key trail =>
      obtain ⟨child, hchild, hbelow⟩ := Option.bind_eq_some_iff.1 hb
      exact hc key child hchild trail below hbelow

end Node

/-! ## One more declaration of a node -/

/-- What is said after one more declaration, `existing` being what was said before it. -/
def NodeInfo.mergedInto (info : NodeInfo) : (existing : Option NodeInfo) → NodeInfo
  | none => info
  | some existing => existing.merge info

namespace Node

/-- A node after one more declaration that brings no members. -/
def declared (existing : Option Node) (info : NodeInfo) : Node where
  info := info.mergedInto (existing.map Node.info)
  children := (existing.map Node.children).getD []

@[simp] theorem info_declared (existing : Option Node) (info : NodeInfo) :
    (declared existing info).info = info.mergedInto (existing.map Node.info) := rfl

theorem value_mergeAt_leaf {κ : Type} [Ord κ] (key : κ) (info : NodeInfo)
    (into : List (κ × Node)) :
    (mergeAt key { info } into).value =
      OrderedMap.insert key (declared (OrderedMap.find? key into) info) into := by
  unfold mergeAt
  cases OrderedMap.find? key into <;> rfl

theorem infoAt?_declared (existing : Option Node) (info : NodeInfo) (trail : List NodeKey) :
    (declared existing info).infoAt? trail =
      if trail = [] then some (info.mergedInto (existing.map Node.info))
      else existing.bind (·.infoAt? trail) := by
  cases trail with
  | nil => rfl
  | cons key trail => cases existing <;> simp [infoAt?_cons, declared]

end Node

/-! ## Paths -/

def ContainerRef.key : ContainerRef → NodeKey
  | .root key => key
  | .pending key => key.key

/-- A root or a category that waits, and the keys of members that lead on from it. -/
structure StorePath where
  start : ContainerRef
  trail : List NodeKey := []
deriving DecidableEq, Repr

/-- The key that a path ends in. -/
def StorePath.key (path : StorePath) : NodeKey := path.trail.getLast?.getD path.start.key

namespace Store

def locate? (store : Store) (path : StorePath) : Option Node :=
  (store.container? path.start).bind (·.descend? path.trail)

def infoAt? (store : Store) (path : StorePath) : Option NodeInfo :=
  (store.container? path.start).bind (·.infoAt? path.trail)

theorem infoAt?_eq_map_locate? (store : Store) (path : StorePath) :
    store.infoAt? path = (store.locate? path).map Node.info := by
  rw [infoAt?, locate?, Option.map_bind]
  rfl

theorem infoAt?_eq_some_iff {store : Store} {path : StorePath} {info : NodeInfo} :
    store.infoAt? path = some info ↔ ∃ node, store.locate? path = some node ∧ node.info = info := by
  rw [infoAt?_eq_map_locate?, Option.map_eq_some_iff]

theorem infoAt?_of_locate? {store : Store} {path : StorePath} {node : Node}
    (h : store.locate? path = some node) : store.infoAt? path = some node.info :=
  infoAt?_eq_some_iff.2 ⟨node, h, rfl⟩

/-- A member stands one key further on than its owner. -/
theorem locate?_member {store : Store} {path : StorePath} {owner : Node}
    (h : store.locate? path = some owner) (key : NodeKey) :
    store.locate? ⟨path.start, path.trail ++ [key]⟩ = OrderedMap.find? key owner.children := by
  obtain ⟨node, hnode, howner⟩ := Option.bind_eq_some_iff.1 h
  rw [locate?, hnode, Option.bind_some, Node.descend?_append, howner, Option.bind_some,
    Node.descend?]
  exact Option.bind_fun_some _

theorem infoAt?_start (store : Store) (start : ContainerRef) :
    store.infoAt? ⟨start, []⟩ = (store.container? start).map Node.info := by
  cases h : store.container? start <;> simp [infoAt?, h]

/-- All maps of the store are in order. -/
structure Ordered (store : Store) : Prop where
  roots : OrderedMap.Ascending store.roots
  pending : OrderedMap.Ascending store.pending
  below : ∀ start node, store.container? start = some node → node.Ordered

/-- Where the nodes of a store stand that are no members. -/
def refs (store : Store) : List ContainerRef :=
  store.roots.map (fun entry => .root entry.1) ++ store.pending.map fun entry => .pending entry.1

theorem length_refs (store : Store) : store.refs.length = store.size := by
  rw [refs, List.length_append, List.length_map, List.length_map]
  rfl

/-- The maps of an ordered store have each key once. -/
theorem nodup_refs {store : Store} (h : store.Ordered) : store.refs.Nodup := by
  have hroots : (store.roots.map fun entry => ContainerRef.root entry.1).Nodup :=
    List.pairwise_map.2 <| h.roots.imp fun hlt heq =>
      OrderedSet.ne_of_compare_lt hlt (ContainerRef.root.inj heq)
  have hpending : (store.pending.map fun entry => ContainerRef.pending entry.1).Nodup :=
    List.pairwise_map.2 <| h.pending.imp fun hlt heq =>
      OrderedSet.ne_of_compare_lt hlt (ContainerRef.pending.inj heq)
  refine List.nodup_append.2 ⟨hroots, hpending, ?_⟩
  intro a ha b hb hab
  obtain ⟨x, -, rfl⟩ := List.mem_map.1 ha
  obtain ⟨y, -, rfl⟩ := List.mem_map.1 hb
  cases hab

theorem mem_refs_iff {store : Store} (h : store.Ordered) {ref : ContainerRef} :
    ref ∈ store.refs ↔ (store.container? ref).isSome = true := by
  rw [refs, List.mem_append, List.mem_map, List.mem_map, Option.isSome_iff_exists]
  cases ref with
  | root key =>
    simp only [container?, OrderedMap.find?_eq_some_iff h.roots, ContainerRef.root.injEq,
      reduceCtorEq, and_false, exists_false, or_false]
    constructor
    · rintro ⟨⟨k, node⟩, hmem, rfl⟩
      exact ⟨node, hmem⟩
    · rintro ⟨node, hmem⟩
      exact ⟨_, hmem, rfl⟩
  | pending key =>
    simp only [container?, OrderedMap.find?_eq_some_iff h.pending, ContainerRef.pending.injEq,
      reduceCtorEq, and_false, exists_false, false_or]
    constructor
    · rintro ⟨⟨k, node⟩, hmem, rfl⟩
      exact ⟨node, hmem⟩
    · rintro ⟨node, hmem⟩
      exact ⟨_, hmem, rfl⟩

theorem ordered_empty : Ordered {} :=
  ⟨OrderedMap.ascending_nil, OrderedMap.ascending_nil, fun start _ h => by cases start <;> cases h⟩

theorem infoAt?_empty (path : StorePath) : Store.infoAt? {} path = none := by
  obtain ⟨start, trail⟩ := path
  cases start <;> rfl

theorem container?_setContainer (store : Store) (container other : ContainerRef) (node : Node) :
    (store.setContainer container node).container? other =
      if other = container then some node else store.container? other := by
  cases container <;> cases other <;>
    simp [setContainer, container?, OrderedMap.find?_insert]

theorem infoAt?_setContainer (store : Store) (container : ContainerRef) (node : Node)
    (path : StorePath) :
    (store.setContainer container node).infoAt? path =
      if path.start = container then node.infoAt? path.trail else store.infoAt? path := by
  rw [infoAt?, container?_setContainer]
  split <;> rfl

theorem Ordered.setContainer {store : Store} (h : store.Ordered) {node : Node}
    (hnode : node.Ordered) (container : ContainerRef) :
    (store.setContainer container node).Ordered where
  roots := by
    cases container with
    | root key => exact OrderedMap.ascending_insert key node h.roots
    | pending key => exact h.roots
  pending := by
    cases container with
    | root key => exact h.pending
    | pending key => exact OrderedMap.ascending_insert key node h.pending
  below start other hother := by
    rw [container?_setContainer] at hother
    split at hother
    · cases hother; exact hnode
    · exact h.below start other hother

/-- Diagnostics play no part in what stands where. -/
theorem infoAt?_withDiagnostics (store : Store) (diagnostics : List Diagnostic)
    (path : StorePath) : infoAt? { store with diagnostics } path = store.infoAt? path := rfl

theorem Ordered.withDiagnostics {store : Store} (h : store.Ordered)
    (diagnostics : List Diagnostic) : Ordered { store with diagnostics } :=
  ⟨h.roots, h.pending, h.below⟩

/-! ## Insertions -/

theorem insertRoot_eq (store : Store) (info : NodeInfo) :
    ∃ diagnostics, store.insertRoot { info } =
      { store.setContainer (.root info.key)
          (.declared (store.container? (.root info.key)) info) with diagnostics } := by
  refine ⟨(store.insertRoot { info }).diagnostics, ?_⟩
  simp only [insertRoot, Node.value_mergeAt_leaf]
  rfl

theorem insertCategory_eq (store : Store) (baseClass : String) (info : NodeInfo) :
    ∃ diagnostics, store.insertCategory baseClass { info } =
      { store.setContainer (.pending ⟨baseClass, info.key⟩)
          (.declared (store.container? (.pending ⟨baseClass, info.key⟩)) info) with
        diagnostics } := by
  refine ⟨(store.insertCategory baseClass { info }).diagnostics, ?_⟩
  simp only [insertCategory, Node.value_mergeAt_leaf]
  rfl

theorem insertChild?_eq {store : Store} {container : ContainerRef} {parent : Node}
    (h : store.container? container = some parent) (info : NodeInfo) :
    ∃ diagnostics, store.insertChild? container { info } =
      some { store.setContainer container
          { parent with
            children := OrderedMap.insert info.key
              (.declared (OrderedMap.find? info.key parent.children)
                { info with parent := some parent.key }) parent.children } with diagnostics } := by
  simp only [insertChild?, h, Option.map_some, Node.value_mergeAt_leaf]
  exact ⟨_, rfl⟩

/-- What a declaration at the start of a path changes. -/
theorem infoAt?_declareAt (store : Store) (container : ContainerRef) (info : NodeInfo)
    (path : StorePath) :
    (store.setContainer container (.declared (store.container? container) info)).infoAt? path =
      if path = ⟨container, []⟩ then some (info.mergedInto (store.infoAt? path))
      else store.infoAt? path := by
  obtain ⟨start, trail⟩ := path
  rw [infoAt?_setContainer]
  by_cases hs : start = container
  · subst hs
    by_cases ht : trail = []
    · subst ht
      simp [infoAt?_start]
    · simp [Node.infoAt?_declared, ht, infoAt?]
  · simp [hs]

/-- A node at the root changes what is said at its own path only. -/
theorem infoAt?_insertRoot (store : Store) (info : NodeInfo) (path : StorePath) :
    (store.insertRoot { info }).infoAt? path =
      if path = ⟨.root info.key, []⟩ then some (info.mergedInto (store.infoAt? path))
      else store.infoAt? path := by
  obtain ⟨diagnostics, h⟩ := insertRoot_eq store info
  rw [h, infoAt?_withDiagnostics, infoAt?_declareAt]

/-- A category that waits changes what is said at its own path only. -/
theorem infoAt?_insertCategory (store : Store) (baseClass : String) (info : NodeInfo)
    (path : StorePath) :
    (store.insertCategory baseClass { info }).infoAt? path =
      if path = ⟨.pending ⟨baseClass, info.key⟩, []⟩ then
        some (info.mergedInto (store.infoAt? path))
      else store.infoAt? path := by
  obtain ⟨diagnostics, h⟩ := insertCategory_eq store baseClass info
  rw [h, infoAt?_withDiagnostics, infoAt?_declareAt]

/-- A member under its key changes what is said there and below. -/
theorem infoAt?_setMember {store : Store} {container : ContainerRef} {parent : Node}
    (h : store.container? container = some parent) (key : NodeKey) (member : Node)
    (path : StorePath) :
    (store.setContainer container
        { parent with children := OrderedMap.insert key member parent.children }).infoAt? path =
      if path.start = container ∧ path.trail.head? = some key then member.infoAt? path.trail.tail
      else store.infoAt? path := by
  obtain ⟨start, trail⟩ := path
  rw [infoAt?_setContainer]
  by_cases hs : start = container
  · subst hs
    cases trail with
    | nil => simp [infoAt?, h]
    | cons k trail =>
      by_cases hk : k = key <;>
        simp [Node.infoAt?_cons, OrderedMap.find?_insert, infoAt?, h, hk]
  · simp [hs]

/-- A member changes what is said at its own path only. -/
theorem infoAt?_insertChild? {store : Store} {container : ContainerRef} {parent : Node}
    (h : store.container? container = some parent) (info : NodeInfo) :
    ∃ after, store.insertChild? container { info } = some after ∧ ∀ path,
      after.infoAt? path =
        if path = ⟨container, [info.key]⟩ then
          some ({ info with parent := some parent.key }.mergedInto (store.infoAt? path))
        else store.infoAt? path := by
  obtain ⟨diagnostics, hafter⟩ := insertChild?_eq h info
  refine ⟨_, hafter, ?_⟩
  intro path
  rw [infoAt?_withDiagnostics, infoAt?_setMember h]
  obtain ⟨start, trail⟩ := path
  by_cases hs : start = container
  · subst hs
    cases trail with
    | nil => simp
    | cons key trail =>
      by_cases hk : key = info.key
      · subst hk
        by_cases ht : trail = []
        · subst ht
          cases hf : OrderedMap.find? info.key parent.children <;>
            simp [infoAt?, h, Node.infoAt?_cons, hf]
        · simp [Node.infoAt?_declared, infoAt?, h, Node.infoAt?_cons, ht]
      · simp [hk]
  · simp [hs]

end Store

end DeclDoc
