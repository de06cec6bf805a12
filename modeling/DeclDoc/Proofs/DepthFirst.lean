import DeclDoc.Proofs.OutlineShape
import DeclDoc.Proofs.PruneCount

/-!
# Nodes, depth first

`Store.depthFirst` goes through the nodes of a store with their paths: roots by location, then the
categories that wait, below each node its children in the order of the source. Where all nodes stand
under their keys it comes to every node once (`Store.Keyed.nodup_depthFirst`,
`Store.Keyed.mem_depthFirst_iff`).
-/

set_option autoImplicit false

namespace DeclDoc

namespace StorePath

/-- The path that goes on to a child. -/
def child (path : StorePath) (key : NodeKey) : StorePath := ⟨path.start, path.trail ++ [key]⟩

@[simp] theorem depth_child (path : StorePath) (key : NodeKey) :
    (path.child key).depth = path.depth + 1 := by
  obtain ⟨start, trail⟩ := path
  cases start <;> simp [child, depth]

end StorePath

/-! ## Trees -/

namespace Node

theorem sizeOf_lt_of_mem_childrenInSourceOrder {node child : Node}
    (h : child ∈ node.childrenInSourceOrder) : sizeOf child < sizeOf node := by
  obtain ⟨⟨key, child⟩, hentry, rfl⟩ := List.mem_map.1 (mem_childrenInSourceOrder.1 h)
  exact sizeOf_lt_of_mem hentry

/-- The nodes of a tree that stands at a path. -/
def depthFirst (path : StorePath) (node : Node) : List (StorePath × Node) :=
  (path, node) :: node.childrenInSourceOrder.attach.flatMap fun ⟨child, _⟩ =>
    child.depthFirst (path.child child.key)
termination_by sizeOf node
decreasing_by exact sizeOf_lt_of_mem_childrenInSourceOrder (by assumption)

theorem depthFirst_eq (path : StorePath) (node : Node) :
    node.depthFirst path = (path, node) ::
      node.childrenInSourceOrder.flatMap fun child => child.depthFirst (path.child child.key) := by
  rw [depthFirst]
  congr 1
  simp

/-- Every node of a tree once, if its members stand under their keys. -/
theorem Keyed.perm_depthFirst {node : Node} (h : node.Keyed) (path : StorePath) :
    ((node.depthFirst path).map Prod.fst).Perm
      (node.trails.map fun trail => ⟨path.start, path.trail ++ trail⟩) := by
  induction node using Node.inductionOn generalizing path with
  | step node ih =>
    obtain ⟨hchildren, hall⟩ := keyed_iff.1 h
    have hentry : ∀ entry ∈ node.children,
        ((entry.2.depthFirst (path.child entry.2.key)).map Prod.fst).Perm
          ((entry.2.trails.map (entry.1 :: ·)).map fun trail => ⟨path.start, path.trail ++ trail⟩) := by
      rintro ⟨key, child⟩ hmem
      obtain ⟨rfl, hchild⟩ := hall key child ((OrderedMap.find?_eq_some_iff hchildren).2 hmem)
      have := ih _ child hmem hchild (path.child child.key)
      simpa [StorePath.child, Function.comp_def] using this
    rw [depthFirst_eq, trails_eq, List.map_cons, List.map_cons, List.append_nil, List.map_flatMap,
      List.map_flatMap]
    refine List.Perm.cons _ ?_
    refine ((List.mergeSort_perm _ _).flatMap_right _).trans ?_
    rw [OrderedMap.values, List.flatMap_map]
    exact List.Perm.flatMap_left _ hentry

end Node

/-! ## Stores -/

namespace Store

variable {store : Store}

/-- The nodes at the roots and below, roots by location. -/
def depthFirstRoots (store : Store) : List (StorePath × Node) :=
  ((OrderedMap.values store.roots).mergeSort fun a b =>
    (compare a.info.location b.info.location).isLE).flatMap fun node =>
      node.depthFirst ⟨.root node.key, []⟩

/-- The categories that wait and what is below them. -/
def depthFirstPending (store : Store) : List (StorePath × Node) :=
  store.pending.flatMap fun entry => entry.2.depthFirst ⟨.pending entry.1, []⟩

/-- All nodes with their paths, a node before those below it: the roots, then the categories that wait. -/
def depthFirst (store : Store) : List (StorePath × Node) :=
  store.depthFirstRoots ++ store.depthFirstPending

namespace Keyed

/-- A child of a node stands where its key leads. -/
theorem locate?_child (h : store.Keyed) {path : StorePath} {node child : Node}
    (hnode : store.locate? path = some node) (hchild : child ∈ node.childrenInSourceOrder) :
    store.locate? (path.child child.key) = some child := by
  obtain ⟨hchildren, hall⟩ := Node.keyed_iff.1 (h.locate? hnode)
  obtain ⟨⟨key, child⟩, hmem, rfl⟩ := List.mem_map.1 (Node.mem_childrenInSourceOrder.1 hchild)
  have hfind := (OrderedMap.find?_eq_some_iff hchildren).2 hmem
  obtain ⟨rfl, -⟩ := hall key child hfind
  exact (locate?_member hnode child.key).trans hfind

/-- Below a node of the store stand nodes of the store. -/
theorem locate?_of_mem_node (h : store.Keyed) {path below : StorePath} {node found : Node}
    (hnode : store.locate? path = some node) (hfound : (below, found) ∈ node.depthFirst path) :
    store.locate? below = some found := by
  induction node using Node.inductionOnChildren generalizing path with
  | step node ih =>
    rw [Node.depthFirst_eq] at hfound
    rcases List.mem_cons.1 hfound with heq | hfound
    · cases heq
      exact hnode
    · obtain ⟨child, hchild, hfound⟩ := List.mem_flatMap.1 hfound
      exact ih child hchild (h.locate?_child hnode hchild) hfound

theorem locate?_of_mem_depthFirst (h : store.Keyed) {path : StorePath} {node : Node}
    (hmem : (path, node) ∈ store.depthFirst) : store.locate? path = some node := by
  rcases List.mem_append.1 hmem with hmem | hmem
  · obtain ⟨top, htop, hmem⟩ := List.mem_flatMap.1 hmem
    obtain ⟨⟨key, top⟩, hroot, rfl⟩ := List.mem_map.1 (List.mem_mergeSort.1 htop)
    have hcontainer : store.container? (.root key) = some top :=
      (OrderedMap.find?_eq_some_iff h.ordered.roots).2 hroot
    have hkey : top.key = key := (h.container? hcontainer).1
    refine h.locate?_of_mem_node ?_ hmem
    rw [hkey, Store.locate?, hcontainer]
    rfl
  · obtain ⟨⟨key, top⟩, hpending, hmem⟩ := List.mem_flatMap.1 hmem
    refine h.locate?_of_mem_node ?_ hmem
    rw [Store.locate?, (h.pending hpending).1]
    rfl

theorem perm_depthFirst (h : store.Keyed) :
    (store.depthFirst.map Prod.fst).Perm store.paths := by
  have htree : ∀ ref node, (ref, node) ∈ store.containers →
      ((node.depthFirst ⟨ref, []⟩).map Prod.fst).Perm (node.trails.map (StorePath.mk ref)) := by
    intro ref node hmem
    have hnode := (mem_containers_iff h.ordered).1 hmem
    exact (h.container? hnode).2.perm_depthFirst ⟨ref, []⟩
  have hroot : ∀ entry ∈ store.roots, entry.2.key = entry.1 := fun entry hentry => by
    have hnode : store.container? (.root entry.1) = some entry.2 :=
      (OrderedMap.find?_eq_some_iff h.ordered.roots).2 hentry
    exact (h.container? hnode).1
  rw [depthFirst, depthFirstRoots, depthFirstPending, paths, containers, List.map_append,
    List.flatMap_append, List.map_flatMap, List.map_flatMap, List.flatMap_map, List.flatMap_map]
  refine List.Perm.append ?_ (List.Perm.flatMap_left _ fun entry hentry => ?_)
  · refine ((List.mergeSort_perm _ _).flatMap_right _).trans ?_
    rw [OrderedMap.values, List.flatMap_map]
    refine List.Perm.flatMap_left _ fun entry hentry => ?_
    rw [hroot entry hentry]
    exact htree _ _ (List.mem_append_left _ (List.mem_map_of_mem hentry))
  · exact htree _ _ (List.mem_append_right _ (List.mem_map_of_mem hentry))

theorem nodup_depthFirst (h : store.Keyed) : (store.depthFirst.map Prod.fst).Nodup :=
  h.perm_depthFirst.nodup_iff.2 (nodup_paths h.ordered)

theorem mem_depthFirst_iff (h : store.Keyed) {path : StorePath} {node : Node} :
    (path, node) ∈ store.depthFirst ↔ store.locate? path = some node := by
  refine ⟨h.locate?_of_mem_depthFirst, fun hnode => ?_⟩
  have hpath : path ∈ store.paths := by
    rw [mem_paths_iff h.ordered, infoAt?_of_locate? hnode]
    rfl
  obtain ⟨⟨path, found⟩, hfound, rfl⟩ := List.mem_map.1 (h.perm_depthFirst.mem_iff.2 hpath)
  rw [h.locate?_of_mem_depthFirst hfound] at hnode
  cases hnode
  exact hfound

end Keyed

end Store

end DeclDoc
