import DeclDoc.Proofs.Pruning

/-!
# What pruning counts

`Store.paths` are the paths to the nodes of a store, each once. Every node that does not deserve to
be kept is taken out by itself, and pruning counts these (`Store.Reachable.removed_eq_countP`). That
is every node that is gone but for the members without documentation that the policy keeps: they fall
with the node that they stand in and are not counted (`Store.Reachable.prune_removed`).
-/

set_option autoImplicit false

namespace DeclDoc

namespace Node

/-! ## The nodes of a tree -/

mutual

/-- The trails to all nodes of a tree, each before those that go on from it. -/
def trails : Node → List (List NodeKey)
  | ⟨_, children⟩ => [] :: trailsAmong children

def trailsAmong : List (NodeKey × Node) → List (List NodeKey)
  | [] => []
  | (key, node) :: rest => node.trails.map (key :: ·) ++ trailsAmong rest

end

variable {policy : KeepPolicy} {node : Node} {κ β : Type} {map : List (κ × Node)}

theorem trails_eq (node : Node) :
    node.trails = [] :: node.children.flatMap fun entry => entry.2.trails.map (entry.1 :: ·) := by
  have hamong : ∀ children : List (NodeKey × Node),
      trailsAmong children = children.flatMap fun entry => entry.2.trails.map (entry.1 :: ·) := by
    intro children
    induction children with
    | nil => rfl
    | cons entry rest ih => rw [trailsAmong, ih, List.flatMap_cons]
  obtain ⟨info, children⟩ := node
  rw [trails, hamong]

theorem mem_flatMap_trails {path : κ → List NodeKey → β}
    (hpath : ∀ {k k' : κ} {t t' : List NodeKey}, path k t = path k' t' → k = k' ∧ t = t')
    {key : κ} {trail : List NodeKey} :
    (path key trail ∈ map.flatMap fun entry => entry.2.trails.map (path entry.1)) ↔
      ∃ node, (key, node) ∈ map ∧ trail ∈ node.trails := by
  rw [List.mem_flatMap]
  constructor
  · rintro ⟨⟨_, node⟩, hmem, hmapped⟩
    obtain ⟨_, htrail, heq⟩ := List.mem_map.1 hmapped
    obtain ⟨rfl, rfl⟩ := hpath heq
    exact ⟨node, hmem, htrail⟩
  · rintro ⟨node, hmem, htrail⟩
    exact ⟨(key, node), hmem, List.mem_map_of_mem htrail⟩

theorem mem_trails_iff (h : node.Ordered) {trail : List NodeKey} :
    trail ∈ node.trails ↔ (node.descend? trail).isSome = true := by
  induction trail generalizing node with
  | nil =>
    rw [trails_eq]
    exact ⟨fun _ => rfl, fun _ => List.mem_cons_self⟩
  | cons key trail ih =>
    obtain ⟨hchildren, hall⟩ := ordered_iff.1 h
    have hbelow : (node.descend? (key :: trail)).isSome = true ↔
        ∃ child, OrderedMap.find? key node.children = some child ∧
          (child.descend? trail).isSome = true := by
      rw [descend?]
      cases OrderedMap.find? key node.children <;> simp
    rw [trails_eq, List.mem_cons, mem_flatMap_trails List.cons.inj, hbelow]
    simp only [reduceCtorEq, false_or, ← OrderedMap.find?_eq_some_iff hchildren]
    exact exists_congr fun child => and_congr_right fun hchild => ih (hall key child hchild)

theorem nodup_flatMap_trails {path : κ → List NodeKey → β}
    (hpath : ∀ {k k' : κ} {t t' : List NodeKey}, path k t = path k' t' → k = k' ∧ t = t')
    (hkeys : (map.map (·.1)).Nodup) (h : ∀ entry ∈ map, entry.2.trails.Nodup) :
    (map.flatMap fun entry => entry.2.trails.map (path entry.1)).Nodup := by
  refine List.pairwise_flatMap.2 ⟨fun entry hentry => List.pairwise_map.2 ?_, ?_⟩
  · exact (h entry hentry).imp fun hne heq => hne (hpath heq).2
  · refine (List.pairwise_map.1 hkeys).imp fun hne x hx y hy heq => ?_
    obtain ⟨_, -, rfl⟩ := List.mem_map.1 hx
    obtain ⟨_, -, rfl⟩ := List.mem_map.1 hy
    exact hne (hpath heq).1

theorem nodup_trails (h : node.Ordered) : node.trails.Nodup := by
  induction node using Node.inductionOn with
  | step node ih =>
    obtain ⟨hchildren, hall⟩ := ordered_iff.1 h
    have hkeys : (node.children.map (·.1)).Nodup :=
      List.pairwise_map.2 (hchildren.imp OrderedSet.ne_of_compare_lt)
    rw [trails_eq, List.nodup_cons]
    refine ⟨fun hnil => ?_, nodup_flatMap_trails List.cons.inj hkeys fun entry hentry => ?_⟩
    · obtain ⟨_, -, htrail⟩ := List.mem_flatMap.1 hnil
      obtain ⟨_, -, heq⟩ := List.mem_map.1 htrail
      cases heq
    · exact ih _ _ hentry (hall _ _ ((OrderedMap.find?_eq_some_iff hchildren).2 hentry))

/-! ## Nodes taken out by themselves -/

/-- The node at the end of the trail is not kept among its siblings. -/
def dropsAt (policy : KeepPolicy) (node : Node) (trail : List NodeKey) : Bool :=
  (node.descend? trail).any fun below => !policy.keeps below

/-- A map counts what its trees count, and the trees that are not kept. -/
theorem removed_pruneEntries (path : κ → List NodeKey → β) {drops : β → Bool}
    (hdrops : ∀ entry ∈ map, ∀ trail, drops (path entry.1 trail) = entry.2.dropsAt policy trail)
    (h : ∀ entry ∈ map,
      (entry.2.prune policy).removed +
          (if policy.keeps (entry.2.prune policy).value then 0 else 1) =
        entry.2.trails.countP (entry.2.dropsAt policy)) :
    (pruneEntries policy map).removed =
      (map.flatMap fun entry => entry.2.trails.map (path entry.1)).countP drops := by
  induction map with
  | nil => rfl
  | cons entry rest ih =>
    obtain ⟨key, node⟩ := entry
    obtain ⟨hdropsFirst, hdropsRest⟩ := List.forall_mem_cons.1 hdrops
    obtain ⟨hfirst, hrest⟩ := List.forall_mem_cons.1 h
    have htree : (node.trails.map (path key)).countP drops =
        (node.prune policy).removed +
          if policy.keeps (node.prune policy).value then 0 else 1 := by
      rw [List.countP_map, hfirst]
      exact congrArg (node.trails.countP ·) (funext hdropsFirst)
    rw [List.flatMap_cons, List.countP_append, ← ih hdropsRest hrest, htree, pruneEntries]
    split
    · rfl
    · exact Nat.add_right_comm ..

/-- What pruning a node counts, and the node itself where it is not kept after that, are the nodes
that are not kept before it. -/
theorem removed_prune (ho : node.Ordered) (hl : node.LeafMembers) :
    (node.prune policy).removed + (if policy.keeps (node.prune policy).value then 0 else 1) =
      node.trails.countP (node.dropsAt policy) := by
  induction node using Node.inductionOn with
  | step node ih =>
    obtain ⟨hchildren, hall⟩ := ordered_iff.1 ho
    have hfind : ∀ entry ∈ node.children, OrderedMap.find? entry.1 node.children = some entry.2 :=
      fun entry hentry => (OrderedMap.find?_eq_some_iff hchildren).2 hentry
    have hmembers : (node.prune policy).removed =
        (node.children.flatMap fun entry => entry.2.trails.map (entry.1 :: ·)).countP
          (node.dropsAt policy) := by
      rw [prune_eq]
      refine removed_pruneEntries List.cons (fun entry hentry trail => ?_)
        fun entry hentry => ?_
      · rw [dropsAt, descend?, hfind entry hentry]
        rfl
      · exact ih _ _ hentry (hall _ _ (hfind entry hentry)) (hl.child hentry)
    have hself : node.dropsAt policy [] = !policy.keeps node := rfl
    rw [hmembers, keeps_prune hl, trails_eq node, List.countP_cons, hself]
    cases policy.keeps node <;> rfl

end Node

namespace Store

/-! ## The nodes of a store -/

/-- The trees of a store and where they stand. -/
def containers (store : Store) : List (ContainerRef × Node) :=
  store.roots.map (fun entry => (.root entry.1, entry.2)) ++
    store.pending.map fun entry => (.pending entry.1, entry.2)

/-- The paths to all nodes of a store. -/
def paths (store : Store) : List StorePath :=
  store.containers.flatMap fun entry => entry.2.trails.map (StorePath.mk entry.1)

variable {store : Store} {policy : KeepPolicy} {path : StorePath}

theorem map_fst_containers (store : Store) : store.containers.map (·.1) = store.refs := by
  rw [containers, refs, List.map_append, List.map_map, List.map_map]
  rfl

theorem mem_containers_iff (h : store.Ordered) {ref : ContainerRef} {node : Node} :
    (ref, node) ∈ store.containers ↔ store.container? ref = some node := by
  rw [containers, List.mem_append, List.mem_map, List.mem_map]
  cases ref with
  | root key =>
    rw [container?, OrderedMap.find?_eq_some_iff h.roots]
    simp
  | pending key =>
    rw [container?, OrderedMap.find?_eq_some_iff h.pending]
    simp

theorem mem_paths_iff (h : store.Ordered) :
    path ∈ store.paths ↔ (store.infoAt? path).isSome = true := by
  obtain ⟨start, trail⟩ := path
  rw [paths, Node.mem_flatMap_trails StorePath.mk.inj]
  simp only [mem_containers_iff h]
  rw [infoAt?]
  cases hnode : store.container? start with
  | none => simp
  | some node => simp [Node.mem_trails_iff (h.below _ node hnode), Node.infoAt?]

theorem nodup_paths (h : store.Ordered) : store.paths.Nodup := by
  refine Node.nodup_flatMap_trails StorePath.mk.inj ?_ fun entry hentry => ?_
  · rw [map_fst_containers]
    exact nodup_refs h
  · exact Node.nodup_trails (h.below _ _ ((mem_containers_iff h).1 hentry))

/-! ## What is counted -/

/-- The node at the path is not kept among its siblings. -/
def dropsAt (store : Store) (policy : KeepPolicy) (path : StorePath) : Bool :=
  (store.locate? path).any fun node => !policy.keeps node

theorem dropsAt_iff (h : store.Ordered) (hpath : path ∈ store.paths) :
    store.dropsAt policy path = true ↔ ¬store.Deserves policy path := by
  obtain ⟨info, hinfo⟩ := Option.isSome_iff_exists.1 ((mem_paths_iff h).1 hpath)
  obtain ⟨node, hnode, -⟩ := infoAt?_eq_some_iff.1 hinfo
  rw [deserves_iff h, dropsAt, hnode]
  simp

namespace Reachable

variable (h : store.Reachable)

include h

/-- What pruning counts of a map of the store. -/
theorem removed_pruneEntries (policy : KeepPolicy) {κ : Type} {map : List (κ × Node)}
    (ref : κ → ContainerRef)
    (hmap : ∀ entry ∈ map, store.container? (ref entry.1) = some entry.2) :
    (Node.pruneEntries policy map).removed =
      ((map.map fun entry => (ref entry.1, entry.2)).flatMap fun entry =>
        entry.2.trails.map (StorePath.mk entry.1)).countP (store.dropsAt policy) := by
  rw [List.flatMap_map]
  refine Node.removed_pruneEntries (fun key => StorePath.mk (ref key))
    (fun entry hentry trail => ?_) fun entry hentry => ?_
  · rw [dropsAt, locate?, hmap entry hentry]
    rfl
  · have hnode := hmap entry hentry
    exact Node.removed_prune (h.ordered.below _ _ hnode) (h.leafMembers hnode)

/-- Pruning counts the nodes that do not deserve to be kept. -/
theorem removed_eq_countP :
    (store.prune policy).removed = store.paths.countP (store.dropsAt policy) := by
  have hroots := h.removed_pruneEntries policy ContainerRef.root fun entry hentry =>
    (OrderedMap.find?_eq_some_iff h.ordered.roots).2 hentry
  have hpending := h.removed_pruneEntries policy ContainerRef.pending
    fun entry hentry => (OrderedMap.find?_eq_some_iff h.ordered.pending).2 hentry
  rw [paths, containers, List.flatMap_append, List.countP_append, ← hroots, ← hpending]
  rfl

/-- A node that deserves to be kept stands in nodes that do, unless it is a member that the policy
keeps. -/
theorem deserves_front {info : NodeInfo} (hinfo : store.infoAt? path = some info)
    (hdeserves : store.Deserves policy path)
    (hkept : ¬(policy.members = true ∧ info.kind.isMember = true)) {front : List NodeKey}
    (hfront : front <+: path.trail) : store.Deserves policy ⟨path.start, front⟩ := by
  obtain ⟨_, hsame, hneeds⟩ := hdeserves
  cases hinfo.symm.trans hsame
  split at hneeds
  · next hmember =>
    rcases hneeds with hpolicy | hdocumented
    · exact absurd ⟨hpolicy, hmember⟩ hkept
    · exact h.deserves_of_isDocumented hinfo hdocumented hfront
  · next hmember =>
    rcases hneeds with hpolicy | ⟨trail, inside, hinside, hdocumented⟩
    · obtain ⟨node, hnode, rfl⟩ := infoAt?_eq_some_iff.1 hinfo
      obtain ⟨below, rest, hbelow, -, hrest⟩ := locate?_front hnode hfront
      -- a member on the way would be the node at the end of it, which is none
      have hother : ¬below.info.kind.isMember = true := fun hleaf => by
        cases rest with
        | nil =>
          cases hrest
          exact hmember hleaf
        | cons key rest =>
          rw [Node.descend?, (h.leafMembers_locate? hbelow).leaf hleaf] at hrest
          cases hrest
      exact ⟨below.info, infoAt?_of_locate? hbelow, by rw [if_neg hother]; exact .inl hpolicy⟩
    · exact h.deserves_of_isDocumented hinside hdocumented
        (hfront.trans (List.prefix_append path.trail trail))

/-- A node is not kept among its siblings when it is gone and not a member that the policy keeps. -/
theorem dropsAt_iff_gone (hpath : path ∈ store.paths) :
    store.dropsAt policy path = true ↔
      ((store.prune policy).value.infoAt? path).isNone = true ∧
        ¬(policy.members = true ∧ path.key.kind.isMember = true) := by
  obtain ⟨info, hinfo⟩ := Option.isSome_iff_exists.1 ((mem_paths_iff h.ordered).1 hpath)
  rw [dropsAt_iff h.ordered hpath, ← h.kind_eq hinfo]
  constructor
  · intro hdrops
    refine ⟨?_, fun ⟨hpolicy, hmember⟩ => hdrops ⟨info, hinfo, ?_⟩⟩
    · rw [Option.isNone_iff_eq_none, Option.eq_none_iff_forall_ne_some]
      exact fun left hleft => hdrops ((h.infoAt?_prune_iff.1 hleft).2 path.trail (List.prefix_refl _))
    · rw [if_pos hmember]
      exact .inl hpolicy
  · rintro ⟨hgone, hkept⟩ hdeserves
    have hleft := h.infoAt?_prune_iff.2
      ⟨hinfo, fun front hfront => h.deserves_front hinfo hdeserves hkept hfront⟩
    rw [hleft] at hgone
    cases hgone

/-- A member that the policy keeps goes only when the node goes that it stands in. -/
theorem owner_gone {info : NodeInfo} (hinfo : store.infoAt? path = some info)
    (hpolicy : policy.members = true) (hmember : info.kind.isMember = true)
    (hgone : ((store.prune policy).value.infoAt? path).isNone = true) :
    path.trail ≠ [] ∧ (store.infoAt? path.owner).isSome = true ∧
      ((store.prune policy).value.infoAt? path.owner).isNone = true := by
  have hdeserves : store.Deserves policy path :=
    ⟨info, hinfo, by rw [if_pos hmember]; exact .inl hpolicy⟩
  have hfall : ¬∀ front, front <+: path.trail → store.Deserves policy ⟨path.start, front⟩ :=
    fun hall => by
      rw [h.infoAt?_prune_iff.2 ⟨hinfo, hall⟩] at hgone
      cases hgone
  obtain ⟨start, trail⟩ := path
  rcases List.eq_nil_or_concat' trail with rfl | ⟨front, key, rfl⟩
  · exact absurd (fun front hfront => List.prefix_nil.1 hfront ▸ hdeserves) hfall
  · obtain ⟨node, hnode, -⟩ := infoAt?_eq_some_iff.1 hinfo
    obtain ⟨owner, -, hlocate, -⟩ := locate?_front hnode (List.prefix_append front [key])
    rw [StorePath.owner_append]
    refine ⟨List.append_ne_nil_of_right_ne_nil front (List.cons_ne_nil key []), ?_, ?_⟩
    · rw [infoAt?_of_locate? hlocate]
      rfl
    · rw [Option.isNone_iff_eq_none, Option.eq_none_iff_forall_ne_some]
      intro left hleft
      refine hfall fun other hother => ?_
      rcases List.prefix_concat_iff.1 hother with rfl | hother
      · exact hdeserves
      · exact (h.infoAt?_prune_iff.1 hleft).2 other hother

end Reachable

/-- Pruning counts the nodes that are gone but for the members that the policy keeps. The count is that of
all nodes that are gone unless such a member falls, and it falls with the node that it stands in. -/
theorem Reachable.prune_removed (h : store.Reachable) (policy : KeepPolicy) :
    let after := (store.prune policy).value
    let gone := store.paths.filter fun path => (after.infoAt? path).isNone
    let uncounted := fun path : StorePath => policy.members && path.key.kind.isMember
    ((∀ path, path ∈ store.paths ↔ (store.infoAt? path).isSome = true) ∧ store.paths.Nodup) ∧
    (store.prune policy).removed = (gone.filter fun path => !uncounted path).length ∧
    ((store.prune policy).removed = gone.length ↔ ∀ path ∈ gone, uncounted path = false) ∧
    ∀ path ∈ gone, uncounted path = true → path.trail ≠ [] ∧ path.owner ∈ gone := by
  intro after gone uncounted
  have hcount : (store.prune policy).removed = (gone.filter fun path => !uncounted path).length := by
    rw [h.removed_eq_countP, List.filter_filter, ← List.countP_eq_length_filter]
    refine List.countP_congr fun path hpath => ?_
    rw [h.dropsAt_iff_gone hpath, not_and_or]
    simp [uncounted, after, and_comm]
  refine ⟨⟨fun _ => mem_paths_iff h.ordered, nodup_paths h.ordered⟩, hcount, ?_, ?_⟩
  · rw [hcount, List.length_filter_eq_length_iff]
    simp
  · intro path hpath huncounted
    obtain ⟨hmem, hgone⟩ := List.mem_filter.1 hpath
    obtain ⟨info, hinfo⟩ := Option.isSome_iff_exists.1 ((mem_paths_iff h.ordered).1 hmem)
    obtain ⟨hpolicy, hmember⟩ := Bool.and_eq_true_iff.1 huncounted
    rw [← h.kind_eq hinfo] at hmember
    obtain ⟨htrail, howner, hownerGone⟩ := h.owner_gone hinfo hpolicy hmember hgone
    exact ⟨htrail, List.mem_filter.2 ⟨(mem_paths_iff h.ordered).2 howner, hownerGone⟩⟩

/-- A class and its method, both without documentation. -/
def bareClass : List Turn := [.read ⟨{}, "A.h", "@interface C\n- (void)m;\n@end".toList⟩]

/-- The class is counted, the method is not. -/
theorem prune_removed_bareClass :
    let store := afterTurns bareClass
    let after := (store.prune ⟨false, true⟩).value
    let gone := store.paths.filter fun path => (after.infoAt? path).isNone
    store.Reachable ∧
      gone = [⟨.root ⟨.interface, "C"⟩, []⟩, ⟨.root ⟨.interface, "C"⟩, [⟨.method, "-m"⟩]⟩] ∧
      (store.prune ⟨false, true⟩).removed = 1 ∧
      (store.prune ⟨false, true⟩).removed ≠ gone.length := by
  intro store after gone
  have hreachable : store.Reachable := Reachable.empty.turn (.read _)
  have hgone : gone = [⟨.root ⟨.interface, "C"⟩, []⟩,
      ⟨.root ⟨.interface, "C"⟩, [⟨.method, "-m"⟩]⟩] := by decide +kernel
  obtain ⟨-, -, hexact, -⟩ := hreachable.prune_removed ⟨false, true⟩
  have hmethod : ⟨.root ⟨.interface, "C"⟩, [⟨.method, "-m"⟩]⟩ ∈ gone := by
    rw [hgone]
    exact List.mem_cons_of_mem _ List.mem_cons_self
  refine ⟨hreachable, hgone, by decide +kernel, fun hall => ?_⟩
  cases hexact.1 hall _ hmethod

end Store

end DeclDoc
