import DeclDoc.Proofs.Reachable

/-!
# What pruning keeps

Pruning works from the inside out and asks of every node, once it is pruned itself, whether it is
kept. `Store.Deserves` says on the store before what a node needs to be kept among its siblings: a
member has to be documented, any other node has to have something documented in it, unless the policy
keeps such nodes anyway. `Store.Reachable.prune_deserving`: what is left is what deserves to be kept
and stands only in nodes that do.

Asking inside out is asking on the store before because pruning takes nothing documented
(`Node.isDocumentedWithin_prune`), and that holds because members hold nothing (`Node.LeafMembers`),
so a member without documentation takes nothing documented with it.
-/

set_option autoImplicit false

namespace DeclDoc

namespace Node

variable {policy : KeepPolicy} {node : Node}

/-! ## What is documented stays -/

/-- What has something documented in it is kept, whatever the policy. -/
theorem keeps_of_isDocumentedWithin (hl : node.LeafMembers)
    (h : node.isDocumentedWithin = true) : policy.keeps node = true := by
  unfold KeepPolicy.keeps
  split
  · next hmember =>
    rw [isDocumentedWithin_eq, hl.leaf hmember, List.any_nil, Bool.or_false] at h
    rw [h, Bool.or_true]
  · rw [h, Bool.or_true]

theorem mem_children_prune_iff {key : NodeKey} {child : Node} :
    (key, child) ∈ (node.prune policy).value.children ↔
      ∃ before, (key, before) ∈ node.children ∧ child = (before.prune policy).value ∧
        policy.keeps child = true := by
  rw [children_prune, value_pruneEntries, List.mem_filter, List.mem_map]
  constructor
  · rintro ⟨⟨⟨k, before⟩, hmem, heq⟩, hkeeps⟩
    obtain ⟨rfl, rfl⟩ := Prod.mk.inj heq
    exact ⟨before, hmem, rfl, hkeeps⟩
  · rintro ⟨before, hmem, rfl, hkeeps⟩
    exact ⟨⟨_, hmem, rfl⟩, hkeeps⟩

theorem LeafMembers.prune (h : node.LeafMembers) : (node.prune policy).value.LeafMembers := by
  induction h with
  | intro leaf _ ih =>
    refine ⟨fun hmember => ?_, fun key child hmem => ?_⟩
    · rw [prune_info] at hmember
      rw [children_prune, leaf hmember, pruneEntries]
    · obtain ⟨before, hbefore, rfl, -⟩ := mem_children_prune_iff.1 hmem
      exact ih key before hbefore

/-- Pruning takes nothing documented. -/
theorem isDocumentedWithin_prune (h : node.LeafMembers) :
    (node.prune policy).value.isDocumentedWithin = node.isDocumentedWithin := by
  induction h with
  | @intro node _ inside ih =>
    have hany : ((node.prune policy).value.children.any fun entry => entry.2.isDocumentedWithin) =
        node.children.any fun entry => entry.2.isDocumentedWithin := by
      rw [Bool.eq_iff_iff, List.any_eq_true, List.any_eq_true]
      constructor
      · rintro ⟨⟨key, child⟩, hmem, hchild⟩
        obtain ⟨before, hbefore, rfl, -⟩ := mem_children_prune_iff.1 hmem
        exact ⟨(key, before), hbefore, ih key before hbefore ▸ hchild⟩
      · rintro ⟨⟨key, child⟩, hmem, hchild⟩
        have hkept := (ih key child hmem).trans hchild
        exact ⟨(key, (child.prune policy).value), mem_children_prune_iff.2
          ⟨child, hmem, rfl, keeps_of_isDocumentedWithin (inside key child hmem).prune hkept⟩, hkept⟩
    rw [isDocumentedWithin_eq, isDocumentedWithin_eq node, prune_info, hany]

/-- Whether a node is kept can be told before its members are pruned. -/
theorem keeps_prune (h : node.LeafMembers) :
    policy.keeps (node.prune policy).value = policy.keeps node := by
  rw [KeepPolicy.keeps, KeepPolicy.keeps, prune_info, isDocumentedWithin_prune h]

/-! ## Pruning again -/

theorem pruneEntries_eq_self {κ : Type} {map : List (κ × Node)}
    (h : ∀ entry ∈ map, entry.2.prune policy = ⟨entry.2, 0⟩ ∧ policy.keeps entry.2 = true) :
    pruneEntries policy map = ⟨map, 0⟩ := by
  induction map with
  | nil => rfl
  | cons entry rest ih =>
    obtain ⟨key, node⟩ := entry
    obtain ⟨⟨hself, hkeeps⟩, hrest⟩ := List.forall_mem_cons.1 h
    rw [pruneEntries, ih hrest, hself]
    exact if_pos hkeeps

theorem prune_eq (node : Node) :
    node.prune policy = ⟨⟨node.info, (pruneEntries policy node.children).value⟩,
      (pruneEntries policy node.children).removed⟩ := by
  rw [← pruneChildren_eq]
  cases node
  rfl

/-- A pruned map has nothing left to prune. -/
theorem pruneEntries_pruneEntries {κ : Type} (policy : KeepPolicy) (map : List (κ × Node))
    (h : ∀ entry ∈ map,
      (entry.2.prune policy).value.prune policy = ⟨(entry.2.prune policy).value, 0⟩) :
    pruneEntries policy (pruneEntries policy map).value = ⟨(pruneEntries policy map).value, 0⟩ := by
  refine pruneEntries_eq_self fun entry hentry => ?_
  rw [value_pruneEntries, List.mem_filter, List.mem_map] at hentry
  obtain ⟨⟨before, hbefore, rfl⟩, hkeeps⟩ := hentry
  exact ⟨h before hbefore, hkeeps⟩

theorem prune_prune (policy : KeepPolicy) (node : Node) :
    (node.prune policy).value.prune policy = ⟨(node.prune policy).value, 0⟩ := by
  induction node using Node.inductionOn with
  | step node ih =>
    have hchildren := pruneEntries_pruneEntries policy node.children fun entry hentry =>
      ih entry.1 entry.2 hentry
    rw [prune_eq (node.prune policy).value, children_prune, hchildren, prune_info, prune_eq node]

/-! ## What is left of a tree -/

/-- What stands below a pruned node stood there before, and is pruned. -/
theorem descend?_prune (ho : node.Ordered) {trail : List NodeKey} {below : Node}
    (h : (node.prune policy).value.descend? trail = some below) :
    ∃ before, node.descend? trail = some before ∧ below = (before.prune policy).value := by
  induction trail generalizing node with
  | nil =>
    cases h
    exact ⟨node, rfl, rfl⟩
  | cons key trail ih =>
    obtain ⟨hchildren, hall⟩ := ordered_iff.1 ho
    rw [descend?, children_prune, find?_pruneEntries policy key hchildren] at h
    obtain ⟨child, hchild, hbelow⟩ := Option.bind_eq_some_iff.1 h
    obtain ⟨before, hbefore, rfl⟩ := Option.map_eq_some_iff.1 (Option.filter_eq_some_iff.1 hchild).1
    obtain ⟨old, hold, heq⟩ := ih (hall key before hbefore) hbelow
    exact ⟨old, by rw [descend?, hbefore]; exact hold, heq⟩

theorem keys_prune_sublist (policy : KeepPolicy) (node : Node) :
    ((node.prune policy).value.children.map (·.1)).Sublist (node.children.map (·.1)) := by
  have hkeys : node.children.map (·.1) =
      (node.children.map fun entry => (entry.1, (entry.2.prune policy).value)).map (·.1) := by
    rw [List.map_map]
    rfl
  rw [children_prune, value_pruneEntries, hkeys]
  exact List.filter_sublist.map _

/-- What is left below a node is what is kept, and stands in what is kept. -/
theorem infoAt?_prune_iff (ho : node.Ordered) (hl : node.LeafMembers) {trail : List NodeKey}
    {info : NodeInfo} :
    (node.prune policy).value.infoAt? trail = some info ↔
      node.infoAt? trail = some info ∧
        ∀ front, front <+: trail → front ≠ [] →
          ∃ below, node.descend? front = some below ∧ policy.keeps below = true := by
  induction trail generalizing node with
  | nil =>
    rw [infoAt?_nil, infoAt?_nil, prune_info]
    refine ⟨fun h => ⟨h, fun front hfront hne => absurd (List.prefix_nil.1 hfront) hne⟩, And.left⟩
  | cons key trail ih =>
    obtain ⟨hchildren, hall⟩ := ordered_iff.1 ho
    rw [infoAt?_cons, infoAt?_cons, children_prune, find?_pruneEntries policy key hchildren]
    cases hchild : OrderedMap.find? key node.children with
    | none => simp
    | some child =>
      have hleaf := hl.child (OrderedMap.mem_of_find? hchild)
      have hbelow : ∀ front, node.descend? (key :: front) = child.descend? front := fun front => by
        rw [descend?, hchild]
        rfl
      rw [Option.map_some, Option.filter_some, keeps_prune hleaf, Option.bind_some]
      constructor
      · intro h
        split at h
        · next hkeeps =>
          obtain ⟨hinfo, hfronts⟩ := (ih (hall key child hchild) hleaf).1 h
          refine ⟨hinfo, fun front hfront hne => ?_⟩
          obtain ⟨k, front, rfl⟩ := List.exists_cons_of_ne_nil hne
          obtain ⟨rfl, hrest⟩ := List.cons_prefix_cons.1 hfront
          rw [hbelow]
          by_cases hnil : front = []
          · exact ⟨child, hnil ▸ rfl, hkeeps⟩
          · exact hfronts front hrest hnil
        · cases h
      · rintro ⟨hinfo, hfronts⟩
        obtain ⟨below, heq, hkeeps⟩ := hfronts [key] ⟨trail, rfl⟩ (List.cons_ne_nil key [])
        rw [hbelow] at heq
        cases heq
        rw [if_pos hkeeps]
        refine (ih (hall key child hchild) hleaf).2 ⟨hinfo, fun front hfront _ => ?_⟩
        rw [← hbelow]
        exact hfronts (key :: front) (List.cons_prefix_cons.2 ⟨rfl, hfront⟩)
          (List.cons_ne_nil key front)

end Node

/-! ## Stores -/

namespace Store

/-- What a node of the store needs to be kept among its siblings. -/
def Deserves (store : Store) (policy : KeepPolicy) (path : StorePath) : Prop :=
  ∃ info, store.infoAt? path = some info ∧
    if info.kind.isMember then policy.members = true ∨ info.isDocumented = true
    else policy.objects = true ∨ ∃ trail inside,
      store.infoAt? ⟨path.start, path.trail ++ trail⟩ = some inside ∧ inside.isDocumented = true

variable {store : Store} {policy : KeepPolicy} {path : StorePath}

/-- What is said below a node. -/
theorem infoAt?_below {node : Node} (hnode : store.locate? path = some node) (trail : List NodeKey) :
    store.infoAt? ⟨path.start, path.trail ++ trail⟩ = node.infoAt? trail := by
  obtain ⟨start, hstart, hbelow⟩ := Option.bind_eq_some_iff.1 hnode
  rw [infoAt?, hstart, Option.bind_some, Node.infoAt?, Node.descend?_append, hbelow]
  rfl

/-- The nodes that a node stands in. -/
theorem locate?_front {node : Node} (hnode : store.locate? path = some node) {front : List NodeKey}
    (hfront : front <+: path.trail) :
    ∃ below rest, store.locate? ⟨path.start, front⟩ = some below ∧ front ++ rest = path.trail ∧
      below.descend? rest = some node := by
  obtain ⟨rest, hrest⟩ := hfront
  obtain ⟨start, hstart, hnode⟩ := Option.bind_eq_some_iff.1 hnode
  rw [← hrest, Node.descend?_append] at hnode
  obtain ⟨below, hbelow, hnode⟩ := Option.bind_eq_some_iff.1 hnode
  refine ⟨below, rest, ?_, hrest, hnode⟩
  rw [locate?, hstart]
  exact hbelow

theorem Ordered.locate? (h : store.Ordered) {node : Node} (hnode : store.locate? path = some node) :
    node.Ordered := by
  obtain ⟨start, hstart, hbelow⟩ := Option.bind_eq_some_iff.1 hnode
  exact (h.below _ start hstart).descend? hbelow

/-- What is kept once it is pruned is what deserves it before. -/
theorem deserves_iff (h : store.Ordered) :
    store.Deserves policy path ↔
      ∃ node, store.locate? path = some node ∧ policy.keeps node = true := by
  have hsame : ∀ node, store.locate? path = some node →
      ((if node.info.kind.isMember then policy.members = true ∨ node.info.isDocumented = true
        else policy.objects = true ∨ ∃ trail inside,
          store.infoAt? ⟨path.start, path.trail ++ trail⟩ = some inside ∧
            inside.isDocumented = true) ↔ policy.keeps node = true) := by
    intro node hnode
    unfold KeepPolicy.keeps
    split
    · rw [Bool.or_eq_true]
    · rw [Bool.or_eq_true, Node.isDocumentedWithin_iff (h.locate? hnode)]
      simp only [infoAt?_below hnode]
  constructor
  · rintro ⟨info, hinfo, hneeds⟩
    obtain ⟨node, hnode, rfl⟩ := infoAt?_eq_some_iff.1 hinfo
    exact ⟨node, hnode, (hsame node hnode).1 hneeds⟩
  · rintro ⟨node, hnode, hkeeps⟩
    exact ⟨node.info, infoAt?_of_locate? hnode, (hsame node hnode).2 hkeeps⟩

namespace Reachable

variable (h : store.Reachable)

include h

/-- What is left of a store is what deserves it and stands only in what does. -/
theorem infoAt?_prune_iff {info : NodeInfo} :
    (store.prune policy).value.infoAt? path = some info ↔
      store.infoAt? path = some info ∧
        ∀ front, front <+: path.trail → store.Deserves policy ⟨path.start, front⟩ := by
  simp only [deserves_iff h.ordered]
  rw [infoAt?, container?_prune h.ordered, infoAt?]
  cases hnode : store.container? path.start with
  | none => simp
  | some node =>
    have hleaf := h.leafMembers hnode
    have hlocate : ∀ front, store.locate? ⟨path.start, front⟩ = node.descend? front := fun front => by
      rw [locate?, hnode]
      rfl
    simp only [hlocate]
    rw [Option.map_some, Option.filter_some, Node.keeps_prune hleaf, Option.bind_some]
    constructor
    · intro hinfo
      split at hinfo
      · next hkeeps =>
        obtain ⟨hbefore, hfronts⟩ :=
          (Node.infoAt?_prune_iff (h.ordered.below _ node hnode) hleaf).1 hinfo
        refine ⟨hbefore, fun front hfront => ?_⟩
        by_cases hnil : front = []
        · exact ⟨node, hnil ▸ rfl, hkeeps⟩
        · exact hfronts front hfront hnil
      · cases hinfo
    · rintro ⟨hbefore, hfronts⟩
      obtain ⟨start, hstart, hkeeps⟩ := hfronts [] (List.nil_prefix)
      cases hstart
      rw [if_pos hkeeps]
      exact (Node.infoAt?_prune_iff (h.ordered.below _ node hnode) hleaf).2
        ⟨hbefore, fun front hfront _ => hfronts front hfront⟩

/-- What is documented deserves to be kept, and so does what it stands in. -/
theorem deserves_of_isDocumented {info : NodeInfo} (hinfo : store.infoAt? path = some info)
    (hdocumented : info.isDocumented = true) {front : List NodeKey} (hfront : front <+: path.trail) :
    store.Deserves policy ⟨path.start, front⟩ := by
  obtain ⟨last, hlast, rfl⟩ := infoAt?_eq_some_iff.1 hinfo
  obtain ⟨middle, rest, hmiddle, -, hbelow⟩ := locate?_front hlast hfront
  have hwithin : middle.isDocumentedWithin = true :=
    (Node.isDocumentedWithin_iff (h.ordered.locate? hmiddle)).2
      ⟨rest, last.info, by rw [Node.infoAt?, hbelow]; rfl, hdocumented⟩
  exact (deserves_iff h.ordered).2
    ⟨middle, hmiddle, Node.keeps_of_isDocumentedWithin (h.leafMembers_locate? hmiddle) hwithin⟩

end Reachable

/-- What is left of a node says what it said, and has some of the members that it had. -/
theorem locate?_prune (h : store.Ordered) {node : Node}
    (hnode : (store.prune policy).value.locate? path = some node) :
    ∃ before, store.locate? path = some before ∧ node.info = before.info ∧
      (node.children.map (·.1)).Sublist (before.children.map (·.1)) := by
  rw [locate?, container?_prune h] at hnode
  obtain ⟨start, hstart, hbelow⟩ := Option.bind_eq_some_iff.1 hnode
  obtain ⟨root, hroot, rfl⟩ := Option.map_eq_some_iff.1 (Option.filter_eq_some_iff.1 hstart).1
  obtain ⟨before, hbefore, rfl⟩ := Node.descend?_prune (h.below _ root hroot) hbelow
  refine ⟨before, ?_, Node.prune_info policy before, Node.keys_prune_sublist policy before⟩
  rw [locate?, hroot]
  exact hbefore

theorem prune_prune (store : Store) (policy : KeepPolicy) :
    (store.prune policy).value.prune policy = ⟨(store.prune policy).value, 0⟩ := by
  have hroots := Node.pruneEntries_pruneEntries policy store.roots
    fun entry _ => Node.prune_prune policy entry.2
  have hpending := Node.pruneEntries_pruneEntries policy store.pending
    fun entry _ => Node.prune_prune policy entry.2
  rw [prune, prune, hroots, hpending]
  rfl

/-- Pruning leaves the nodes that deserve to be kept and stand only in nodes that do. What is left is not
changed but for its members, nothing documented is removed, and pruning again removes nothing. -/
theorem Reachable.prune_deserving (h : store.Reachable) (policy : KeepPolicy) :
    let after := (store.prune policy).value
    (∀ path info, after.infoAt? path = some info ↔
      store.infoAt? path = some info ∧
        ∀ front, front <+: path.trail → store.Deserves policy ⟨path.start, front⟩) ∧
    (∀ path node, after.locate? path = some node →
      ∃ before, store.locate? path = some before ∧ node.info = before.info ∧
        (node.children.map (·.1)).Sublist (before.children.map (·.1))) ∧
    (∀ path info, store.infoAt? path = some info → info.isDocumented = true →
      after.infoAt? path = some info) ∧
    after.prune policy = ⟨after, 0⟩ := by
  intro after
  refine ⟨fun _ _ => h.infoAt?_prune_iff, fun _ _ => locate?_prune h.ordered, ?_,
    store.prune_prune policy⟩
  intro path info hinfo hdocumented
  exact h.infoAt?_prune_iff.2 ⟨hinfo, fun _ => h.deserves_of_isDocumented hinfo hdocumented⟩

/-- A class with one method that is documented and one that is not. -/
def halfDocumented : List Turn :=
  [.read ⟨{}, "A.h", "@interface Foo\n/** Doc. */\n- (void)kept;\n- (void)other;\n@end".toList⟩]

theorem prune_deserving_halfDocumented :
    let store := afterTurns halfDocumented
    let foo : ContainerRef := .root ⟨.interface, "Foo"⟩
    let after := (store.prune ⟨false, false⟩).value
    store.Reachable ∧
      (store.infoAt? ⟨foo, [⟨.method, "-kept"⟩]⟩).isSome = true ∧
      (store.infoAt? ⟨foo, [⟨.method, "-other"⟩]⟩).isSome = true ∧
      store.Deserves ⟨false, false⟩ ⟨foo, []⟩ ∧
      ¬store.Deserves ⟨false, false⟩ ⟨foo, [⟨.method, "-other"⟩]⟩ ∧
      (store.prune ⟨false, false⟩).removed = 1 ∧ after.prune ⟨false, false⟩ = ⟨after, 0⟩ := by
  intro store foo after
  have hreachable : store.Reachable := Reachable.empty.turn (.read _)
  obtain ⟨hpresent, -, -, hagain⟩ := hreachable.prune_deserving ⟨false, false⟩
  have hkept : (after.infoAt? ⟨foo, [⟨.method, "-kept"⟩]⟩).isSome = true := by decide +kernel
  have hother : (store.infoAt? ⟨foo, [⟨.method, "-other"⟩]⟩).isSome = true := by decide +kernel
  have hgone : after.infoAt? ⟨foo, [⟨.method, "-other"⟩]⟩ = none := by decide +kernel
  obtain ⟨_, hkept⟩ := Option.isSome_iff_exists.1 hkept
  obtain ⟨info, hinfo⟩ := Option.isSome_iff_exists.1 hother
  have hfoo := ((hpresent _ _).1 hkept).2 [] List.nil_prefix
  refine ⟨hreachable, ?_, hother, hfoo, fun hdeserves => ?_, by decide +kernel, hagain⟩
  · rw [((hpresent _ _).1 hkept).1]
    rfl
  · have hleft := (hpresent ⟨foo, [⟨.method, "-other"⟩]⟩ info).2 ⟨hinfo, fun front hfront => ?_⟩
    · rw [hgone] at hleft
      cases hleft
    · rcases List.prefix_cons_iff.1 hfront with rfl | ⟨rest, rfl, hrest⟩
      · exact hfoo
      · rw [List.prefix_nil.1 hrest]
        exact hdeserves

end Store

end DeclDoc
