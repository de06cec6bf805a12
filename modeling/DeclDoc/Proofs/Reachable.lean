import DeclDoc.Proofs.StoreForm

/-!
# Reachable stores

`Store.Reachable`: what can become of the empty store when files are read into it, runs are closed,
trees are put into it by hand, and nodes are pruned, in any order and any number of times. All nodes
of such a store stand in order under their keys, and members hold nothing (`Store.Nested`,
`Reachable.leafMembers`).
-/

set_option autoImplicit false

namespace DeclDoc

namespace Node

variable {node : Node}

/-! ## Members without members -/

/-- Nodes of member kinds hold nothing, at every level. -/
inductive LeafMembers : Node → Prop where
  | intro {node : Node} (leaf : node.info.kind.isMember = true → node.children = [])
      (inside : ∀ key child, (key, child) ∈ node.children → LeafMembers child) : LeafMembers node

theorem LeafMembers.leaf (h : node.LeafMembers) (hmember : node.info.kind.isMember = true) :
    node.children = [] := by
  cases h with
  | intro leaf _ => exact leaf hmember

theorem LeafMembers.child (h : node.LeafMembers) {key : NodeKey} {child : Node}
    (hmem : (key, child) ∈ node.children) : child.LeafMembers := by
  cases h with
  | intro _ inside => exact inside key child hmem

theorem LeafMembers.descend? (h : node.LeafMembers) {trail : List NodeKey} {below : Node}
    (hbelow : node.descend? trail = some below) : below.LeafMembers := by
  induction trail generalizing node with
  | nil =>
    cases hbelow
    exact h
  | cons key trail ih =>
    obtain ⟨child, hchild, hbelow⟩ := Option.bind_eq_some_iff.1 hbelow
    exact ih (h.child (OrderedMap.mem_of_find? hchild)) hbelow

theorem leafMembers_of_descend? (ho : node.Ordered)
    (h : ∀ trail below, node.descend? trail = some below → below.info.kind.isMember = true →
      below.children = []) : node.LeafMembers := by
  induction node using Node.inductionOn with
  | step node ih =>
    obtain ⟨hchildren, hall⟩ := ordered_iff.1 ho
    refine ⟨h [] node rfl, fun key child hmem => ?_⟩
    have hfind := (OrderedMap.find?_eq_some_iff hchildren).2 hmem
    refine ih key child hmem (hall key child hfind) fun trail below hbelow => ?_
    exact h (key :: trail) below (by rw [descend?, hfind]; exact hbelow)

/-- All members stand in order, each under its own key, and members hold nothing. -/
structure Nested (node : Node) : Prop where
  keyed : node.Keyed
  leafMembers : node.LeafMembers

namespace Nested

theorem withInfo (h : node.Nested) {info : NodeInfo} (hkind : info.kind = node.info.kind) :
    ({ node with info } : Node).Nested :=
  ⟨h.keyed.withInfo info, fun hmember => h.leafMembers.leaf (hkind ▸ hmember),
    fun _ _ hmem => h.leafMembers.child hmem⟩

/-- What another node stands in is no member. -/
theorem not_isMember (h : node.Nested) {front : List NodeKey} {key : NodeKey}
    (hsome : (node.infoAt? (front ++ [key])).isSome = true) :
    (front.getLast?.getD node.key).kind.isMember = false := by
  rw [infoAt?, descend?_append] at hsome
  cases hbelow : node.descend? front with
  | none =>
    rw [hbelow] at hsome
    cases hsome
  | some below =>
    have hkey := h.keyed.keys front below.info (by rw [infoAt?, hbelow]; rfl)
    rw [← hkey, NodeInfo.key, NodeKey.kind_ofDeclaration, Bool.eq_false_iff]
    intro hmember
    have hnothing := (h.leafMembers.descend? hbelow).leaf hmember
    rw [hbelow, Option.bind_some, Node.descend?, hnothing] at hsome
    cases hsome

end Nested

end Node

theorem Kind.not_isMember_of_accepts {container member : Kind}
    (h : container.accepts member = true) : container.isMember = false := by
  obtain ⟨-, hcontainer⟩ := isMember_of_accepts h
  revert hcontainer
  cases container <;> decide

namespace Store

/-! ## Stores in which members hold nothing -/

/-- All nodes stand in order under their keys, and nothing stands in a member. -/
structure Nested (store : Store) : Prop where
  keyed : store.Keyed
  owner : ∀ path, (store.infoAt? path).isSome = true → path.trail ≠ [] →
    path.owner.key.kind.isMember = false

namespace Nested

variable {store after : Store}

theorem empty : Nested {} :=
  ⟨keyed_empty, fun path h => by
    rw [infoAt?_empty] at h
    cases h⟩

theorem withDiagnostics (h : store.Nested) (diagnostics : List Diagnostic) :
    Nested { store with diagnostics } :=
  ⟨h.keyed.withDiagnostics diagnostics, h.owner⟩

/-- A tree at the start of paths, merged into what is there. -/
theorem mergeAt (h : store.Nested) (container : ContainerRef) {node : Node}
    (hkey : node.key = container.key) (hnode : node.Nested) :
    (store.setContainer container (node.mergedInto (store.container? container))).Nested := by
  have hkeyed := h.keyed.setContainer (Node.key_mergedInto hkey fun e he => (h.keyed.container? he).1)
    (hnode.keyed.mergedInto fun e he => (h.keyed.container? he).2)
  refine ⟨hkeyed, fun path hpath htrail => ?_⟩
  obtain ⟨start, trail⟩ := path
  rw [infoAt?_setContainer] at hpath
  split at hpath
  · next hstart =>
    cases hstart
    rw [Node.infoAt?_mergedInto hnode.keyed, NodeInfo.isSome_joined, Bool.or_eq_true] at hpath
    rcases hpath with hbefore | hmore
    · exact h.owner ⟨start, trail⟩ hbefore htrail
    · obtain ⟨front, key, rfl⟩ := (List.eq_nil_or_concat' trail).resolve_left htrail
      rw [StorePath.owner_append, StorePath.key, ← hkey]
      exact hnode.not_isMember hmore
  · exact h.owner ⟨start, trail⟩ hpath htrail

theorem insertRoot (h : store.Nested) {node : Node} (hnode : node.Nested) :
    (store.insertRoot node).Nested := by
  have hmerged := h.mergeAt (.root node.key) rfl hnode
  unfold Store.insertRoot
  simp only [Node.value_mergeAt]
  exact hmerged.withDiagnostics _

theorem insertCategory (h : store.Nested) (baseClass : String) {node : Node} (hnode : node.Nested) :
    (store.insertCategory baseClass node).Nested := by
  have hmerged := h.mergeAt (.pending ⟨baseClass, node.key⟩) rfl hnode
  unfold Store.insertCategory
  simp only [Node.value_mergeAt]
  exact hmerged.withDiagnostics _

/-- A tree in a container that is no member, merged into what is there under its key. -/
theorem mergeMember (h : store.Nested) {container : ContainerRef} {parent member : Node}
    (hparent : store.container? container = some parent)
    (hcontainer : container.key.kind.isMember = false) (hmember : member.Nested) :
    (store.setContainer container
      { parent with
        children := OrderedMap.insert member.key
          (member.mergedInto (OrderedMap.find? member.key parent.children))
          parent.children }).Nested := by
  obtain ⟨hkey, hkeyed⟩ := h.keyed.container? hparent
  have hfound := (Node.keyed_iff.1 hkeyed).2 member.key
  have hinserted := hkeyed.insert (hmember.keyed.mergedInto fun e he => (hfound e he).2)
  rw [Node.key_mergedInto rfl fun e he => (hfound e he).1] at hinserted
  refine ⟨h.keyed.setContainer hkey hinserted, fun path hpath htrail => ?_⟩
  obtain ⟨start, trail⟩ := path
  rw [infoAt?_setMember hparent] at hpath
  split at hpath
  · next hplace =>
    obtain ⟨rfl, hhead⟩ := hplace
    obtain ⟨rest, rfl⟩ := List.head?_eq_some_iff.1 hhead
    rw [List.tail_cons, Node.infoAt?_mergedInto hmember.keyed, NodeInfo.isSome_joined,
      Bool.or_eq_true] at hpath
    rcases hpath with hbefore | hmore
    · refine h.owner _ ?_ htrail
      rw [infoAt?, hparent, Option.bind_some, Node.infoAt?_cons]
      exact hbefore
    · rcases List.eq_nil_or_concat' rest with rfl | ⟨front, key, rfl⟩
      · exact hcontainer
      · rw [← List.cons_append, StorePath.owner_append, StorePath.key, List.getLast?_cons]
        exact hmember.not_isMember hmore
  · exact h.owner ⟨start, trail⟩ hpath htrail

theorem insertChild? (h : store.Nested) {container : ContainerRef} {node : Node}
    (hcontainer : container.key.kind.isMember = false) (hnode : node.Nested)
    (hafter : store.insertChild? container node = some after) : after.Nested := by
  obtain ⟨parent, hparent, rfl⟩ := Option.map_eq_some_iff.1 hafter
  have hmember : ({ node with info := { node.info with parent := some parent.key } } : Node).Nested :=
    hnode.withInfo rfl
  have hmerged := h.mergeMember hparent hcontainer hmember
  simp only [Node.value_mergeAt]
  exact hmerged.withDiagnostics _

theorem takes (h : store.Nested) {a : Accepted} (ha : store.Takes a after) : after.Nested := by
  refine ⟨ha.keyed, fun path hpath htrail => ?_⟩
  rw [ha.infoAt?] at hpath
  split at hpath
  · next heq =>
    subst heq
    have hhoused := ha.housed
    obtain ⟨standing, entity, comment⟩ := a
    cases standing with
    | root => exact absurd rfl htrail
    | category baseClass => exact absurd rfl htrail
    | member container => exact Kind.not_isMember_of_accepts (hhoused container rfl).1
  · exact h.owner path hpath htrail

theorem takesAll (h : store.Nested) {accepted : List Accepted} (hall : store.TakesAll accepted after) :
    after.Nested :=
  hall.inv (P := fun _ store => store.Nested) [] h (fun hbefore ha => hbefore.takes ha)
    fun diagnostics hbefore => hbefore.withDiagnostics diagnostics

/-- What stands in a category that goes under its class goes with it. -/
theorem finalize (h : store.Nested) : store.finalize.Nested := by
  refine ⟨h.keyed.settles.keyed, fun path hpath => ?_⟩
  have hbefore : store.Everywhere fun path _ => path.trail ≠ [] →
      path.owner.key.kind.isMember = false := fun path info hinfo =>
    h.owner path (by rw [hinfo]; rfl)
  obtain ⟨info, hinfo⟩ := Option.isSome_iff_exists.1 hpath
  refine hbefore.finalize (fun ha _ => ha) h.keyed (fun {key _} _ htrail => ?_)
    (fun {key k trail _} hbelow _ => ?_) path info hinfo
  · rw [StorePath.home_pending] at htrail ⊢
    split
    · rfl
    · next hunknown => exact absurd rfl (if_neg hunknown ▸ htrail)
  · rw [StorePath.owner_home, StorePath.key_home]
    exact hbelow (List.cons_ne_nil _ _)

theorem prune (h : store.Nested) (policy : KeepPolicy) : (store.prune policy).value.Nested := by
  refine ⟨h.keyed.prune policy, fun path hpath => ?_⟩
  obtain ⟨info, hinfo⟩ := Option.isSome_iff_exists.1 hpath
  exact h.owner path (by rw [infoAt?_of_prune h.keyed.ordered hinfo]; rfl)

theorem apply (h : store.Nested) (turn : Turn) : (turn.apply store).Nested := by
  cases turn with
  | read call => exact h.takesAll (call.extraction.readSource_takes h.keyed _ _).1
  | finalize => exact h.finalize
  | finish extraction =>
    obtain ⟨⟨diagnostics, heq⟩, -⟩ := extraction.finish_eq store
    rw [Turn.apply, heq, trim]
    split
    · exact h.finalize.withDiagnostics diagnostics
    · exact (h.finalize.withDiagnostics diagnostics).prune _

end Nested

/-! ## Reachable stores -/

/-- A store that the empty one becomes. Members are put by hand into nodes only that are none. -/
inductive Reachable : Store → Prop where
  | empty : Reachable {}
  | turn {store : Store} (h : Reachable store) (turn : Turn) : Reachable (turn.apply store)
  | insertRoot {store : Store} (h : Reachable store) {node : Node} (hnode : node.Nested) :
      Reachable (store.insertRoot node)
  | insertCategory {store : Store} (h : Reachable store) (baseClass : String) {node : Node}
      (hnode : node.Nested) : Reachable (store.insertCategory baseClass node)
  | insertChild {store after : Store} (h : Reachable store) {container : ContainerRef} {node : Node}
      (hcontainer : container.key.kind.isMember = false) (hnode : node.Nested)
      (hafter : store.insertChild? container node = some after) : Reachable after
  | report {store : Store} (h : Reachable store) (diagnostic : Diagnostic) :
      Reachable (store.report diagnostic)
  | prune {store : Store} (h : Reachable store) (policy : KeepPolicy) :
      Reachable (store.prune policy).value

namespace Reachable

variable {store : Store} {path : StorePath}

theorem nested (h : store.Reachable) : store.Nested := by
  induction h with
  | empty => exact .empty
  | turn _ turn ih => exact ih.apply turn
  | insertRoot _ hnode ih => exact ih.insertRoot hnode
  | insertCategory _ baseClass hnode ih => exact ih.insertCategory baseClass hnode
  | insertChild _ hcontainer hnode hafter ih => exact ih.insertChild? hcontainer hnode hafter
  | report _ diagnostic ih => exact ih.withDiagnostics _
  | prune _ policy ih => exact ih.prune policy

theorem ordered (h : store.Reachable) : store.Ordered := h.nested.keyed.ordered

/-- The path to a node tells its kind. -/
theorem kind_eq (h : store.Reachable) {info : NodeInfo} (hinfo : store.infoAt? path = some info) :
    info.kind = path.key.kind := by
  rw [← h.nested.keyed.keys path info hinfo, NodeInfo.key, NodeKey.kind_ofDeclaration]

/-- Members hold nothing. -/
theorem leafMembers (h : store.Reachable) {start : ContainerRef} {node : Node}
    (hnode : store.container? start = some node) : node.LeafMembers := by
  refine Node.leafMembers_of_descend? (h.ordered.below start node hnode) ?_
  intro trail below hbelow hmember
  have hlocate : store.locate? ⟨start, trail⟩ = some below := by
    rw [locate?, hnode]
    exact hbelow
  refine List.eq_nil_iff_forall_not_mem.2 fun entry hmem => ?_
  obtain ⟨key, child⟩ := entry
  have hascending := (Node.ordered_iff.1 ((h.ordered.below start node hnode).descend? hbelow)).1
  have hchild := infoAt?_of_locate? <|
    (locate?_member hlocate key).trans ((OrderedMap.find?_eq_some_iff hascending).2 hmem)
  have howner := h.nested.owner _ (by rw [hchild]; rfl) (by simp)
  rw [StorePath.owner_append, ← h.kind_eq (infoAt?_of_locate? hlocate), hmember] at howner
  cases howner

theorem leafMembers_locate? (h : store.Reachable) {node : Node}
    (hnode : store.locate? path = some node) : node.LeafMembers := by
  obtain ⟨start, hstart, hbelow⟩ := Option.bind_eq_some_iff.1 hnode
  exact (h.leafMembers hstart).descend? hbelow

end Reachable

end Store

end DeclDoc
