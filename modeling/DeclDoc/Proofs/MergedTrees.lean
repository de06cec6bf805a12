import DeclDoc.Proofs.Matching

/-!
# Merged trees

Members stand under their own keys (`Node.Keyed`, `Store.Keyed`). Of such nodes a merged one says at
every path what both say there (`Node.infoAt?_mergedInto`), it is such a node again
(`Node.Keyed.mergedInto`), and so is what comes to stand in a store (`Store.Keyed.setContainer`).
-/

set_option autoImplicit false

namespace DeclDoc

/-! ## What two say together -/

/-- What is said of one thing, then more of the same thing. -/
def NodeInfo.joined (existing : Option NodeInfo) : Option NodeInfo → Option NodeInfo
  | none => existing
  | some info => some (info.mergedInto existing)

@[simp] theorem NodeInfo.joined_none (existing : Option NodeInfo) :
    joined existing none = existing := rfl

@[simp] theorem NodeInfo.none_joined (info : Option NodeInfo) : joined none info = info := by
  cases info <;> rfl

theorem NodeInfo.isSome_joined (a b : Option NodeInfo) :
    (joined a b).isSome = (a.isSome || b.isSome) := by
  cases b with
  | none => rw [joined_none, Option.isSome_none, Bool.or_false]
  | some b => rw [Option.isSome_some, Bool.or_true]; rfl

namespace Node

/-- A node merged into what was there before it, if anything was. -/
def mergedInto (node : Node) : (existing : Option Node) → Node
  | none => node
  | some existing => (existing.merge node).value

theorem value_mergeAt {κ : Type} [Ord κ] (key : κ) (node : Node) (into : List (κ × Node)) :
    (mergeAt key node into).value =
      OrderedMap.insert key (node.mergedInto (OrderedMap.find? key into)) into := by
  unfold mergeAt
  cases OrderedMap.find? key into <;> rfl

/-- What is merged of nodes of one key has that key. -/
theorem key_mergedInto {node : Node} {existing : Option Node} {key : NodeKey}
    (h : node.key = key) (hexisting : ∀ e, existing = some e → e.key = key) :
    (node.mergedInto existing).key = key := by
  cases existing with
  | none => exact h
  | some e => exact (key_merge e node).trans (hexisting e rfl)

/-- A declaration that brings no members is a node without members. -/
theorem declared_eq (existing : Option Node) (info : NodeInfo) :
    declared existing info = ({ info } : Node).mergedInto existing := by
  cases existing <;> rfl

/-! ## Keys -/

/-- All members stand in order, each under its own key. -/
structure Keyed (node : Node) : Prop where
  ordered : node.Ordered
  keys : ∀ trail info, node.infoAt? trail = some info → info.key = trail.getLast?.getD node.key

theorem keyed_iff {node : Node} :
    node.Keyed ↔ OrderedMap.Ascending node.children ∧
      ∀ key child, OrderedMap.find? key node.children = some child →
        child.key = key ∧ child.Keyed := by
  have hlast : ∀ (key fallback : NodeKey) (trail : List NodeKey),
      (key :: trail).getLast?.getD fallback = trail.getLast?.getD key := by
    intro key fallback trail
    rw [List.getLast?_cons]
    rfl
  constructor
  · intro h
    obtain ⟨hascending, hall⟩ := ordered_iff.1 h.ordered
    refine ⟨hascending, fun key child hchild => ?_⟩
    have hkey : child.key = key := h.keys [key] child.info (by rw [infoAt?_cons, hchild]; rfl)
    refine ⟨hkey, hall key child hchild, fun trail info hinfo => ?_⟩
    have := h.keys (key :: trail) info (by rw [infoAt?_cons, hchild]; exact hinfo)
    rwa [hlast, ← hkey] at this
  · rintro ⟨hascending, hall⟩
    refine ⟨ordered_iff.2 ⟨hascending, fun key child hc => (hall key child hc).2.ordered⟩, ?_⟩
    intro trail info hinfo
    cases trail with
    | nil =>
      cases hinfo
      rfl
    | cons key trail =>
      rw [infoAt?_cons] at hinfo
      obtain ⟨child, hchild, hinfo⟩ := Option.bind_eq_some_iff.1 hinfo
      obtain ⟨hkey, hchild⟩ := hall key child hchild
      rw [hlast, ← hkey]
      exact hchild.keys trail info hinfo

theorem keyed_leaf (info : NodeInfo) : ({ info } : Node).Keyed :=
  keyed_iff.2 ⟨OrderedMap.ascending_nil, fun _ _ h => by cases h⟩

/-- A keyed node that says something else of itself. -/
theorem Keyed.withInfo {node : Node} (h : node.Keyed) (info : NodeInfo) :
    ({ node with info } : Node).Keyed := by
  rw [keyed_iff] at h ⊢
  exact h

/-- A keyed child in its place under its key. -/
theorem Keyed.insert {node child : Node} (h : node.Keyed) (hc : child.Keyed) :
    ({ node with children := OrderedMap.insert child.key child node.children } : Node).Keyed := by
  obtain ⟨hascending, hall⟩ := keyed_iff.1 h
  refine keyed_iff.2 ⟨OrderedMap.ascending_insert _ child hascending, ?_⟩
  intro k other hk
  rw [OrderedMap.find?_insert] at hk
  split at hk
  · next hkey =>
    cases hk
    exact ⟨hkey.symm, hc⟩
  · exact hall k other hk

theorem Keyed.descend? {node below : Node} (h : node.Keyed) {trail : List NodeKey}
    (hbelow : node.descend? trail = some below) : below.Keyed := by
  induction trail generalizing node with
  | nil =>
    cases hbelow
    exact h
  | cons key trail ih =>
    obtain ⟨child, hchild, hbelow⟩ := Option.bind_eq_some_iff.1 hbelow
    exact ih ((keyed_iff.1 h).2 key child hchild).2 hbelow

/-! ## Members put together -/

/-- What stands under a key after members are put into others. -/
theorem find?_mergeChildren {children : List (NodeKey × Node)} (h : OrderedMap.Ascending children)
    (hkeys : ∀ entry ∈ children, entry.2.key = entry.1) (into : List (NodeKey × Node))
    (key : NodeKey) :
    OrderedMap.find? key (mergeChildren into children).value =
      match OrderedMap.find? key children with
      | none => OrderedMap.find? key into
      | some child => some (child.mergedInto (OrderedMap.find? key into)) := by
  induction children generalizing into with
  | nil => rfl
  | cons entry rest ih =>
    obtain ⟨k, child⟩ := entry
    obtain ⟨hlt, hrest⟩ := List.pairwise_cons.1 h
    have hkey : child.key = k := hkeys (k, child) List.mem_cons_self
    have hothers := ih hrest (fun e he => hkeys e (List.mem_cons_of_mem _ he))
    rw [mergeChildren_cons]
    dsimp only
    rw [hothers, value_mergeAt, hkey, OrderedMap.find?_insert]
    by_cases hk : key = k
    · subst hk
      have hnone : OrderedMap.find? key rest = none := by
        rw [Option.eq_none_iff_forall_ne_some]
        intro other hother
        exact OrderedSet.ne_of_compare_lt (hlt _ (OrderedMap.mem_of_find? hother)) rfl
      rw [hnone, if_pos rfl, OrderedMap.find?, if_pos Std.ReflOrd.compare_self]
    · have hne : compare key k ≠ .eq := fun heq => hk (Std.LawfulEqOrd.eq_of_compare heq)
      rw [if_neg hk, OrderedMap.find?, if_neg hne]

theorem ascending_mergeChildren {into : List (NodeKey × Node)} (h : OrderedMap.Ascending into)
    (children : List (NodeKey × Node)) :
    OrderedMap.Ascending (mergeChildren into children).value := by
  induction children generalizing into with
  | nil => exact h
  | cons entry rest ih =>
    obtain ⟨k, child⟩ := entry
    rw [mergeChildren_cons]
    refine ih ?_
    rw [value_mergeAt]
    exact OrderedMap.ascending_insert _ _ h

theorem children_merge (a b : Node) :
    (a.merge b).value.children = (mergeChildren a.children b.children).value := by
  cases b
  rfl

theorem Keyed.key_of_mem {node : Node} (h : node.Keyed) :
    ∀ entry ∈ node.children, entry.2.key = entry.1 := by
  obtain ⟨hascending, hall⟩ := keyed_iff.1 h
  intro entry hentry
  exact (hall entry.1 entry.2 ((OrderedMap.find?_eq_some_iff hascending).2 hentry)).1

/-! ## Nodes put together -/

theorem Keyed.merge {a b : Node} (ha : a.Keyed) (hb : b.Keyed) : (a.merge b).value.Keyed := by
  induction b using Node.inductionOn generalizing a with
  | step b ih =>
    obtain ⟨hachildren, haall⟩ := keyed_iff.1 ha
    obtain ⟨hbchildren, hball⟩ := keyed_iff.1 hb
    rw [keyed_iff, children_merge]
    refine ⟨ascending_mergeChildren hachildren _, ?_⟩
    intro key child hchild
    rw [find?_mergeChildren hbchildren hb.key_of_mem] at hchild
    cases hbc : OrderedMap.find? key b.children with
    | none =>
      rw [hbc] at hchild
      exact haall key child hchild
    | some c =>
      rw [hbc] at hchild
      cases hchild
      cases hac : OrderedMap.find? key a.children with
      | none => exact hball key c hbc
      | some x =>
        obtain ⟨hxkey, hx⟩ := haall key x hac
        exact ⟨(key_merge x c).trans hxkey,
          ih key c (OrderedMap.mem_of_find? hbc) hx (hball key c hbc).2⟩

theorem Keyed.mergedInto {node : Node} (h : node.Keyed) {existing : Option Node}
    (hexisting : ∀ e, existing = some e → e.Keyed) : (node.mergedInto existing).Keyed := by
  cases existing with
  | none => exact h
  | some e => exact (hexisting e rfl).merge h

/-- A merged node says at every path what both say there. -/
theorem infoAt?_merge (a : Node) {b : Node} (hb : b.Keyed) (trail : List NodeKey) :
    (a.merge b).value.infoAt? trail = NodeInfo.joined (a.infoAt? trail) (b.infoAt? trail) := by
  induction b using Node.inductionOn generalizing a trail with
  | step b ih =>
    obtain ⟨hbchildren, hball⟩ := keyed_iff.1 hb
    cases trail with
    | nil =>
      rw [infoAt?_nil, info_merge]
      rfl
    | cons key trail =>
      rw [infoAt?_cons, infoAt?_cons, infoAt?_cons, children_merge,
        find?_mergeChildren hbchildren hb.key_of_mem]
      cases hbc : OrderedMap.find? key b.children with
      | none => rfl
      | some c =>
        cases hac : OrderedMap.find? key a.children with
        | none =>
          rw [Option.bind_none, NodeInfo.none_joined]
          rfl
        | some x => exact ih key c (OrderedMap.mem_of_find? hbc) x (hball key c hbc).2 trail

theorem infoAt?_mergedInto {node : Node} (h : node.Keyed) (existing : Option Node)
    (trail : List NodeKey) :
    (node.mergedInto existing).infoAt? trail =
      NodeInfo.joined (existing.bind (·.infoAt? trail)) (node.infoAt? trail) := by
  cases existing with
  | none =>
    rw [Option.bind_none, NodeInfo.none_joined]
    rfl
  | some e => exact infoAt?_merge e h trail

end Node

/-! ## Stores -/

namespace Store

/-- All nodes of the store stand in order, each under its own key. -/
structure Keyed (store : Store) : Prop where
  ordered : store.Ordered
  keys : ∀ path info, store.infoAt? path = some info → info.key = path.key

variable {store : Store}

theorem Keyed.container? (h : store.Keyed) {container : ContainerRef} {node : Node}
    (hc : store.container? container = some node) : node.key = container.key ∧ node.Keyed := by
  have hinfo : ∀ trail, store.infoAt? ⟨container, trail⟩ = node.infoAt? trail := fun trail => by
    rw [infoAt?, hc]
    rfl
  have hkey : node.key = container.key := h.keys ⟨container, []⟩ node.info (hinfo [])
  refine ⟨hkey, h.ordered.below container node hc, fun trail info htrail => ?_⟩
  rw [hkey]
  exact h.keys ⟨container, trail⟩ info ((hinfo trail).trans htrail)

theorem Keyed.locate? (h : store.Keyed) {path : StorePath} {node : Node}
    (hnode : store.locate? path = some node) : node.Keyed := by
  obtain ⟨start, hstart, hbelow⟩ := Option.bind_eq_some_iff.1 hnode
  exact (h.container? hstart).2.descend? hbelow

theorem keyed_empty : Keyed {} :=
  ⟨ordered_empty, fun path info h => by
    obtain ⟨start, trail⟩ := path
    cases start <;> cases h⟩

theorem Keyed.withDiagnostics (h : store.Keyed) (diagnostics : List Diagnostic) :
    Keyed { store with diagnostics } :=
  ⟨h.ordered.withDiagnostics diagnostics, h.keys⟩

theorem Keyed.prune (h : store.Keyed) (policy : KeepPolicy) : (store.prune policy).value.Keyed :=
  ⟨h.ordered.prune policy, fun path info hinfo =>
    h.keys path info (infoAt?_of_prune h.ordered hinfo)⟩

/-- A keyed node in its place. -/
theorem Keyed.setContainer (h : store.Keyed) {container : ContainerRef} {node : Node}
    (hkey : node.key = container.key) (hnode : node.Keyed) :
    (store.setContainer container node).Keyed where
  ordered := h.ordered.setContainer hnode.ordered container
  keys path info hinfo := by
    rw [infoAt?_setContainer] at hinfo
    split at hinfo
    · next hstart =>
      have := hnode.keys path.trail info hinfo
      rwa [hkey, ← hstart] at this
    · exact h.keys path info hinfo

/-- One more declaration at the place of a container. -/
theorem Keyed.declareAt (h : store.Keyed) {container : ContainerRef} {info : NodeInfo}
    (hkey : info.key = container.key) :
    (store.setContainer container (.declared (store.container? container) info)).Keyed := by
  rw [Node.declared_eq]
  refine h.setContainer ?_ ((Node.keyed_leaf info).mergedInto fun e he => (h.container? he).2)
  refine Node.key_mergedInto hkey fun e he => (h.container? he).1

theorem Keyed.insertRoot (h : store.Keyed) (info : NodeInfo) :
    (store.insertRoot { info }).Keyed := by
  obtain ⟨diagnostics, heq⟩ := insertRoot_eq store info
  rw [heq]
  exact Keyed.withDiagnostics (h.declareAt rfl) diagnostics

theorem Keyed.insertCategory (h : store.Keyed) (baseClass : String) (info : NodeInfo) :
    (store.insertCategory baseClass { info }).Keyed := by
  obtain ⟨diagnostics, heq⟩ := insertCategory_eq store baseClass info
  rw [heq]
  exact Keyed.withDiagnostics (h.declareAt rfl) diagnostics

theorem Keyed.insertChild? {after : Store} (h : store.Keyed) {container : ContainerRef}
    {info : NodeInfo} (hafter : store.insertChild? container { info } = some after) :
    after.Keyed := by
  cases hc : store.container? container with
  | none => simp [Store.insertChild?, hc] at hafter
  | some parent =>
    obtain ⟨hkey, hparent⟩ := h.container? hc
    obtain ⟨diagnostics, heq⟩ := insertChild?_eq hc info
    rw [hafter, Option.some.injEq] at heq
    rw [heq]
    let member := Node.declared (OrderedMap.find? info.key parent.children)
      { info with parent := some parent.key }
    have hfound := (Node.keyed_iff.1 hparent).2 info.key
    have hmember : member.Keyed := by
      unfold member
      rw [Node.declared_eq]
      exact (Node.keyed_leaf _).mergedInto fun e he => (hfound e he).2
    have hmemberKey : member.key = info.key := by
      unfold member
      rw [Node.declared_eq]
      exact Node.key_mergedInto rfl fun e he => (hfound e he).1
    have hinserted := hparent.insert hmember
    rw [hmemberKey] at hinserted
    refine Keyed.withDiagnostics (h.setContainer ?_ hinserted) diagnostics
    exact hkey

end Store

end DeclDoc
