import DeclDoc.Proofs.Accepted

/-!
# Categories under their classes

`finalize` moves what waits under the classes that are known. `StorePath.home known` is where a path
leads then, and `NodeInfo.settled known` what a category says there. What a category says comes after
what was said before at its new place and below it (`Store.Keyed.infoAt?_finalize_home`), and all else
is as before (`Store.Keyed.infoAt?_finalize_of_ne`). `finalize` returns the number of those that wait
on (`Store.Ordered.unresolved_finalize`).

`Holds.tells_finalize`: at every path a finalized store says what the entities accepted for a path
that leads there say together.
-/

set_option autoImplicit false

namespace DeclDoc

namespace StorePath

/-! ## Where paths lead -/

/-- Where a path leads when categories have gone under the classes that are `known`. -/
def home (known : String → Bool) (path : StorePath) : StorePath :=
  match path.start with
  | .root _ => path
  | .pending key =>
    if known key.baseClass then ⟨.root ⟨.interface, key.baseClass⟩, key.key :: path.trail⟩
    else path

variable {known : String → Bool}

@[simp] theorem home_root (key : NodeKey) (trail : List NodeKey) :
    home known ⟨.root key, trail⟩ = ⟨.root key, trail⟩ := rfl

theorem home_pending (key : CategoryKey) (trail : List NodeKey) :
    home known ⟨.pending key, trail⟩ =
      if known key.baseClass then ⟨.root ⟨.interface, key.baseClass⟩, key.key :: trail⟩
      else ⟨.pending key, trail⟩ := rfl

/-- Categories do not get in each other's way. -/
theorem home_pending_inj {key key' : CategoryKey} {trail trail' : List NodeKey} :
    home known ⟨.pending key, trail⟩ = home known ⟨.pending key', trail'⟩ ↔
      key = key' ∧ trail = trail' := by
  obtain ⟨base, key⟩ := key
  obtain ⟨base', key'⟩ := key'
  rw [home_pending, home_pending]
  split <;> split <;> grind

end StorePath

/-- What a category says when it is known whether its class is. -/
def NodeInfo.settled (known : String → Bool) (baseClass : String) (info : NodeInfo) : NodeInfo :=
  if known baseClass then
    { info with resolution := some .resolved, parent := some ⟨.interface, baseClass⟩ }
  else { info with resolution := some .unresolved }

namespace Store

open StorePath (home)

/-- The classes that a store knows. -/
def knows (store : Store) (baseClass : String) : Bool :=
  (store.container? (.root ⟨.interface, baseClass⟩)).isSome

theorem knows_withDiagnostics (store : Store) (diagnostics : List Diagnostic) :
    knows { store with diagnostics } = store.knows := rfl

theorem knows_setContainer {store : Store} {container : ContainerRef} (node : Node)
    (h : ∀ key, container = .root key → (store.container? container).isSome = true) :
    (store.setContainer container node).knows = store.knows := by
  funext baseClass
  rw [knows, container?_setContainer]
  split
  · next heq => rw [knows, heq, h _ heq.symm, Option.isSome_some]
  · rfl

/-! ## One category -/

section
variable {store : Store} {key : CategoryKey} {node : Node}

/-- A category that says whether its class is known. -/
def settledNode (store : Store) (baseClass : String) (node : Node) : Node :=
  { node with info := node.info.settled store.knows baseClass }

theorem resolve_of_known (node : Node) {interface : Node}
    (hbase : store.container? (.root ⟨.interface, key.baseClass⟩) = some interface) :
    ∃ diagnostics, store.resolve key node =
      { store.setContainer (.root ⟨.interface, key.baseClass⟩)
          { interface with
            children := OrderedMap.insert node.key
              ((store.settledNode key.baseClass node).mergedInto
                (OrderedMap.find? node.key interface.children))
              interface.children } with diagnostics } := by
  have hinfo : node.info.settled store.knows key.baseClass =
      { node.info with
        resolution := some .resolved, parent := some ⟨.interface, key.baseClass⟩ } := by
    simp [NodeInfo.settled, knows, hbase]
  have hfind : OrderedMap.find? ⟨.interface, key.baseClass⟩ store.roots = some interface := hbase
  refine ⟨(store.resolve key node).diagnostics, ?_⟩
  rw [settledNode, hinfo]
  unfold resolve
  simp only [hfind, Node.value_mergeAt]
  rfl

theorem resolve_of_unknown (node : Node)
    (hbase : store.container? (.root ⟨.interface, key.baseClass⟩) = none) :
    ∃ diagnostics, store.resolve key node =
      { store.setContainer (.pending key) (store.settledNode key.baseClass node) with
        diagnostics } := by
  have hinfo : node.info.settled store.knows key.baseClass =
      { node.info with resolution := some .unresolved } := by
    simp [NodeInfo.settled, knows, hbase]
  have hfind : OrderedMap.find? ⟨.interface, key.baseClass⟩ store.roots = none := hbase
  refine ⟨(store.resolve key node).diagnostics, ?_⟩
  rw [settledNode, hinfo]
  unfold resolve
  simp only [hfind]
  rfl

/-- Categories bring no classes. -/
theorem knows_resolve (store : Store) (key : CategoryKey) (node : Node) :
    (store.resolve key node).knows = store.knows := by
  cases hbase : store.container? (.root ⟨.interface, key.baseClass⟩) with
  | some interface =>
    obtain ⟨diagnostics, heq⟩ := resolve_of_known node hbase
    rw [heq, knows_withDiagnostics, knows_setContainer _ fun _ _ => by rw [hbase]; rfl]
  | none =>
    obtain ⟨diagnostics, heq⟩ := resolve_of_unknown node hbase
    rw [heq, knows_withDiagnostics, knows_setContainer _ fun _ h => by cases h]

/-- What a category and its members say when it is settled. -/
theorem infoAt?_settledNode (baseClass : String) (trail : List NodeKey) :
    (store.settledNode baseClass node).infoAt? trail =
      if trail = [] then some (node.info.settled store.knows baseClass)
      else node.infoAt? trail :=
  Node.infoAt?_withInfo _ _ _

theorem key_settledNode (baseClass : String) :
    (store.settledNode baseClass node).key = node.key := by
  unfold settledNode NodeInfo.settled
  split <;> rfl

end

/-- In `after` the members of `entries` have come to where they belong, each with its own members, and
say there what they say after what was said before; nothing else is otherwise than in `store`. -/
structure Settles (store : Store) (entries : List (CategoryKey × Node)) (after : Store) : Prop where
  knows : after.knows = store.knows
  keyed : after.Keyed
  there : ∀ entry ∈ entries, ∀ trail,
    after.infoAt? (home store.knows ⟨.pending entry.1, trail⟩) =
      NodeInfo.joined (store.infoAt? (home store.knows ⟨.pending entry.1, trail⟩))
        ((store.settledNode entry.1.baseClass entry.2).infoAt? trail)
  elsewhere : ∀ path,
    (∀ entry ∈ entries, ∀ trail, path ≠ home store.knows ⟨.pending entry.1, trail⟩) →
      after.infoAt? path = store.infoAt? path

section
variable {store : Store} {key : CategoryKey} {node : Node}

/-- A category whose class is known goes under it. -/
theorem settles_resolve_of_known {interface : Node} (hstore : store.Keyed)
    (hkey : node.key = key.key) (hnode : node.Keyed)
    (hbase : store.container? (.root ⟨.interface, key.baseClass⟩) = some interface) :
    store.Settles [(key, node)] (store.resolve key node) := by
  have hk : store.knows key.baseClass = true := by simp [knows, hbase]
  obtain ⟨hinterfaceKey, hinterface⟩ := hstore.container? hbase
  obtain ⟨diagnostics, heq⟩ := resolve_of_known node hbase
  let existing := OrderedMap.find? node.key interface.children
  let member := (store.settledNode key.baseClass node).mergedInto existing
  have hsettled : (store.settledNode key.baseClass node).Keyed := hnode.withInfo _
  have hfound := (Node.keyed_iff.1 hinterface).2 node.key
  have hmember : member.Keyed := hsettled.mergedInto fun e he => (hfound e he).2
  have hmemberKey : member.key = node.key :=
    Node.key_mergedInto (key_settledNode key.baseClass) fun e he => (hfound e he).1
  have hinfo := infoAt?_setMember hbase node.key member
  have hknows := store.knows_resolve key node
  rw [heq] at hknows ⊢
  refine ⟨hknows, ?_, ?_, ?_⟩
  · have hinserted := hinterface.insert hmember
    rw [hmemberKey] at hinserted
    refine Keyed.withDiagnostics (hstore.setContainer ?_ hinserted) diagnostics
    exact hinterfaceKey
  · intro entry hentry trail
    cases List.mem_singleton.1 hentry
    rw [StorePath.home_pending, if_pos hk, infoAt?_withDiagnostics, hinfo,
      if_pos ⟨rfl, by rw [hkey]; rfl⟩, List.tail_cons, Node.infoAt?_mergedInto hsettled]
    congr 1
    rw [infoAt?, hbase, Option.bind_some, Node.infoAt?_cons, ← hkey]
  · intro path hpath
    rw [infoAt?_withDiagnostics, hinfo]
    apply if_neg
    rintro ⟨hstart, hhead⟩
    obtain ⟨start, trail⟩ := path
    obtain ⟨trail, rfl⟩ := List.head?_eq_some_iff.1 hhead
    refine hpath _ (List.mem_singleton_self _) trail ?_
    rw [StorePath.home_pending, if_pos hk, ← hkey]
    exact congrArg (StorePath.mk · _) hstart

/-- A category whose class is not known waits on, where nothing waits yet. -/
theorem settles_resolve_of_unknown (hstore : store.Keyed) (hkey : node.key = key.key)
    (hnode : node.Keyed) (hfree : store.container? (.pending key) = none)
    (hbase : store.container? (.root ⟨.interface, key.baseClass⟩) = none) :
    store.Settles [(key, node)] (store.resolve key node) := by
  have hk : ¬store.knows key.baseClass = true := by simp [knows, hbase]
  obtain ⟨diagnostics, heq⟩ := resolve_of_unknown node hbase
  have hsettled : (store.settledNode key.baseClass node).Keyed := hnode.withInfo _
  have hsettledKey : (store.settledNode key.baseClass node).key = key.key :=
    (key_settledNode key.baseClass).trans hkey
  have hknows := store.knows_resolve key node
  rw [heq] at hknows ⊢
  refine ⟨hknows, (hstore.setContainer hsettledKey hsettled).withDiagnostics _, ?_, ?_⟩
  · intro entry hentry trail
    cases List.mem_singleton.1 hentry
    have hnone : store.infoAt? ⟨.pending key, trail⟩ = none := by rw [infoAt?, hfree]; rfl
    rw [StorePath.home_pending, if_neg hk, hnone, NodeInfo.none_joined, infoAt?_withDiagnostics,
      infoAt?_setContainer, if_pos rfl]
  · intro path hpath
    rw [infoAt?_withDiagnostics, infoAt?_setContainer]
    refine if_neg fun hstart => hpath _ (List.mem_singleton_self _) path.trail ?_
    obtain ⟨start, trail⟩ := path
    rw [StorePath.home_pending, if_neg hk]
    exact congrArg (StorePath.mk · _) hstart

theorem settles_resolve (hstore : store.Keyed) (hkey : node.key = key.key) (hnode : node.Keyed)
    (hfree : store.container? (.pending key) = none) :
    store.Settles [(key, node)] (store.resolve key node) := by
  cases hbase : store.container? (.root ⟨.interface, key.baseClass⟩) with
  | none => exact settles_resolve_of_unknown hstore hkey hnode hfree hbase
  | some interface => exact settles_resolve_of_known hstore hkey hnode hbase

end

namespace Settles

theorem nil {store : Store} (h : store.Keyed) : store.Settles [] store :=
  ⟨rfl, h, (fun _ h => by cases h), fun _ _ => rfl⟩

/-- One entry after the other, each under a key of its own. -/
theorem cons {store next after : Store} {entry : CategoryKey × Node}
    {rest : List (CategoryKey × Node)} (h : store.Settles [entry] next)
    (hrest : next.Settles rest after) (hne : ∀ other ∈ rest, entry.1 ≠ other.1) :
    store.Settles (entry :: rest) after := by
  have hsame := h.knows
  have hsettled : ∀ baseClass node,
      next.settledNode baseClass node = store.settledNode baseClass node := by
    intro baseClass node
    rw [settledNode, settledNode, hsame]
  refine ⟨hrest.knows.trans hsame, hrest.keyed, fun other hother trail => ?_, fun path hpath => ?_⟩
  · rcases List.mem_cons.1 hother with rfl | hother
    · rw [← h.there other (List.mem_singleton_self _) trail]
      refine hrest.elsewhere _ ?_
      intro e he trail' heq
      rw [hsame] at heq
      exact hne e he (StorePath.home_pending_inj.1 heq).1
    · have := hrest.there other hother trail
      rw [hsame, hsettled] at this
      rw [this, h.elsewhere]
      intro e he trail' heq
      cases List.mem_singleton.1 he
      exact hne other hother (StorePath.home_pending_inj.1 heq).1.symm
  · rw [hrest.elsewhere path fun e he trail => ?_, h.elsewhere path fun e he trail => ?_]
    · cases List.mem_singleton.1 he
      exact hpath entry List.mem_cons_self trail
    · rw [hsame]
      exact hpath e (List.mem_cons_of_mem _ he) trail

/-- What waits nowhere before waits nowhere after, but for the entries. -/
theorem container?_pending {store after : Store} {entries : List (CategoryKey × Node)}
    (h : store.Settles entries after) {key : CategoryKey} (hkey : ∀ entry ∈ entries, entry.1 ≠ key)
    (hfree : store.container? (.pending key) = none) :
    after.container? (.pending key) = none := by
  have hsame := h.elsewhere ⟨.pending key, []⟩ fun entry hentry trail heq => by
    rw [StorePath.home_pending] at heq
    split at heq
    · cases heq
    · cases heq
      exact hkey entry hentry rfl
  rw [infoAt?_start, infoAt?_start, hfree, Option.map_none] at hsame
  exact Option.map_eq_none_iff.1 hsame

end Settles

/-! ## The number of those that wait on -/

/-- A category is moved, or waits on under its key. -/
theorem pending_resolve (store : Store) (key : CategoryKey) (node : Node) :
    (store.resolve key node).pending =
      if store.knows key.baseClass then store.pending
      else OrderedMap.insert key (store.settledNode key.baseClass node) store.pending := by
  cases hbase : store.container? (.root ⟨.interface, key.baseClass⟩) with
  | some interface =>
    have hknown : store.knows key.baseClass = true := by rw [knows, hbase]; rfl
    obtain ⟨diagnostics, heq⟩ := resolve_of_known node hbase
    rw [heq, if_pos hknown]
    rfl
  | none =>
    have hknown : ¬store.knows key.baseClass = true := by simp [knows, hbase]
    obtain ⟨diagnostics, heq⟩ := resolve_of_unknown node hbase
    rw [heq, if_neg hknown]
    rfl

namespace Finalized

variable {closed : Finalized} {key : CategoryKey}

/-- A category that is moved or waits on leaves the others where they wait. -/
theorem container?_resolve {other : CategoryKey} (h : other ≠ key) (node : Node) :
    (closed.resolve key node).container? (.pending other) = closed.container? (.pending other) := by
  rw [container?, container?, resolve, pending_resolve]
  split
  · rfl
  · exact OrderedMap.find?_insert_of_ne h _ _

/-- A category under a key that nothing waits under is counted if it waits on. -/
theorem unresolved_resolve (h : closed.unresolved = closed.pending.length)
    (hfree : closed.container? (.pending key) = none) (node : Node) :
    (closed.resolve key node).unresolved = (closed.resolve key node).pending.length := by
  have hknown : (closed.root? .interface key.baseClass).isSome = closed.knows key.baseClass := rfl
  rw [resolve, pending_resolve, hknown]
  split
  · exact h
  · exact (congrArg (· + 1) h).trans (OrderedMap.length_insert hfree _).symm

theorem unresolved_foldl {entries : List (CategoryKey × Node)} {closed : Finalized}
    (h : closed.unresolved = closed.pending.length) (hkeys : OrderedMap.Ascending entries)
    (hfree : ∀ entry ∈ entries, closed.container? (.pending entry.1) = none) :
    let after := entries.foldl (fun closed (key, node) => closed.resolve key node) closed
    after.unresolved = after.pending.length := by
  induction entries generalizing closed with
  | nil => exact h
  | cons entry rest ih =>
    obtain ⟨hlt, hkeys⟩ := List.pairwise_cons.1 hkeys
    refine ih (unresolved_resolve h (hfree entry List.mem_cons_self) entry.2) hkeys
      fun other hother => ?_
    rw [container?_resolve (OrderedSet.ne_of_compare_lt (hlt other hother)).symm]
    exact hfree other (List.mem_cons_of_mem _ hother)

end Finalized

/-- Finalizing counts what waits on. -/
theorem Ordered.unresolved_finalize {store : Store} (h : store.Ordered) :
    store.finalize.unresolved = store.finalize.pending.length :=
  Finalized.unresolved_foldl rfl h.pending fun _ _ => rfl

/-! ## All categories -/

theorem settles_foldl_resolve {entries : List (CategoryKey × Node)} {store : Store}
    (hstore : store.Keyed) (hkeys : OrderedMap.Ascending entries)
    (hentries : ∀ entry ∈ entries, entry.2.key = entry.1.key ∧ entry.2.Keyed)
    (hfree : ∀ entry ∈ entries, store.container? (.pending entry.1) = none) :
    store.Settles entries
      (entries.foldl (fun store entry => store.resolve entry.1 entry.2) store) := by
  induction entries generalizing store with
  | nil => exact .nil hstore
  | cons entry rest ih =>
    obtain ⟨hlt, hkeys⟩ := List.pairwise_cons.1 hkeys
    have hne : ∀ other ∈ rest, entry.1 ≠ other.1 := fun other hother =>
      OrderedSet.ne_of_compare_lt (hlt other hother)
    obtain ⟨hkey, hnode⟩ := hentries entry List.mem_cons_self
    have hstep := settles_resolve hstore hkey hnode (hfree entry List.mem_cons_self)
    refine hstep.cons (ih hstep.keyed hkeys
      (fun e he => hentries e (List.mem_cons_of_mem _ he)) fun e he => ?_) hne
    refine hstep.container?_pending (fun other hother => ?_) (hfree e (List.mem_cons_of_mem _ he))
    cases List.mem_singleton.1 hother
    exact hne e he

/-- What is said without the categories that wait. -/
theorem infoAt?_of_withoutPending {store : Store} {path : StorePath} {info : NodeInfo}
    (h : infoAt? { store with pending := [] } path = some info) :
    store.infoAt? path = some info := by
  obtain ⟨start | start, trail⟩ := path
  · exact h
  · cases h

theorem Keyed.withoutPending {store : Store} (h : store.Keyed) :
    Keyed { store with pending := [] } where
  ordered :=
    { roots := h.ordered.roots
      pending := OrderedMap.ascending_nil
      below := fun start node hs => by
        cases start with
        | root key => exact h.ordered.below (.root key) node hs
        | pending key => cases hs }
  keys path info hinfo := h.keys path info (infoAt?_of_withoutPending hinfo)

theorem Keyed.pending {store : Store} (h : store.Keyed) {entry : CategoryKey × Node}
    (hentry : entry ∈ store.pending) :
    store.container? (.pending entry.1) = some entry.2 ∧ entry.2.key = entry.1.key ∧
      entry.2.Keyed := by
  have hc : store.container? (.pending entry.1) = some entry.2 :=
    (OrderedMap.find?_eq_some_iff h.ordered.pending).2 hentry
  exact ⟨hc, h.container? hc⟩

/-- Closing a store settles all its categories. -/
theorem Keyed.settles {store : Store} (h : store.Keyed) :
    Settles { store with pending := [] } store.pending store.finalize := by
  rw [finalize_toStore]
  exact settles_foldl_resolve h.withoutPending h.ordered.pending (fun _ he => (h.pending he).2)
    fun _ _ => rfl

theorem Keyed.knows_finalize {store : Store} (h : store.Keyed) :
    store.finalize.knows = store.knows := h.settles.knows

/-- What is said of a category and below it, once it has come to its place. -/
theorem Keyed.infoAt?_finalize_home {store : Store} (h : store.Keyed) {entry : CategoryKey × Node}
    (hentry : entry ∈ store.pending) (trail : List NodeKey) :
    store.finalize.infoAt? (home store.knows ⟨.pending entry.1, trail⟩) =
      NodeInfo.joined
        (infoAt? { store with pending := [] } (home store.knows ⟨.pending entry.1, trail⟩))
        ((store.settledNode entry.1.baseClass entry.2).infoAt? trail) :=
  h.settles.there entry hentry trail

/-- What is said where no category comes to. -/
theorem Keyed.infoAt?_finalize_of_ne {store : Store} (h : store.Keyed) {path : StorePath}
    (hpath : ∀ entry ∈ store.pending, ∀ trail,
      path ≠ home store.knows ⟨.pending entry.1, trail⟩) :
    store.finalize.infoAt? path = infoAt? { store with pending := [] } path :=
  h.settles.elsewhere path hpath

end Store

/-! ## What entities say in the end -/

namespace Accepted

/-- What an accepted entity says of its node when it is known whether its class is. -/
def settled (known : String → Bool) (accepted : Accepted) : NodeInfo :=
  match accepted.standing with
  | .category baseClass => accepted.info.settled known baseClass
  | .root | .member _ => accepted.info

theorem path_eq_pending_iff {a : Accepted} {key : CategoryKey} :
    a.path = ⟨.pending key, []⟩ ↔ a.standing = .category key.baseClass ∧ a.entity.key = key.key := by
  obtain ⟨base, key⟩ := key
  unfold path
  split <;> simp_all

/-- Only categories are settled. -/
theorem settled_of_path {known : String → Bool} {a : Accepted}
    (h : ∀ key, a.path ≠ ⟨.pending key, []⟩) : a.settled known = a.info := by
  unfold settled
  split
  · next baseClass hs => exact (h ⟨baseClass, _⟩ (path_eq_pending_iff.2 ⟨hs, rfl⟩)).elim
  · rfl
  · rfl

theorem settled_of_category {known : String → Bool} {a : Accepted} {key : CategoryKey}
    (h : a.path = ⟨.pending key, []⟩) : a.settled known = a.info.settled known key.baseClass := by
  rw [settled, (path_eq_pending_iff.1 h).1]

@[simp] theorem kind_key (a : Accepted) : a.entity.key.kind = a.entity.kind :=
  NodeKey.kind_ofDeclaration ..

/-- A class has no member under the key of a category. -/
theorem path_ne_of_isCategoryLike {a : Accepted} (ha : a.WellFormed) {start : NodeKey}
    {key : NodeKey} {trail : List NodeKey} (hkey : key.kind.isCategoryLike = true) :
    a.path ≠ ⟨.root start, key :: trail⟩ := by
  intro h
  have hstanding := ha.standing
  unfold path at h
  split at h
  · cases h
  · cases h
  · next container hs =>
    rw [hs] at hstanding
    cases h
    rw [kind_key] at hkey
    cases hk : a.entity.kind <;> simp_all [Kind.isCategoryLike, Kind.isMember]

/-- No other path leads to the home of a category or of what is below it. -/
theorem home_path_eq_iff {known : String → Bool} {a : Accepted} (ha : a.WellFormed)
    {key : CategoryKey} {trail : List NodeKey} (hkey : key.key.kind.isCategoryLike = true) :
    a.path.home known = StorePath.home known ⟨.pending key, trail⟩ ↔
      a.path = ⟨.pending key, trail⟩ := by
  refine ⟨?_, fun hpath => by rw [hpath]⟩
  intro hhome
  rcases hap : a.path with ⟨start | start, below⟩
  · rw [hap, StorePath.home_root, StorePath.home_pending] at hhome
    split at hhome
    · exact (path_ne_of_isCategoryLike ha hkey (hap.trans hhome)).elim
    · cases hhome
  · rw [hap, StorePath.home_pending_inj] at hhome
    rw [hhome.1, hhome.2]

end Accepted

/-- The classes that are declared. -/
def declaresClass (accepted : List Accepted) (baseClass : String) : Bool :=
  accepted.any fun a => a.path = ⟨.root ⟨.interface, baseClass⟩, []⟩

/-- What is said in the end at a path: what the entities say whose paths lead there. -/
def settledAt (accepted : List Accepted) (path : StorePath) : List NodeInfo :=
  (accepted.filter fun a => a.path.home (declaresClass accepted) = path).map
    (Accepted.settled (declaresClass accepted))

namespace NodeInfo

/-- Resolution and parent may be told otherwise, by all declarations alike. -/
theorem Summarizes.retell {info : NodeInfo} {declared : List NodeInfo}
    (h : info.Summarizes declared) (resolution : Resolution)
    (parent : NodeInfo → Option NodeKey) :
    Summarizes
      { info with resolution := some resolution, parent := declared.findSome? parent }
      (declared.map fun d => { d with resolution := some resolution, parent := parent d }) where
  key := by simpa using h.key
  declaredIn := by simpa using h.declaredIn
  ascending := h.ascending
  location := h.location
  earliest := h.earliest
  comment := by
    rw [firstComment, List.find?_map, List.findSome?_map, Option.bind_map]
    exact h.comment
  signature := by
    rw [firstSignature, List.map_map]
    exact h.signature
  typeName := by rw [List.findSome?_map]; exact h.typeName
  superclass := by rw [List.findSome?_map]; exact h.superclass
  baseClass := by rw [List.findSome?_map]; exact h.baseClass
  group := by rw [List.findSome?_map]; exact h.group
  resolution := by
    obtain ⟨d, hd⟩ := h.nonempty
    cases declared with
    | nil => cases hd
    | cons => rfl
  parent := by rw [List.findSome?_map]; rfl
  protocols := by simpa using h.protocols
  protocolsAscending := h.protocolsAscending
  attributes := by simpa using h.attributes
  attributesNodup := by simpa using h.attributesNodup

/-- What a category's declarations say together, it says settled when they are. -/
theorem Summarizes.settled {info : NodeInfo} {declared : List NodeInfo}
    (h : info.Summarizes declared) (known : String → Bool) (baseClass : String) :
    (info.settled known baseClass).Summarizes
      (declared.map (NodeInfo.settled known baseClass)) := by
  by_cases hk : known baseClass = true
  · have htold := h.retell .resolved fun _ => some ⟨.interface, baseClass⟩
    have hsome : declared.findSome? (fun _ => some (⟨.interface, baseClass⟩ : NodeKey)) =
        some ⟨.interface, baseClass⟩ := by
      obtain ⟨d, hd⟩ := h.nonempty
      cases declared with
      | nil => cases hd
      | cons => rfl
    rw [hsome] at htold
    have hsettled : NodeInfo.settled known baseClass = fun d =>
        { d with resolution := some .resolved, parent := some ⟨.interface, baseClass⟩ } :=
      funext fun d => if_pos hk
    rwa [hsettled]
  · have htold := h.retell .unresolved NodeInfo.parent
    rw [← h.parent] at htold
    have hsettled : NodeInfo.settled known baseClass = fun d =>
        { d with resolution := some .unresolved } := funext fun d => if_neg hk
    rwa [hsettled]

end NodeInfo

namespace Store.Holds

variable {store : Store} {accepted : List Accepted}

theorem knows_eq (h : store.Holds accepted) : store.knows = declaresClass accepted := by
  funext baseClass
  have hinfo := h.isSome_infoAt?_iff ⟨.root ⟨.interface, baseClass⟩, []⟩
  rw [infoAt?_start, Option.isSome_map] at hinfo
  rw [Bool.eq_iff_iff, knows, hinfo, declaresClass, List.any_eq_true]
  simp only [decide_eq_true_eq]

/-- A category that waits was accepted, and has the key it waits under. -/
theorem isCategoryLike_of_pending (h : store.Holds accepted) {entry : CategoryKey × Node}
    (hentry : entry ∈ store.pending) :
    store.container? (.pending entry.1) = some entry.2 ∧ entry.2.key = entry.1.key ∧
      entry.1.key.kind.isCategoryLike = true := by
  have hc : store.container? (.pending entry.1) = some entry.2 :=
    (OrderedMap.find?_eq_some_iff h.ordered.pending).2 hentry
  refine ⟨hc, h.key_of_container? hc, ?_⟩
  obtain ⟨a, ha, hpath⟩ := (h.isSome_infoAt?_iff ⟨.pending entry.1, []⟩).1
    (by rw [infoAt?_start, hc]; rfl)
  obtain ⟨hstanding, hkey⟩ := Accepted.path_eq_pending_iff.1 hpath
  have hkind := (h.wellFormed a ha).standing
  rw [hstanding] at hkind
  rw [← hkey, Accepted.kind_key]
  exact hkind

/-- An entity of a category was accepted for a category that waits. -/
theorem mem_pending_of_path (h : store.Holds accepted) {a : Accepted} (ha : a ∈ accepted)
    {key : CategoryKey} {trail : List NodeKey} (hpath : a.path = ⟨.pending key, trail⟩) :
    ∃ node, (key, node) ∈ store.pending := by
  have hsome := (h.isSome_infoAt?_iff a.path).2 ⟨a, ha, rfl⟩
  rw [hpath] at hsome
  cases hc : store.container? (.pending key) with
  | none => simp [infoAt?, hc] at hsome
  | some node => exact ⟨node, (OrderedMap.find?_eq_some_iff h.ordered.pending).1 hc⟩

/-- Categories that wait are told of nowhere else. -/
theorem infoAt?_home_eq_none (h : store.Holds accepted) {entry : CategoryKey × Node}
    (hentry : entry ∈ store.pending) (trail : List NodeKey) :
    Store.infoAt? { store with pending := [] }
      (StorePath.home store.knows ⟨.pending entry.1, trail⟩) = none := by
  rw [StorePath.home_pending]
  split
  · apply Option.not_isSome_iff_eq_none.1
    intro hsome
    obtain ⟨a, ha, hpath⟩ := (h.isSome_infoAt?_iff
      ⟨.root ⟨.interface, entry.1.baseClass⟩, entry.1.key :: trail⟩).1 hsome
    exact Accepted.path_ne_of_isCategoryLike (h.wellFormed a ha)
      (h.isCategoryLike_of_pending hentry).2.2 hpath
  · rfl

/-- What a store says of a category that waits, and below it, it says at the category's home. -/
theorem tells_finalize_home (h : store.Holds accepted) {entry : CategoryKey × Node}
    (hentry : entry ∈ store.pending) (trail : List NodeKey) :
    NodeInfo.Tells
      (settledAt accepted (StorePath.home (declaresClass accepted) ⟨.pending entry.1, trail⟩))
      (store.finalize.infoAt? (StorePath.home (declaresClass accepted) ⟨.pending entry.1, trail⟩)) := by
  obtain ⟨hc, -, hlike⟩ := h.isCategoryLike_of_pending hentry
  have hthere := h.keyed.infoAt?_finalize_home hentry trail
  rw [h.infoAt?_home_eq_none hentry trail, NodeInfo.none_joined, infoAt?_settledNode,
    h.knows_eq] at hthere
  have hpaths :
      settledAt accepted (StorePath.home (declaresClass accepted) ⟨.pending entry.1, trail⟩) =
      (accepted.filter fun a => a.path = ⟨.pending entry.1, trail⟩).map
        (Accepted.settled (declaresClass accepted)) := by
    refine congrArg (List.map _) (List.filter_congr ?_)
    intro a ha
    rw [decide_eq_decide]
    exact Accepted.home_path_eq_iff (h.wellFormed a ha) hlike
  have htells := h.tells ⟨.pending entry.1, trail⟩
  rw [hpaths, hthere]
  split
  · next ht =>
    subst ht
    rw [infoAt?_start, hc] at htells
    have hsame : (accepted.filter fun a => a.path = ⟨.pending entry.1, []⟩).map
        (Accepted.settled (declaresClass accepted)) =
        (infosAt accepted ⟨.pending entry.1, []⟩).map
          (NodeInfo.settled (declaresClass accepted) entry.1.baseClass) := by
      rw [infosAt, List.map_map]
      apply List.map_congr_left
      intro a ha
      exact Accepted.settled_of_category (by simpa using (List.mem_filter.1 ha).2)
    rw [hsame]
    exact NodeInfo.Summarizes.settled htells _ _
  · next ht =>
    have hsame : (accepted.filter fun a => a.path = ⟨.pending entry.1, trail⟩).map
        (Accepted.settled (declaresClass accepted)) =
        infosAt accepted ⟨.pending entry.1, trail⟩ := by
      apply List.map_congr_left
      intro a ha
      apply Accepted.settled_of_path
      intro key hkey
      have hpath : a.path = ⟨.pending entry.1, trail⟩ := by simpa using (List.mem_filter.1 ha).2
      rw [hpath] at hkey
      exact ht (congrArg StorePath.trail hkey)
    rw [hsame]
    simpa [infoAt?, hc] using htells

/-- A finalized store says at every path what the entities accepted for a path that leads there say
together. -/
theorem tells_finalize (h : store.Holds accepted) (path : StorePath) :
    NodeInfo.Tells (settledAt accepted path) (store.finalize.infoAt? path) := by
  by_cases hp : ∃ entry ∈ store.pending, ∃ trail,
      path = StorePath.home (declaresClass accepted) ⟨.pending entry.1, trail⟩
  · obtain ⟨entry, hentry, trail, rfl⟩ := hp
    exact h.tells_finalize_home hentry trail
  · have helse := h.keyed.infoAt?_finalize_of_ne fun entry hentry trail heq =>
      hp ⟨entry, hentry, trail, by rw [← h.knows_eq]; exact heq⟩
    have hpending : ∀ a ∈ accepted, ∀ key trail, a.path = ⟨.pending key, trail⟩ →
        a.path.home (declaresClass accepted) ≠ path := by
      rintro a ha key trail hap rfl
      obtain ⟨node, hnode⟩ := h.mem_pending_of_path ha hap
      exact hp ⟨_, hnode, trail, by rw [hap]⟩
    rw [helse]
    obtain ⟨start | start, trail⟩ := path
    · have hpaths : (accepted.filter fun a =>
            a.path.home (declaresClass accepted) = ⟨.root start, trail⟩) =
          accepted.filter fun a => a.path = ⟨.root start, trail⟩ := by
        apply List.filter_congr
        intro a ha
        rcases hap : a.path with ⟨other | key, below⟩
        · rw [StorePath.home_root]
        · have := hpending a ha key below hap
          rw [hap] at this
          simp [this]
      have hsame : settledAt accepted ⟨.root start, trail⟩ =
          infosAt accepted ⟨.root start, trail⟩ := by
        rw [settledAt, hpaths]
        apply List.map_congr_left
        intro a ha
        apply Accepted.settled_of_path
        intro key hkey
        have hpath : a.path = ⟨.root start, trail⟩ := by simpa using (List.mem_filter.1 ha).2
        rw [hpath] at hkey
        cases hkey
      rw [hsame]
      exact h.tells ⟨.root start, trail⟩
    · have hnone : settledAt accepted ⟨.pending start, trail⟩ = [] := by
        refine List.map_eq_nil_iff.2 (List.filter_eq_nil_iff.2 ?_)
        intro a ha
        rcases hap : a.path with ⟨other | key, below⟩
        · simp
        · have := hpending a ha key below hap
          rw [hap] at this
          simpa using this
      rw [hnone]
      rfl

/-- A path leads to a node when an entity was accepted for a path that leads there. -/
theorem isSome_infoAt?_finalize_iff (h : store.Holds accepted) (path : StorePath) :
    (store.finalize.infoAt? path).isSome = true ↔
      ∃ a ∈ accepted, a.path.home (declaresClass accepted) = path := by
  simp [(h.tells_finalize path).isSome_iff, settledAt, List.filter_eq_nil_iff]

theorem ordered_finalize (h : store.Holds accepted) : store.finalize.Ordered :=
  h.keyed.settles.keyed.ordered

end Store.Holds

end DeclDoc
