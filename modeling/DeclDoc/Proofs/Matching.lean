import DeclDoc.Proofs.StorePath
import DeclDoc.Store.Documented
import Mathlib.Data.Option.Basic

/-!
# Matching stores

Two nodes match under a relation when the same keys lead to members of both, and what those say of
themselves is related (`Node.Matches`); likewise two stores (`Store.Matches`). Where related nodes
are of one kind and both documented or both not, pruning keeps the match (`Store.Matches.prune`): a
node falls in both stores or in neither. Matching stores have the same keys everywhere
(`Store.Matches.locate?`).
-/

set_option autoImplicit false

namespace DeclDoc

/-! ## Filtered maps -/

namespace OrderedMap

variable {κ α β : Type} [Ord κ]

theorem find?_filter [Std.TransOrd κ] [Std.LawfulEqOrd κ] (p : α → Bool) (key : κ)
    {map : List (κ × α)} (h : Ascending map) :
    find? key (map.filter fun entry => p entry.2) = (find? key map).filter p := by
  have hfiltered : Ascending (map.filter fun entry => p entry.2) := h.filter _
  apply Option.ext
  intro value
  rw [find?_eq_some_iff hfiltered, List.mem_filter, Option.filter_eq_some_iff, find?_eq_some_iff h]

theorem ascending_map (f : α → β) {map : List (κ × α)} (h : Ascending map) :
    Ascending (map.map fun entry => (entry.1, f entry.2)) := List.pairwise_map.2 h

theorem mem_keys_iff [Std.TransOrd κ] [Std.LawfulEqOrd κ] {key : κ} {map : List (κ × α)}
    (h : Ascending map) : key ∈ map.map (·.1) ↔ (find? key map).isSome = true := by
  simp [Option.isSome_iff_exists, find?_eq_some_iff h]

/-- Maps in which the same keys are found have the same keys. -/
theorem keys_eq [Std.TransOrd κ] [Std.LawfulEqOrd κ] {map : List (κ × α)}
    {other : List (κ × β)} (h : Ascending map) (ho : Ascending other)
    (hkeys : ∀ key, (find? key map).isSome = (find? key other).isSome) :
    map.map (·.1) = other.map (·.1) := by
  refine OrderedSet.eq_of_mem_iff (List.pairwise_map.2 h) (List.pairwise_map.2 ho) ?_
  intro key
  rw [mem_keys_iff h, mem_keys_iff ho, hkeys]

end OrderedMap

namespace Node

/-! ## Trees -/

theorem sizeOf_lt_of_mem {node child : Node} {key : NodeKey} (h : (key, child) ∈ node.children) :
    sizeOf child < sizeOf node := by
  have hlt := List.sizeOf_lt_of_mem h
  obtain ⟨info, children⟩ := node
  simp only [Node.mk.sizeOf_spec, Prod.mk.sizeOf_spec] at hlt ⊢
  omega

/-- What holds of a node when it holds of all its members, holds of every node. -/
theorem inductionOn {motive : Node → Prop} (node : Node)
    (step : ∀ node, (∀ key child, (key, child) ∈ node.children → motive child) → motive node) :
    motive node :=
  step node fun _ child _ => inductionOn child step
termination_by sizeOf node
decreasing_by exact sizeOf_lt_of_mem (by assumption)

theorem isDocumentedWithin_eq (node : Node) :
    node.isDocumentedWithin =
      (node.info.isDocumented || node.children.any fun entry => entry.2.isDocumentedWithin) := by
  have hany : ∀ children : List (NodeKey × Node),
      anyDocumentedWithin children = children.any fun entry => entry.2.isDocumentedWithin := by
    intro children
    induction children with
    | nil => rfl
    | cons entry rest ih => rw [anyDocumentedWithin, ih, List.any_cons]
  obtain ⟨info, children⟩ := node
  rw [isDocumentedWithin, hany]

/-- Something in a node is documented when a path leads to it. -/
theorem isDocumentedWithin_iff {node : Node} (h : node.Ordered) :
    node.isDocumentedWithin = true ↔
      ∃ trail info, node.infoAt? trail = some info ∧ info.isDocumented = true := by
  induction node using Node.inductionOn with
  | step node ih =>
    obtain ⟨hchildren, hall⟩ := ordered_iff.1 h
    rw [isDocumentedWithin_eq, Bool.or_eq_true, List.any_eq_true]
    constructor
    · rintro (hinfo | ⟨⟨key, child⟩, hmem, hchild⟩)
      · exact ⟨[], node.info, rfl, hinfo⟩
      · have hfind := (OrderedMap.find?_eq_some_iff hchildren).2 hmem
        obtain ⟨trail, info, htrail, hinfo⟩ := (ih key child hmem (hall key child hfind)).1 hchild
        exact ⟨key :: trail, info, by rw [infoAt?_cons, hfind]; exact htrail, hinfo⟩
    · rintro ⟨trail, info, htrail, hinfo⟩
      cases trail with
      | nil =>
        cases htrail
        exact .inl hinfo
      | cons key trail =>
        rw [infoAt?_cons, Option.bind_eq_some_iff] at htrail
        obtain ⟨child, hfind, htrail⟩ := htrail
        have hmem := OrderedMap.mem_of_find? hfind
        exact .inr ⟨(key, child), hmem,
          (ih key child hmem (hall key child hfind)).2 ⟨trail, info, htrail, hinfo⟩⟩

/-- A node below a node in order is in order. -/
theorem Ordered.descend? {node below : Node} (h : node.Ordered) {trail : List NodeKey}
    (hbelow : node.descend? trail = some below) : below.Ordered := by
  induction trail generalizing node with
  | nil => cases hbelow; exact h
  | cons key trail ih =>
    obtain ⟨child, hchild, hbelow⟩ := Option.bind_eq_some_iff.1 hbelow
    exact ih ((ordered_iff.1 h).2 key child hchild) hbelow

/-! ## Pruned trees -/

theorem value_pruneEntries {κ : Type} (policy : KeepPolicy) (map : List (κ × Node)) :
    (pruneEntries policy map).value =
      (map.map fun entry => (entry.1, (entry.2.prune policy).value)).filter fun entry =>
        policy.keeps entry.2 := by
  induction map with
  | nil => rfl
  | cons entry rest ih =>
    obtain ⟨key, node⟩ := entry
    rw [pruneEntries, List.map_cons, List.filter_cons, ← ih]
    by_cases h : policy.keeps (node.prune policy).value = true <;> simp [h]

theorem pruneChildren_eq (policy : KeepPolicy) (children : List (NodeKey × Node)) :
    pruneChildren policy children = pruneEntries policy children := by
  induction children with
  | nil => rfl
  | cons entry rest ih => rw [pruneChildren, pruneEntries, ih]

theorem children_prune (policy : KeepPolicy) (node : Node) :
    (node.prune policy).value.children = (pruneEntries policy node.children).value := by
  rw [← pruneChildren_eq]
  cases node
  rfl

/-- What is found in a pruned map: what was found before, pruned, where that is kept. -/
theorem find?_pruneEntries {κ : Type} [Ord κ] [Std.TransOrd κ] [Std.LawfulEqOrd κ]
    (policy : KeepPolicy) (key : κ) {map : List (κ × Node)} (h : OrderedMap.Ascending map) :
    OrderedMap.find? key (pruneEntries policy map).value =
      ((OrderedMap.find? key map).map fun node => (node.prune policy).value).filter
        policy.keeps := by
  rw [value_pruneEntries, ← OrderedMap.find?_map]
  exact OrderedMap.find?_filter _ _
    (OrderedMap.ascending_map (fun node : Node => (node.prune policy).value) h)

theorem ascending_pruneEntries {κ : Type} [Ord κ] (policy : KeepPolicy) {map : List (κ × Node)}
    (h : OrderedMap.Ascending map) : OrderedMap.Ascending (pruneEntries policy map).value := by
  rw [value_pruneEntries]
  exact (OrderedMap.ascending_map (fun node : Node => (node.prune policy).value) h).filter _

theorem Ordered.prune {node : Node} (h : node.Ordered) (policy : KeepPolicy) :
    (node.prune policy).value.Ordered := by
  induction node using Node.inductionOn with
  | step node ih =>
    obtain ⟨hchildren, hall⟩ := ordered_iff.1 h
    rw [ordered_iff, children_prune]
    refine ⟨ascending_pruneEntries policy hchildren, ?_⟩
    intro key child hchild
    rw [find?_pruneEntries policy key hchildren, Option.filter_eq_some_iff,
      Option.map_eq_some_iff] at hchild
    obtain ⟨⟨before, hbefore, rfl⟩, -⟩ := hchild
    exact ih key before (OrderedMap.mem_of_find? hbefore) (hall key before hbefore)

/-- What is left says what it said. -/
theorem infoAt?_of_prune {node : Node} (h : node.Ordered) {policy : KeepPolicy}
    {trail : List NodeKey} {info : NodeInfo}
    (hinfo : (node.prune policy).value.infoAt? trail = some info) :
    node.infoAt? trail = some info := by
  induction trail generalizing node with
  | nil =>
    rw [infoAt?_nil, prune_info] at hinfo
    exact hinfo
  | cons key trail ih =>
    obtain ⟨hchildren, hall⟩ := ordered_iff.1 h
    rw [infoAt?_cons, children_prune, find?_pruneEntries policy key hchildren] at hinfo
    obtain ⟨child, hchild, hinfo⟩ := Option.bind_eq_some_iff.1 hinfo
    obtain ⟨before, hbefore, rfl⟩ := Option.map_eq_some_iff.1 (Option.filter_eq_some_iff.1 hchild).1
    rw [infoAt?_cons, hbefore]
    exact ih (hall key before hbefore) hinfo

/-! ## Matching trees -/

/-- The same keys lead to members of both, and what those say is related. -/
def Matches (R : NodeInfo → NodeInfo → Prop) (a b : Node) : Prop :=
  ∀ trail, Option.Rel R (a.infoAt? trail) (b.infoAt? trail)

variable {R : NodeInfo → NodeInfo → Prop} {a b : Node}

theorem matches_iff :
    Matches R a b ↔ R a.info b.info ∧
      ∀ key, Option.Rel (Matches R) (OrderedMap.find? key a.children)
        (OrderedMap.find? key b.children) := by
  refine ⟨fun h => ⟨by cases h []; assumption, ?_⟩, ?_⟩
  · intro key
    have hkey := h [key]
    have hbelow := fun trail => h (key :: trail)
    simp only [infoAt?_cons] at hkey hbelow
    cases ha : OrderedMap.find? key a.children <;> cases hb : OrderedMap.find? key b.children <;>
      simp only [ha, hb, Option.bind_none, Option.bind_some, infoAt?_nil] at hkey hbelow
    · exact .none
    · cases hkey
    · cases hkey
    · exact .some hbelow
  · rintro ⟨hinfo, hall⟩ trail
    cases trail with
    | nil => exact .some hinfo
    | cons key trail =>
      simp only [infoAt?_cons]
      have hkey := hall key
      cases ha : OrderedMap.find? key a.children <;>
        cases hb : OrderedMap.find? key b.children <;> rw [ha, hb] at hkey <;> cases hkey
      · exact .none
      · next h => exact h trail

section
variable (hR : ∀ x y, R x y → x.kind = y.kind ∧ x.isDocumented = y.isDocumented)
include hR

/-- Something in one is documented when something in the other is. -/
theorem Matches.isDocumentedWithin_eq (ha : a.Ordered) (hb : b.Ordered) (h : Matches R a b) :
    a.isDocumentedWithin = b.isDocumentedWithin := by
  rw [Bool.eq_iff_iff, isDocumentedWithin_iff ha, isDocumentedWithin_iff hb]
  apply exists_congr
  intro trail
  have htrail := h trail
  cases hax : a.infoAt? trail <;> cases hbx : b.infoAt? trail <;> rw [hax, hbx] at htrail <;>
    cases htrail
  next x y hxy => simp [(hR x y hxy).2]

theorem Matches.keeps_eq (ha : a.Ordered) (hb : b.Ordered) (h : Matches R a b)
    (policy : KeepPolicy) : policy.keeps a = policy.keeps b := by
  obtain ⟨hkind, hdocumented⟩ := hR _ _ (matches_iff.1 h).1
  rw [KeepPolicy.keeps, KeepPolicy.keeps, hkind, hdocumented, h.isDocumentedWithin_eq hR ha hb]

/-- Both are kept, or neither. -/
theorem Matches.filter_keeps (ha : a.Ordered) (hb : b.Ordered) (h : Matches R a b)
    (policy : KeepPolicy) :
    Option.Rel (Matches R) ((some a).filter policy.keeps) ((some b).filter policy.keeps) := by
  rw [Option.filter_some, Option.filter_some, h.keeps_eq hR ha hb]
  split
  · exact .some h
  · exact .none

theorem Matches.prune (ha : a.Ordered) (hb : b.Ordered) (h : Matches R a b)
    (policy : KeepPolicy) : Matches R (a.prune policy).value (b.prune policy).value := by
  induction a using Node.inductionOn generalizing b with
  | step a ih =>
    obtain ⟨hinfo, hall⟩ := matches_iff.1 h
    obtain ⟨hachildren, haall⟩ := ordered_iff.1 ha
    obtain ⟨hbchildren, hball⟩ := ordered_iff.1 hb
    rw [matches_iff, prune_info, prune_info, children_prune, children_prune]
    refine ⟨hinfo, ?_⟩
    intro key
    rw [find?_pruneEntries policy key hachildren, find?_pruneEntries policy key hbchildren]
    have hkey := hall key
    cases hx : OrderedMap.find? key a.children <;> cases hy : OrderedMap.find? key b.children <;>
      rw [hx, hy] at hkey <;> cases hkey
    · exact .none
    · next x y hxy =>
      have hpruned := ih key x (OrderedMap.mem_of_find? hx) (haall key x hx) (hball key y hy) hxy
      exact hpruned.filter_keeps hR ((haall key x hx).prune policy) ((hball key y hy).prune policy)
        policy

end

/-- Matching nodes have the same members' keys. -/
theorem Matches.keys_eq (ha : a.Ordered) (hb : b.Ordered) (h : Matches R a b) :
    a.children.map (·.1) = b.children.map (·.1) := by
  refine OrderedMap.keys_eq (ordered_iff.1 ha).1 (ordered_iff.1 hb).1 ?_
  intro key
  have hkey := (matches_iff.1 h).2 key
  cases hx : OrderedMap.find? key a.children <;> cases hy : OrderedMap.find? key b.children <;>
    rw [hx, hy] at hkey <;> cases hkey
  rfl

theorem Matches.descend? (h : Matches R a b) (trail : List NodeKey) :
    Option.Rel (Matches R) (a.descend? trail) (b.descend? trail) := by
  induction trail generalizing a b with
  | nil => exact .some h
  | cons key trail ih =>
    have hkey := (matches_iff.1 h).2 key
    rw [Node.descend?, Node.descend?]
    cases hx : OrderedMap.find? key a.children <;> cases hy : OrderedMap.find? key b.children <;>
      rw [hx, hy] at hkey <;> cases hkey
    · exact .none
    · next hxy => exact ih hxy

/-- Nodes in order that say the same everywhere are the same. -/
theorem Matches.eq {a b : Node} (ha : a.Ordered) (hb : b.Ordered) (h : Matches Eq a b) : a = b := by
  induction a using Node.inductionOn generalizing b with
  | step a ih =>
    obtain ⟨hinfo, hchildren⟩ := matches_iff.1 h
    obtain ⟨haascending, haall⟩ := ordered_iff.1 ha
    obtain ⟨hbascending, hball⟩ := ordered_iff.1 hb
    have hfind : ∀ key, OrderedMap.find? key a.children = OrderedMap.find? key b.children := by
      intro key
      have hkey := hchildren key
      cases hac : OrderedMap.find? key a.children with
      | none =>
        cases hbc : OrderedMap.find? key b.children with
        | none => rfl
        | some y => rw [hac, hbc] at hkey; cases hkey
      | some x =>
        cases hbc : OrderedMap.find? key b.children with
        | none => rw [hac, hbc] at hkey; cases hkey
        | some y =>
          rw [hac, hbc] at hkey
          cases hkey with
          | some hxy =>
            rw [ih key x (OrderedMap.mem_of_find? hac) (haall key x hac) (hball key y hbc) hxy]
    have hsame := OrderedMap.eq_of_find?_eq haascending hbascending hfind
    obtain ⟨info, children⟩ := a
    obtain ⟨info', children'⟩ := b
    cases hinfo
    cases hsame
    rfl

end Node

/-! ## Stores -/

namespace Store

/-- The same paths lead to nodes of both, and what those say is related. -/
def Matches (R : NodeInfo → NodeInfo → Prop) (a b : Store) : Prop :=
  ∀ path, Option.Rel R (a.infoAt? path) (b.infoAt? path)

variable {R : NodeInfo → NodeInfo → Prop} {a b : Store}

theorem matches_iff :
    Matches R a b ↔
      ∀ start, Option.Rel (Node.Matches R) (a.container? start) (b.container? start) := by
  refine ⟨?_, ?_⟩
  · intro h start
    have hstart := h ⟨start, []⟩
    have hbelow := fun trail => h ⟨start, trail⟩
    simp only [infoAt?] at hstart hbelow
    cases ha : a.container? start <;> cases hb : b.container? start <;>
      simp only [ha, hb, Option.bind_none, Option.bind_some, Node.infoAt?_nil] at hstart hbelow
    · exact .none
    · cases hstart
    · cases hstart
    · exact .some hbelow
  · intro h path
    have hstart := h path.start
    rw [infoAt?, infoAt?]
    cases ha : a.container? path.start <;> cases hb : b.container? path.start <;>
      rw [ha, hb] at hstart <;> cases hstart
    · exact .none
    · next h => exact h path.trail

theorem container?_prune {store : Store} (h : store.Ordered) (policy : KeepPolicy)
    (start : ContainerRef) :
    (store.prune policy).value.container? start =
      ((store.container? start).map fun node => (node.prune policy).value).filter
        policy.keeps := by
  cases start with
  | root key => exact Node.find?_pruneEntries policy key h.roots
  | pending key => exact Node.find?_pruneEntries policy key h.pending

/-- What is left says what it said. -/
theorem infoAt?_of_prune {store : Store} (h : store.Ordered) {policy : KeepPolicy}
    {path : StorePath} {info : NodeInfo}
    (hinfo : (store.prune policy).value.infoAt? path = some info) :
    store.infoAt? path = some info := by
  rw [infoAt?, container?_prune h] at hinfo
  obtain ⟨node, hnode, hinfo⟩ := Option.bind_eq_some_iff.1 hinfo
  obtain ⟨before, hbefore, rfl⟩ := Option.map_eq_some_iff.1 (Option.filter_eq_some_iff.1 hnode).1
  rw [infoAt?, hbefore]
  exact Node.infoAt?_of_prune (h.below _ _ hbefore) hinfo

theorem Ordered.prune {store : Store} (h : store.Ordered) (policy : KeepPolicy) :
    (store.prune policy).value.Ordered where
  roots := Node.ascending_pruneEntries policy h.roots
  pending := Node.ascending_pruneEntries policy h.pending
  below start node hnode := by
    rw [container?_prune h, Option.filter_eq_some_iff, Option.map_eq_some_iff] at hnode
    obtain ⟨⟨before, hbefore, rfl⟩, -⟩ := hnode
    exact (h.below start before hbefore).prune policy

theorem Matches.prune (hR : ∀ x y, R x y → x.kind = y.kind ∧ x.isDocumented = y.isDocumented)
    (ha : a.Ordered) (hb : b.Ordered) (h : Matches R a b) (policy : KeepPolicy) :
    Matches R (a.prune policy).value (b.prune policy).value := by
  rw [matches_iff] at h ⊢
  intro start
  rw [container?_prune ha, container?_prune hb]
  have hstart := h start
  cases hx : a.container? start <;> cases hy : b.container? start <;>
    rw [hx, hy] at hstart <;> cases hstart
  · exact .none
  · next x y hxy =>
    have hpruned := hxy.prune hR (ha.below start x hx) (hb.below start y hy) policy
    exact hpruned.filter_keeps hR ((ha.below start x hx).prune policy)
      ((hb.below start y hy).prune policy) policy

/-- Matching stores have related nodes at every path, with the same members' keys. -/
theorem Matches.locate? (ha : a.Ordered) (hb : b.Ordered) (h : Matches R a b) (path : StorePath) :
    Option.Rel (fun x y => R x.info y.info ∧ x.children.map (·.1) = y.children.map (·.1))
      (a.locate? path) (b.locate? path) := by
  have hstart := matches_iff.1 h path.start
  rw [Store.locate?, Store.locate?]
  cases hx : a.container? path.start <;> cases hy : b.container? path.start <;>
    rw [hx, hy] at hstart <;> cases hstart
  · exact .none
  next x y hxy =>
  have hbelow := hxy.descend? path.trail
  rw [Option.bind_some, Option.bind_some]
  cases hz : x.descend? path.trail <;> cases hw : y.descend? path.trail <;>
    rw [hz, hw] at hbelow <;> cases hbelow
  · exact .none
  · next z w hzw =>
    have hzo := (ha.below _ x hx).descend? hz
    have hwo := (hb.below _ y hy).descend? hw
    exact .some ⟨(Node.matches_iff.1 hzw).1, hzw.keys_eq hzo hwo⟩

/-- Matching stores have the same keys at the root and among the categories that wait. -/
theorem Matches.keys_eq (ha : a.Ordered) (hb : b.Ordered) (h : Matches R a b) :
    a.roots.map (·.1) = b.roots.map (·.1) ∧ a.pending.map (·.1) = b.pending.map (·.1) := by
  have hsome : ∀ start, (a.container? start).isSome = (b.container? start).isSome := by
    intro start
    have hstart := matches_iff.1 h start
    cases hx : a.container? start <;> cases hy : b.container? start <;>
      rw [hx, hy] at hstart <;> cases hstart
    rfl
  exact ⟨OrderedMap.keys_eq ha.roots hb.roots fun key => hsome (.root key),
    OrderedMap.keys_eq ha.pending hb.pending fun key => hsome (.pending key)⟩

/-- Stores in order that say the same everywhere have the same roots, and the same waits in them. -/
theorem Matches.eq {a b : Store} (ha : a.Ordered) (hb : b.Ordered) (h : Matches Eq a b) :
    a.roots = b.roots ∧ a.pending = b.pending := by
  have hstart : ∀ start, a.container? start = b.container? start := by
    intro start
    have hrel := matches_iff.1 h start
    cases hac : a.container? start with
    | none =>
      cases hbc : b.container? start with
      | none => rfl
      | some y => rw [hac, hbc] at hrel; cases hrel
    | some x =>
      cases hbc : b.container? start with
      | none => rw [hac, hbc] at hrel; cases hrel
      | some y =>
        rw [hac, hbc] at hrel
        cases hrel with
        | some hxy => rw [Node.Matches.eq (ha.below start x hac) (hb.below start y hbc) hxy]
  exact ⟨OrderedMap.eq_of_find?_eq ha.roots hb.roots fun key => hstart (.root key),
    OrderedMap.eq_of_find?_eq ha.pending hb.pending fun key => hstart (.pending key)⟩

theorem eq_of_infoAt?_eq {a b : Store} (ha : a.Ordered) (hb : b.Ordered)
    (h : ∀ path, a.infoAt? path = b.infoAt? path) :
    a.roots = b.roots ∧ a.pending = b.pending := by
  refine Matches.eq ha hb fun path => ?_
  rw [h path]
  cases b.infoAt? path with
  | none => exact .none
  | some info => exact .some rfl

end Store

end DeclDoc
