import DeclDoc.Proofs.Repetition

/-!
# Laws of merging

Nodes are well kept when their sets and members stand in order at every level and each member stands
under its own key. On such nodes merging is a left-biased idempotent semigroup: it does not matter
which two of three are merged first, a node merged with itself is that node without a conflict, and a
part that comes once more adds nothing (`Node.merge_laws`). A merged node is well kept, and has at
every level the members of both. The nodes of a store are well kept (`Store.Gathers.wellKept`).
-/

set_option autoImplicit false

namespace DeclDoc

/-! ## What is said in two places -/

namespace NodeInfo

variable {a b c : Option NodeInfo}

theorem joined_self (h : ∀ info, a = some info → info.Sorted) : joined a a = a := by
  cases a with
  | none => rfl
  | some a => exact congrArg some (merge_self (h a rfl))

/-- What one of two has said adds nothing to both. -/
theorem joined_joined_eq (ha : ∀ info, a = some info → info.Sorted)
    (hb : ∀ info, b = some info → info.Sorted) (hc : c = a ∨ c = b) :
    joined (joined a b) c = joined a b := by
  cases a with
  | none =>
    rw [none_joined]
    rcases hc with rfl | rfl
    · exact joined_none b
    · exact joined_self hb
  | some a =>
    cases b with
    | none =>
      rw [joined_none]
      rcases hc with rfl | rfl
      · exact joined_self ha
      · exact joined_none _
    | some b =>
      cases c with
      | none => rfl
      | some c =>
        rw [Option.some_inj, Option.some_inj] at hc
        exact congrArg some (merge_merge_eq (ha a rfl) hc)

/-- Nothing contradicts itself. -/
theorem conflicts_self (info : NodeInfo) : info.conflicts info = [] := by
  have hsignature : info.signatureConflict info = [] := by
    rw [signatureConflict, sameSignature_refl, Bool.or_true, if_pos rfl]
  have htype : info.typeConflict info = [] := by
    unfold typeConflict
    cases info.typeName with
    | none => rfl
    | some name => exact if_pos (sameType_refl name)
  have hsuperclass : info.superclassConflict info = [] := by
    unfold superclassConflict
    cases info.superclass with
    | none => rfl
    | some name => exact if_pos rfl
  rw [conflicts, hsignature, htype, hsuperclass]
  rfl

end NodeInfo

namespace Node

/-! ## Nodes that are well kept -/

/-- The sets of a node and its members stand in order at every level, each member under its own
key. -/
structure WellKept (node : Node) : Prop where
  keyed : node.Keyed
  sorted : ∀ trail info, node.infoAt? trail = some info → info.Sorted

/-- The keys of the members of the node that a trail leads to. -/
def keysAt (node : Node) (trail : List NodeKey) : List NodeKey :=
  ((node.descend? trail).map fun below => below.children.map (·.1)).getD []

variable {a b c : Node}

theorem eq_of_infoAt?_eq (ha : a.Ordered) (hb : b.Ordered)
    (h : ∀ trail, a.infoAt? trail = b.infoAt? trail) : a = b := by
  refine Matches.eq ha hb fun trail => ?_
  rw [h trail]
  cases b.infoAt? trail with
  | none => exact .none
  | some info => exact .some rfl

theorem WellKept.merge (ha : a.WellKept) (hb : b.WellKept) : (a.merge b).value.WellKept where
  keyed := ha.keyed.merge hb.keyed
  sorted trail info hinfo := by
    rw [infoAt?_merge a hb.keyed] at hinfo
    exact .joined (ha.sorted trail) (hb.sorted trail) hinfo

theorem wellKept_ofEntity (entity : Entity) (comment : Option Comment) :
    (ofEntity entity comment).WellKept where
  keyed := keyed_leaf _
  sorted trail info hinfo := by
    cases trail with
    | nil =>
      cases hinfo
      exact ⟨OrderedSet.ascending_singleton _, OrderedSet.ascending_ofList _⟩
    | cons key trail => cases hinfo

/-- A member put in its place. -/
theorem WellKept.insert (ha : a.WellKept) (hb : b.WellKept) :
    ({ a with children := OrderedMap.insert b.key b a.children } : Node).WellKept where
  keyed := ha.keyed.insert hb.keyed
  sorted trail info hinfo := by
    cases trail with
    | nil => exact ha.sorted [] info hinfo
    | cons key trail =>
      rw [infoAt?_cons, OrderedMap.find?_insert] at hinfo
      split at hinfo
      · exact hb.sorted trail info hinfo
      · exact ha.sorted (key :: trail) info ((infoAt?_cons a key trail).trans hinfo)

end Node

/-! ## Nodes of a store -/

/-- The nodes of a store are well kept, however what was accepted came into it. -/
theorem Store.Gathers.wellKept {store : Store} {accepted : List Accepted}
    (h : store.Gathers accepted) {path : StorePath} {node : Node}
    (hnode : store.locate? path = some node) : node.WellKept where
  keyed := h.fit.keyed.locate? hnode
  sorted trail info hinfo := by
    refine h.sorted ⟨path.start, path.trail ++ trail⟩ info ?_
    obtain ⟨start, hstart, hbelow⟩ := Option.bind_eq_some_iff.1 hnode
    rw [infoAt?, hstart, Option.bind_some, Node.infoAt?, Node.descend?_append, hbelow]
    exact hinfo

/-- So are those of a store that files were read into. -/
theorem Call.wellKept_readAll (calls : List Call) {path : StorePath} {node : Node}
    (h : (readAll calls {}).locate? path = some node) : node.WellKept :=
  (Store.Gathers.empty.takesAll (takesAll_readAll calls)).wellKept h

namespace Node

variable {a b c : Node}

/-! ## Laws -/

theorem merge_merge_assoc (ha : a.WellKept) (hb : b.WellKept) (hc : c.WellKept) :
    ((a.merge b).value.merge c).value = (a.merge (b.merge c).value).value := by
  have hab := ha.merge hb
  have hbc := hb.merge hc
  refine eq_of_infoAt?_eq (hab.merge hc).keyed.ordered (ha.merge hbc).keyed.ordered fun trail => ?_
  rw [infoAt?_merge _ hc.keyed, infoAt?_merge _ hb.keyed, infoAt?_merge _ hbc.keyed,
    infoAt?_merge _ hc.keyed, NodeInfo.joined_assoc (ha.sorted trail)]

theorem value_merge_self (h : a.WellKept) : (a.merge a).value = a := by
  refine eq_of_infoAt?_eq (h.merge h).keyed.ordered h.keyed.ordered fun trail => ?_
  rw [infoAt?_merge a h.keyed, NodeInfo.joined_self (h.sorted trail)]

/-- A merged node is the same when one of its two parts comes once more. -/
theorem merge_again (ha : a.WellKept) (hb : b.WellKept) (hc : c = a ∨ c = b) :
    ((a.merge b).value.merge c).value = (a.merge b).value := by
  have hkept : c.WellKept := by rcases hc with rfl | rfl <;> assumption
  have hab := ha.merge hb
  refine eq_of_infoAt?_eq (hab.merge hkept).keyed.ordered hab.keyed.ordered fun trail => ?_
  rw [infoAt?_merge _ hkept.keyed, infoAt?_merge a hb.keyed]
  exact NodeInfo.joined_joined_eq (ha.sorted trail) (hb.sorted trail)
    (hc.imp (congrArg fun node : Node => node.infoAt? trail)
      (congrArg fun node : Node => node.infoAt? trail))

/-! ## Conflicts -/

/-- Members that are put into others are in conflict with those that stand under their keys. -/
theorem conflicts_mergeChildren {children : List (NodeKey × Node)}
    (h : OrderedMap.Ascending children) (hkeys : ∀ entry ∈ children, entry.2.key = entry.1)
    (into : List (NodeKey × Node)) :
    (mergeChildren into children).conflicts = children.flatMap fun entry =>
      ((OrderedMap.find? entry.1 into).map fun existing =>
        (existing.merge entry.2).conflicts).getD [] := by
  induction children generalizing into with
  | nil => rfl
  | cons entry rest ih =>
    obtain ⟨key, child⟩ := entry
    obtain ⟨hlt, hrest⟩ := List.pairwise_cons.1 h
    have hkey : child.key = key := hkeys (key, child) List.mem_cons_self
    have hhere : (mergeAt key child into).conflicts =
        ((OrderedMap.find? key into).map fun existing => (existing.merge child).conflicts).getD [] := by
      unfold mergeAt
      cases OrderedMap.find? key into <;> rfl
    -- What is put under the first key is not looked at again: the keys behind it are others.
    have hbehind : ∀ entry ∈ rest,
        OrderedMap.find? entry.1 (mergeAt key child into).value = OrderedMap.find? entry.1 into := by
      intro entry hentry
      rw [value_mergeAt]
      exact OrderedMap.find?_insert_of_ne (OrderedSet.ne_of_compare_lt (hlt entry hentry)).symm _ _
    rw [mergeChildren_cons, hkey, List.flatMap_cons]
    dsimp only
    rw [hhere, ih hrest fun e he => hkeys e (List.mem_cons_of_mem _ he)]
    congr 1
    refine List.flatMap_congr fun entry hentry => ?_
    rw [hbehind entry hentry]

theorem conflicts_merge (a b : Node) :
    (a.merge b).conflicts =
      a.info.conflicts b.info ++ (mergeChildren a.children b.children).conflicts := by
  cases b
  rfl

theorem conflicts_merge_self (h : a.Keyed) : (a.merge a).conflicts = [] := by
  induction a using Node.inductionOn with
  | step a ih =>
    obtain ⟨hchildren, hall⟩ := keyed_iff.1 h
    rw [conflicts_merge, NodeInfo.conflicts_self, List.nil_append,
      conflicts_mergeChildren hchildren h.key_of_mem, List.flatMap_eq_nil_iff]
    rintro ⟨key, child⟩ hmem
    have hfind := (OrderedMap.find?_eq_some_iff hchildren).2 hmem
    rw [hfind]
    exact ih key child hmem (hall key child hfind).2

/-! ## Members of a merged node -/

theorem mem_keysAt_iff {node : Node} (h : node.Ordered) {trail : List NodeKey} {key : NodeKey} :
    key ∈ node.keysAt trail ↔ (node.infoAt? (trail ++ [key])).isSome = true := by
  rw [infoAt?, Option.isSome_map, descend?_append, keysAt]
  cases hbelow : node.descend? trail with
  | none => simp
  | some below =>
    rw [Option.map_some, Option.getD_some, OrderedMap.mem_keys_iff (h trail below hbelow),
      Option.bind_some, descend?]
    cases OrderedMap.find? key below.children <;> rfl

theorem ascending_keysAt {node : Node} (h : node.Ordered) (trail : List NodeKey) :
    OrderedSet.Ascending (node.keysAt trail) := by
  unfold keysAt
  cases hbelow : node.descend? trail with
  | none => exact List.Pairwise.nil
  | some below => exact List.pairwise_map.2 (h trail below hbelow)

/-- A merged node has at every level the members of both. -/
theorem keysAt_merge (ha : a.Keyed) (hb : b.Keyed) (trail : List NodeKey) :
    (a.merge b).value.keysAt trail = OrderedSet.union (a.keysAt trail) (b.keysAt trail) := by
  have hmerged := (ha.merge hb).ordered
  refine OrderedSet.eq_of_mem_iff (ascending_keysAt hmerged trail)
    (OrderedSet.ascending_union _ (ascending_keysAt ha.ordered trail)) fun key => ?_
  rw [OrderedSet.mem_union, mem_keysAt_iff hmerged, mem_keysAt_iff ha.ordered,
    mem_keysAt_iff hb.ordered, infoAt?_merge a hb, NodeInfo.isSome_joined, Bool.or_eq_true]

/-- Merging of well-kept nodes is associative, a node merged with itself or with a part of it stays as it
is, and a merged node is well kept and has at every level the members of both. -/
theorem merge_laws (ha : a.WellKept) (hb : b.WellKept) (hc : c.WellKept) :
    ((a.merge b).value.merge c).value = (a.merge (b.merge c).value).value ∧
      ((a.merge a).value = a ∧ (a.merge a).conflicts = []) ∧
      ((a.merge b).value.merge a).value = (a.merge b).value ∧
      ((a.merge b).value.merge b).value = (a.merge b).value ∧
      (a.merge b).value.WellKept ∧ (a.merge b).value.key = a.key ∧
      ∀ trail, (a.merge b).value.keysAt trail =
        OrderedSet.union (a.keysAt trail) (b.keysAt trail) :=
  ⟨merge_merge_assoc ha hb hc, ⟨value_merge_self ha, conflicts_merge_self ha.keyed⟩,
    merge_again ha hb (.inl rfl), merge_again ha hb (.inr rfl), ha.merge hb, key_merge a b,
    keysAt_merge ha.keyed hb.keyed⟩

/-- The class `C` as a file declares it. -/
def classOf (file source : String) : Option Node :=
  (Call.readAll [⟨{}, file, source.toList⟩] {}).locate? ⟨.root ⟨.interface, "C"⟩, []⟩

/-- Three files declare the same class; the first and the last one give the type of one property. -/
theorem merge_laws_threeFiles :
    let first := classOf "A.h" "@interface C : D <P, Q>\n@property int x;\n@end"
    let second := classOf "B.h" "@interface C : D <P>\n- (void)x;\n@end"
    let third := classOf "C.h" "@interface C : D <R>\n@property long x;\n@end"
    ∃ a b c, (first = some a ∧ second = some b ∧ third = some c) ∧
      (a.WellKept ∧ b.WellKept ∧ c.WellKept) ∧
      ((a.merge b).value.merge c).value = (a.merge (b.merge c).value).value ∧
      (a.merge a).conflicts = [] ∧ (a.merge c).conflicts = [.types "x" "int" "long"] ∧
      (a.merge b).value.keysAt [] = [⟨.method, "-x"⟩, ⟨.property, "x"⟩] := by
  intro first second third
  have hmerged : (first.bind fun a => second.bind fun b => third.map fun c =>
      ((a.merge c).conflicts, (a.merge b).value.keysAt [])) =
        some ([.types "x" "int" "long"], [⟨.method, "-x"⟩, ⟨.property, "x"⟩]) := by decide +kernel
  obtain ⟨a, ha, hmerged⟩ := Option.bind_eq_some_iff.1 hmerged
  obtain ⟨b, hb, hmerged⟩ := Option.bind_eq_some_iff.1 hmerged
  obtain ⟨c, hc, hmerged⟩ := Option.map_eq_some_iff.1 hmerged
  obtain ⟨hconflicts, hkeys⟩ := Prod.mk.inj hmerged
  have hka : a.WellKept := Call.wellKept_readAll _ ha
  have hkb : b.WellKept := Call.wellKept_readAll _ hb
  have hkc : c.WellKept := Call.wellKept_readAll _ hc
  obtain ⟨hassoc, ⟨-, hself⟩, -⟩ := merge_laws hka hkb hkc
  exact ⟨a, b, c, ⟨ha, hb, hc⟩, ⟨hka, hkb, hkc⟩, hassoc, hself, hconflicts, hkeys⟩

end Node

end DeclDoc
