import DeclDoc.Proofs.Repetition

/-!
# Kinds that are left out

Leaving out kinds that hold no members (`Extraction.leavingOut`) opens and closes nothing, so all other
declarations stand where they stood (`Slot.acceptAll_leavingOut_eq`), and the nodes of those kinds are
all that is missing (`Store.without`). What does change is the group of a member: a marker is handed
out with the member right behind it, and goes unnoticed when that member is left out.
`Extraction.readSource_leavingOut` says so, and that nothing else is different.
-/

set_option autoImplicit false

namespace DeclDoc

/-! ## Extractions that leave out more -/

/-- The extraction with more kinds that it leaves out. -/
def Extraction.leavingOut (extraction : Extraction) (kinds : List Kind) : Extraction :=
  { extraction with settings := kinds.foldl Settings.ignoreKind extraction.settings }

namespace Settings

variable (settings : Settings) (kinds : List Kind)

theorem foldl_ignoreKind :
    kinds.foldl ignoreKind settings =
      { settings with ignoredKinds := settings.ignoredKinds ++ kinds } := by
  induction kinds generalizing settings with
  | nil => simp
  | cons kind rest ih => rw [List.foldl_cons, ih, ignoreKind, List.append_assoc]; rfl

theorem includesKind_foldl_ignoreKind (kind : Kind) :
    (kinds.foldl ignoreKind settings).includesKind kind =
      (settings.includesKind kind && !kinds.contains kind) := by
  rw [foldl_ignoreKind, includesKind, includesKind, List.contains_append, Bool.not_or]

end Settings

/-- Which entities a file has does not depend on what is left out. -/
theorem Extraction.entitiesOf_leavingOut (extraction : Extraction) (kinds : List Kind)
    (path : String) (source : List Char) :
    (extraction.leavingOut kinds).entitiesOf path source = extraction.entitiesOf path source := by
  unfold entitiesOf leavingOut
  rw [Settings.foldl_ignoreKind]
  rfl

/-! ## What is accepted -/

/-- An accepted entity, whichever group it is in. -/
def Accepted.ungrouped (accepted : Accepted) : Accepted :=
  { accepted with entity := { accepted.entity with group := none } }

namespace Slot

variable {settings : Settings} {comments : Comment.Reader} {kinds : List Kind} {slot other : Slot}
  {entity : Entity}

/-- Whether an entity is left out is all that changes for it. -/
theorem accept_foldl_ignoreKind (slot : Slot) (h : kinds.contains entity.kind = false) :
    slot.accept (kinds.foldl Settings.ignoreKind settings) comments entity =
      slot.accept settings comments entity := by
  unfold accept
  rw [Settings.includesKind_foldl_ignoreKind, h, Bool.not_false, Bool.and_true]

/-- What holds no members is left out without a trace. -/
theorem accept_of_leftOut (slot : Slot) (h : kinds.contains entity.kind = true)
    (hleaf : entity.kind.isContainer = false) :
    slot.accept (kinds.foldl Settings.ignoreKind settings) comments entity = (slot, none) := by
  unfold accept
  rw [Settings.includesKind_foldl_ignoreKind, h, Bool.not_true, Bool.and_false, Bool.not_false,
    if_pos rfl, slot.closeFor_of_leaf hleaf]

/-- Leaving out kinds that hold no members does to the rest what it does to a file in which they
are not declared. -/
theorem acceptAll_leavingOut_eq (hleaf : ∀ kind ∈ kinds, kind.isContainer = false) (slot : Slot)
    (entities : List Entity) :
    slot.acceptAll (kinds.foldl Settings.ignoreKind settings) comments entities =
      slot.acceptAll settings comments
        (entities.filter fun entity => !kinds.contains entity.kind) := by
  induction entities generalizing slot with
  | nil => rfl
  | cons entity rest ih =>
    cases hkind : kinds.contains entity.kind with
    | true =>
      rw [List.filter_cons_of_neg (by simpa using hkind), acceptAll,
        slot.accept_of_leftOut hkind (hleaf _ (List.contains_iff_mem.1 hkind))]
      exact ih slot
    | false =>
      rw [List.filter_cons_of_pos (by simpa using hkind), acceptAll, acceptAll,
        slot.accept_foldl_ignoreKind hkind, ih]

/-- The group that is open does not matter to where an entity goes, nor to what it opens. -/
theorem place_congr (h : slot.container = other.container) (entity : Entity)
    (comment : Option Comment) :
    (slot.place entity comment).1.container = (other.place entity comment).1.container ∧
      (slot.place entity comment).2.map Accepted.ungrouped =
        (other.place entity comment).2.map Accepted.ungrouped := by
  have htarget : slot.targetOf? entity = other.targetOf? entity := by rw [targetOf?, targetOf?, h]
  unfold place placeMember placeRoot
  rw [htarget]
  split
  · cases other.targetOf? entity with
    | none => exact ⟨h, rfl⟩
    | some target =>
      refine ⟨?_, rfl⟩
      dsimp only
      split <;> exact h
  split
  · exact ⟨rfl, rfl⟩
  split
  · exact ⟨h, rfl⟩
  · refine ⟨?_, rfl⟩
    dsimp only
    split
    · rfl
    · exact h

theorem closeFor_congr (h : slot.container = other.container) (kind : Kind) :
    (slot.closeFor kind).container = (other.closeFor kind).container := by
  unfold closeFor
  split
  · rfl
  · exact h

theorem accept_congr (h : slot.container = other.container) (entity : Entity) :
    (slot.accept settings comments entity).1.container =
        (other.accept settings comments entity).1.container ∧
      (slot.accept settings comments entity).2.map Accepted.ungrouped =
        (other.accept settings comments entity).2.map Accepted.ungrouped := by
  unfold accept
  split
  · exact ⟨closeFor_congr h _, rfl⟩
  split
  · exact place_congr h entity none
  · split
    · exact ⟨closeFor_congr h _, rfl⟩
    · exact place_congr h entity _

theorem accept_of_leaf (slot : Slot) (h : entity.kind.isContainer = false) :
    (slot.accept settings comments entity).1.container = slot.container ∧
      (¬entity.BeginsGroup → (slot.accept settings comments entity).1 = slot) := by
  unfold accept
  rw [slot.closeFor_of_leaf h]
  split
  · exact ⟨rfl, fun _ => rfl⟩
  split
  · exact slot.place_of_leaf none h
  · split
    · exact ⟨rfl, fun _ => rfl⟩
    · exact slot.place_of_leaf _ h

/-- What is accepted besides the kinds that are left out, seen through `view`, is what is accepted of
them anyway, if entities of those kinds keep a relation between slots to which they matter no more
than `view` shows. -/
theorem map_acceptAll_filter {β : Type} {view : Accepted → β} {R : Slot → Slot → Prop}
    (hkept : ∀ {slot other : Slot} (entity : Entity), R slot other →
      R (slot.accept settings comments entity).1 (other.accept settings comments entity).1 ∧
        (slot.accept settings comments entity).2.map view =
          (other.accept settings comments entity).2.map view)
    {entities : List Entity}
    (hout : ∀ entity ∈ entities, kinds.contains entity.kind = true → ∀ {slot other : Slot},
      R slot other → R slot (other.accept settings comments entity).1)
    (h : R slot other) :
    (slot.acceptAll settings comments
        (entities.filter fun entity => !kinds.contains entity.kind)).map view =
      ((other.acceptAll settings comments entities).filter
        fun a => !kinds.contains a.entity.kind).map view := by
  induction entities generalizing slot other with
  | nil => rfl
  | cons entity rest ih =>
    have hrest := fun e he => hout e (List.mem_cons_of_mem _ he)
    rw [acceptAll, List.filter_append, List.map_append]
    cases hkind : kinds.contains entity.kind with
    | true =>
      have hnone : (other.accept settings comments entity).2.toList.filter
          (fun a => !kinds.contains a.entity.kind) = [] := by
        refine List.filter_eq_nil_iff.2 fun a ha => ?_
        rw [kind_of_mem_accept (Option.mem_toList.1 ha), hkind]
        exact Bool.false_ne_true
      rw [List.filter_cons_of_neg (by simpa using hkind), hnone]
      exact ih hrest (hout entity List.mem_cons_self hkind h)
    | false =>
      obtain ⟨hnext, hsame⟩ := hkept entity h
      have hall : (other.accept settings comments entity).2.toList.filter
          (fun a => !kinds.contains a.entity.kind) =
            (other.accept settings comments entity).2.toList := by
        refine List.filter_eq_self.2 fun a ha => ?_
        rw [kind_of_mem_accept (Option.mem_toList.1 ha), hkind]
        rfl
      rw [List.filter_cons_of_pos (by simpa using hkind), acceptAll, List.map_append,
        ih hrest hnext, hall, ← Option.toList_map, ← Option.toList_map, hsame]

/-- But for their groups, entities are accepted as they are when nothing is left out. -/
theorem map_ungrouped_acceptAll (settings : Settings) (comments : Comment.Reader)
    (hleaf : ∀ kind ∈ kinds, kind.isContainer = false) (slot : Slot) (entities : List Entity) :
    (slot.acceptAll settings comments
        (entities.filter fun entity => !kinds.contains entity.kind)).map Accepted.ungrouped =
      ((slot.acceptAll settings comments entities).filter
        fun a => !kinds.contains a.entity.kind).map Accepted.ungrouped := by
  refine map_acceptAll_filter (R := fun s t => s.container = t.container)
    (fun entity h => accept_congr h entity) (fun entity _ hkind slot other h => ?_) rfl
  exact h.trans (other.accept_of_leaf (hleaf _ (List.contains_iff_mem.1 hkind))).1.symm

/-- They are in the same groups if no group begins at what is left out. -/
theorem acceptAll_filter (hleaf : ∀ kind ∈ kinds, kind.isContainer = false) (slot : Slot)
    {entities : List Entity}
    (hgroups : ∀ entity ∈ entities, kinds.contains entity.kind = true → ¬entity.BeginsGroup) :
    slot.acceptAll settings comments (entities.filter fun entity => !kinds.contains entity.kind) =
      (slot.acceptAll settings comments entities).filter fun a => !kinds.contains a.entity.kind := by
  rw [← List.map_id (slot.acceptAll ..), ← List.map_id (List.filter _ (slot.acceptAll ..))]
  refine map_acceptAll_filter (R := Eq) (fun entity h => ?_)
    (fun entity hmem hkind slot other h => ?_) rfl
  · rw [h]
    exact ⟨rfl, rfl⟩
  · exact h.trans ((other.accept_of_leaf (hleaf _ (List.contains_iff_mem.1 hkind))).2
      (hgroups entity hmem hkind)).symm

end Slot

/-! ## What the nodes say -/

namespace NodeInfo

/-- What is said, but for the group. -/
def ungrouped (info : NodeInfo) : NodeInfo := { info with group := none }

theorem map_ungrouped_gathered (declared : List NodeInfo) :
    (gathered declared).map ungrouped = gathered (declared.map ungrouped) := by
  induction declared using List.reverseRecOn with
  | nil => rfl
  | append_singleton front last ih =>
    rw [List.map_append, List.map_singleton, gathered_concat, gathered_concat, ← ih]
    cases gathered front <;> rfl

end NodeInfo

theorem Accepted.path_ungrouped (a : Accepted) : a.ungrouped.path = a.path := by
  unfold path ungrouped
  cases a.standing <;> rfl

theorem infosAt_map_ungrouped (accepted : List Accepted) (path : StorePath) :
    infosAt (accepted.map Accepted.ungrouped) path =
      (infosAt accepted path).map NodeInfo.ungrouped := by
  unfold infosAt
  rw [List.filter_map, List.map_map, List.map_map]
  have hsame : ((fun a => decide (a.path = path)) ∘ Accepted.ungrouped) =
      fun a : Accepted => decide (a.path = path) := by
    funext a
    rw [Function.comp_apply, a.path_ungrouped]
  rw [hsame]
  refine List.map_congr_left fun a _ => ?_
  obtain ⟨standing, entity, comment⟩ := a
  cases standing <;> rfl

/-! ## Stores without some kinds -/

mutual

/-- A node without the members of some kinds. -/
def Node.without (kinds : List Kind) : Node → Node
  | ⟨info, children⟩ => ⟨info, Node.childrenWithout kinds children⟩

def Node.childrenWithout (kinds : List Kind) : List (NodeKey × Node) → List (NodeKey × Node)
  | [] => []
  | (key, node) :: rest =>
    if kinds.contains node.info.kind then childrenWithout kinds rest
    else (key, node.without kinds) :: childrenWithout kinds rest

end

/-- The nodes of a map that are of none of some kinds, each without members of them. -/
def Node.entriesWithout {κ : Type} (kinds : List Kind) (map : List (κ × Node)) : List (κ × Node) :=
  (map.filter fun entry => !kinds.contains entry.2.info.kind).map
    fun entry => (entry.1, entry.2.without kinds)

/-- A store without all nodes of some kinds. -/
def Store.without (kinds : List Kind) (store : Store) : Store :=
  { store with
    roots := Node.entriesWithout kinds store.roots
    pending := Node.entriesWithout kinds store.pending }

namespace Node

variable {kinds : List Kind} {node : Node}

theorem info_without (kinds : List Kind) (node : Node) : (node.without kinds).info = node.info := by
  cases node
  rfl

theorem children_without (kinds : List Kind) (node : Node) :
    (node.without kinds).children = entriesWithout kinds node.children := by
  have hall : ∀ children, childrenWithout kinds children = entriesWithout kinds children := by
    intro children
    induction children with
    | nil => rfl
    | cons entry rest ih =>
      obtain ⟨key, child⟩ := entry
      unfold entriesWithout at ih ⊢
      rw [childrenWithout, ih, List.filter_cons]
      cases kinds.contains child.info.kind <;> rfl
  cases node
  exact hall _

theorem find?_entriesWithout {κ : Type} [Ord κ] [Std.TransOrd κ] [Std.LawfulEqOrd κ]
    (kinds : List Kind) (key : κ) {map : List (κ × Node)} (h : OrderedMap.Ascending map) :
    OrderedMap.find? key (entriesWithout kinds map) =
      ((OrderedMap.find? key map).filter fun node => !kinds.contains node.info.kind).map
        (without kinds) := by
  rw [entriesWithout, OrderedMap.find?_map (without kinds),
    OrderedMap.find?_filter (fun node : Node => !kinds.contains node.info.kind) key h]

theorem ascending_entriesWithout {κ : Type} [Ord κ] (kinds : List Kind) {map : List (κ × Node)}
    (h : OrderedMap.Ascending map) : OrderedMap.Ascending (entriesWithout kinds map) :=
  OrderedMap.ascending_map (without kinds) (h.filter _)

theorem Ordered.without (h : node.Ordered) (kinds : List Kind) : (node.without kinds).Ordered := by
  induction node using Node.inductionOn with
  | step node ih =>
    obtain ⟨hchildren, hall⟩ := ordered_iff.1 h
    rw [ordered_iff, children_without]
    refine ⟨ascending_entriesWithout kinds hchildren, fun key child hchild => ?_⟩
    rw [find?_entriesWithout kinds key hchildren, Option.map_eq_some_iff] at hchild
    obtain ⟨before, hbefore, rfl⟩ := hchild
    have hfind := (Option.filter_eq_some_iff.1 hbefore).1
    exact ih key before (OrderedMap.mem_of_find? hfind) (hall key before hfind)

theorem kind_info (node : Node) : node.info.kind = node.key.kind :=
  (NodeKey.kind_ofDeclaration ..).symm

/-- Where keys tell kinds, all is said below a node that was said there, but where the way leads over
a node that is removed. -/
theorem Keyed.infoAt?_without (h : node.Keyed) (kinds : List Kind) (trail : List NodeKey) :
    (node.without kinds).infoAt? trail =
      if trail.any fun key => kinds.contains key.kind then none else node.infoAt? trail := by
  induction trail generalizing node with
  | nil => rw [infoAt?_nil, info_without]; rfl
  | cons key trail ih =>
    obtain ⟨hchildren, hall⟩ := keyed_iff.1 h
    rw [infoAt?_cons, infoAt?_cons, children_without, find?_entriesWithout kinds key hchildren,
      List.any_cons]
    cases hfind : OrderedMap.find? key node.children with
    | none => simp
    | some child =>
      obtain ⟨rfl, hchild⟩ := hall key child hfind
      rw [Option.filter_some, kind_info]
      cases kinds.contains child.key.kind with
      | true => rfl
      | false => exact ih hchild

end Node

/-- The kinds of the nodes on the way to a path's end. -/
def StorePath.kinds (path : StorePath) : List Kind :=
  path.start.key.kind :: path.trail.map NodeKey.kind

namespace Store

variable {store after : Store} {accepted : List Accepted} {kinds : List Kind}

theorem container?_without (h : store.Ordered) (kinds : List Kind) (start : ContainerRef) :
    (store.without kinds).container? start =
      ((store.container? start).filter fun node => !kinds.contains node.info.kind).map
        (Node.without kinds) := by
  cases start with
  | root key => exact Node.find?_entriesWithout kinds key h.roots
  | pending key => exact Node.find?_entriesWithout kinds key h.pending

theorem Ordered.without (h : store.Ordered) (kinds : List Kind) :
    (store.without kinds).Ordered where
  roots := Node.ascending_entriesWithout kinds h.roots
  pending := Node.ascending_entriesWithout kinds h.pending
  below start node hnode := by
    rw [container?_without h, Option.map_eq_some_iff] at hnode
    obtain ⟨before, hbefore, rfl⟩ := hnode
    exact (h.below start before (Option.filter_eq_some_iff.1 hbefore).1).without kinds

/-- Where keys tell kinds, all is said that was said but where the way leads over a node that is
removed. -/
theorem Keyed.infoAt?_without (h : store.Keyed) (kinds : List Kind) (path : StorePath) :
    (store.without kinds).infoAt? path =
      if path.kinds.any kinds.contains then none else store.infoAt? path := by
  obtain ⟨start, trail⟩ := path
  rw [infoAt?, infoAt?, container?_without h.ordered, StorePath.kinds, List.any_cons, List.any_map]
  cases hstart : store.container? start with
  | none => simp
  | some node =>
    obtain ⟨hkey, hnode⟩ := h.container? hstart
    rw [Option.filter_some, node.kind_info, hkey]
    cases kinds.contains start.key.kind with
    | true => rfl
    | false => exact hnode.infoAt?_without kinds trail

/-- A member stands in a container of a kind that takes it. -/
theorem TakesAll.accepts (h : store.TakesAll accepted after) {a : Accepted} (ha : a ∈ accepted)
    {container : ContainerRef} (hstanding : a.standing = .member container) :
    container.key.kind.accepts a.entity.kind = true := by
  induction h with
  | nil => cases ha
  | snoc _ hlast ih =>
    rcases List.mem_append.1 ha with ha | ha
    · exact ih ha
    · cases List.mem_singleton.1 ha
      exact (hlast.housed container hstanding).1
  | said _ _ ih => exact ih ha

end Store

/-- The way to an accepted entity leads over nodes of its kind and of kinds that hold members. -/
theorem Accepted.kinds_path {store after : Store} {accepted : List Accepted}
    (h : store.TakesAll accepted after) {a : Accepted} (ha : a ∈ accepted) {kind : Kind}
    (hkind : kind ∈ a.path.kinds) : kind = a.entity.kind ∨ kind.isContainer = true := by
  have hkey : a.entity.key.kind = a.entity.kind := NodeKey.kind_ofDeclaration ..
  unfold path at hkind
  split at hkind
  · exact .inl ((List.mem_singleton.1 hkind).trans hkey)
  · exact .inl ((List.mem_singleton.1 hkind).trans hkey)
  · next container hstanding =>
    rcases List.mem_cons.1 hkind with rfl | hkind
    · exact .inr (Kind.isMember_of_accepts (h.accepts ha hstanding)).2
    · exact .inl ((List.mem_singleton.1 hkind).trans hkey)

theorem Accepted.kind_mem_kinds_path (a : Accepted) : a.entity.kind ∈ a.path.kinds := by
  have hkey : a.entity.key.kind = a.entity.kind := NodeKey.kind_ofDeclaration ..
  rw [← hkey]
  unfold path
  split
  · exact List.mem_cons_self
  · exact List.mem_cons_self
  · exact List.mem_cons_of_mem _ List.mem_cons_self

/-- What was accepted besides some kinds says what all that was accepted says, but where the way leads
over a node of these kinds. -/
theorem infosAt_filter_kinds {store after : Store} {accepted : List Accepted}
    (h : store.TakesAll accepted after) {kinds : List Kind}
    (hleaf : ∀ kind ∈ kinds, kind.isContainer = false) (path : StorePath) :
    infosAt (accepted.filter fun a => !kinds.contains a.entity.kind) path =
      if path.kinds.any kinds.contains then [] else infosAt accepted path := by
  unfold infosAt
  rw [List.filter_filter]
  split
  · next hremoved =>
    obtain ⟨kind, hmem, hkind⟩ := List.any_eq_true.1 hremoved
    rw [List.filter_eq_nil_iff.2, List.map_nil]
    intro a ha hkept
    rw [Bool.and_eq_true, decide_eq_true_eq, Bool.not_eq_true'] at hkept
    obtain ⟨rfl, hkept⟩ := hkept
    rcases Accepted.kinds_path h ha hmem with rfl | hcontainer
    · rw [hkind] at hkept
      cases hkept
    · rw [hleaf kind (List.contains_iff_mem.1 hkind)] at hcontainer
      cases hcontainer
  · next hkept =>
    refine congrArg (List.map Accepted.info) (List.filter_congr fun a _ => ?_)
    by_cases hpath : a.path = path
    · subst hpath
      have hkind : kinds.contains a.entity.kind = false := by
        by_contra hkind
        exact hkept (List.any_eq_true.2
          ⟨_, a.kind_mem_kinds_path, Bool.of_not_eq_false hkind⟩)
      rw [hkind, Bool.not_false, Bool.and_true]
    · rw [decide_eq_false hpath, Bool.false_and]

namespace Extraction

/-- A file is read with kinds left out that hold no members. The store takes what would be accepted if
nothing of these kinds were declared. It has exactly the nodes of the store that takes all, but those
of these kinds, and each of them says the same but for its group. Groups are the same as well, and so
all roots and all that waits, if no group begins at an entity that is left out. -/
theorem readSource_leavingOut (extraction : Extraction) {kinds : List Kind}
    (hleaf : ∀ kind ∈ kinds, kind.isContainer = false) (path : String) (source : List Char) :
    let entities := extraction.entitiesOf path source
    let rest := ((extraction.leavingOut kinds).readSource {} path source).store
    let all := (extraction.readSource {} path source).store.without kinds
    Store.TakesAll {} (Slot.acceptAll extraction.settings extraction.dialect {}
        (entities.filter fun entity => !kinds.contains entity.kind)) rest ∧
      rest.Matches (fun a b => a.ungrouped = b.ungrouped) all ∧
      ((∀ entity ∈ entities, kinds.contains entity.kind = true → ¬entity.BeginsGroup) →
        rest.roots = all.roots ∧ rest.pending = all.pending) := by
  intro entities rest all
  have hempty : Store.Keyed {} := Store.Holds.empty.keyed
  have hall := (extraction.readSource_takes hempty path source).1
  have hrest := ((extraction.leavingOut kinds).readSource_takes hempty path source).1
  have hkeyed := hall.keyed hempty
  have hout : (extraction.leavingOut kinds).acceptedOf path source =
      Slot.acceptAll extraction.settings extraction.dialect {}
        (entities.filter fun entity => !kinds.contains entity.kind) := by
    rw [acceptedOf, entitiesOf_leavingOut]
    exact Slot.acceptAll_leavingOut_eq hleaf {} entities
  rw [hout] at hrest
  have hinfo : ∀ place, all.infoAt? place = NodeInfo.gathered (infosAt
      ((extraction.acceptedOf path source).filter fun a => !kinds.contains a.entity.kind)
      place) := by
    intro place
    rw [hkeyed.infoAt?_without, infosAt_filter_kinds hall hleaf, hall.infoAt?_eq]
    split <;> rfl
  refine ⟨hrest, fun place => ?_, fun hgroups => ?_⟩
  · have hsame := Slot.map_ungrouped_acceptAll extraction.settings extraction.dialect hleaf {} entities
    have hmap : (rest.infoAt? place).map NodeInfo.ungrouped =
        (all.infoAt? place).map NodeInfo.ungrouped := by
      rw [hrest.infoAt?_eq, hinfo, NodeInfo.map_ungrouped_gathered,
        NodeInfo.map_ungrouped_gathered, ← infosAt_map_ungrouped, ← infosAt_map_ungrouped, hsame]
      rfl
    cases ha : rest.infoAt? place <;> cases hb : all.infoAt? place <;> rw [ha, hb] at hmap
    · exact .none
    · cases hmap
    · cases hmap
    · exact .some (Option.some.inj hmap)
  · refine Store.eq_of_infoAt?_eq (hrest.keyed hempty).ordered (hkeyed.ordered.without kinds)
      fun place => ?_
    rw [hrest.infoAt?_eq, hinfo, Slot.acceptAll_filter hleaf {} hgroups]
    rfl

/-- A method that is left out, with a marker before it. -/
def markedMethod : List Char := "@interface C\n/// @name G\n- (void)m;\n@property int x;\n@end".toList

theorem readSource_leavingOut_method :
    let place : StorePath := ⟨.root ⟨.interface, "C"⟩, [⟨.property, "x"⟩]⟩
    let rest := ((({} : Extraction).leavingOut [.method]).readSource {} "A.h" markedMethod).store
    let all := ((({} : Extraction).readSource {} "A.h" markedMethod).store.without [.method])
    (∀ kind ∈ [Kind.method], kind.isContainer = false) ∧
      rest.Matches (fun a b => a.ungrouped = b.ungrouped) all ∧
      (rest.infoAt? place).map NodeInfo.group = some none ∧
      (all.infoAt? place).map NodeInfo.group = some (some "G") ∧
      rest.roots ≠ all.roots := by
  have hleaf : ∀ kind ∈ [Kind.method], kind.isContainer = false := by decide
  obtain ⟨-, hmatches, -⟩ := readSource_leavingOut {} hleaf "A.h" markedMethod
  intro place rest all
  have hrest : (rest.infoAt? place).map NodeInfo.group = some none := by decide +kernel
  have hall : (all.infoAt? place).map NodeInfo.group = some (some "G") := by decide +kernel
  refine ⟨hleaf, hmatches, hrest, hall, fun hroots => ?_⟩
  have hsame : rest.infoAt? place = all.infoAt? place := by
    show (OrderedMap.find? _ rest.roots).bind _ = (OrderedMap.find? _ all.roots).bind _
    rw [hroots]
  rw [hsame, hall] at hrest
  cases hrest

end Extraction

end DeclDoc
