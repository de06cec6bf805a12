import DeclDoc.Proofs.Nesting
import DeclDoc.Proofs.Stranding
import Mathlib.Data.List.TakeWhile

/-!
# Where the declarations of a source go

Cursors of the shapes that a source nests go to spots that can be told from the cursors alone
(`Cursor.spots`): a container to its own path, its members below it, the values of a named enumeration
below that. But a named enumeration among the members of a container opens in its place, and the
members behind it are stranded (`Cursor.stranded`).

`Leads file container stack spots strandings container' stack'`: from this open container and these
visits on a walk leads to those, and in between entities go to these spots and are stranded.
`Slot.spots_entitiesFrom` puts the steps together for a whole source.
-/

set_option autoImplicit false

namespace DeclDoc

namespace Cursor

/-! ## Where cursors go -/

/-- A named enumeration. -/
def isNamedEnum (cursor : Cursor) : Bool := cursor.kind == .enumeration && cursor.spelling != ""

/-- The kind of entity that a cursor declares outside of unnamed enumerations. -/
def declaredKind (cursor : Cursor) : Kind := (cursor.entityKind? false).getD .unknown

def key (cursor : Cursor) : NodeKey :=
  .ofDeclaration cursor.declaredKind cursor.spelling cursor.flavor?

/-- The node of a container. -/
def ref (cursor : Cursor) : ContainerRef :=
  if isCategoryKind cursor.kind then .pending ⟨cursor.detail.baseClass.getD "", cursor.key⟩
  else .root cursor.key

/-- The container that a cursor opens. -/
def opened (cursor : Cursor) : OpenContainer := ⟨cursor.ref, cursor.declaredKind, cursor.spelling⟩

/-- What its members say of a container. -/
def asParent (file : SourceFile) (cursor : Cursor) : ParentRef :=
  ⟨cursor.declaredKind, cursor.spelling, cursor.locationIn file⟩

/-- What is said of a member that is stranded. -/
def stranding (file : SourceFile) (cursor : Cursor) : Diagnostic where
  severity := .warning
  location := some (cursor.locationIn file)
  message := cursor.declaredKind.name ++ " " ++ cursor.spelling ++ " has no enclosing container"

/-- A cursor at a path. -/
def spotAt (file : SourceFile) (path : StorePath) (cursor : Cursor) : StorePath × Location :=
  (path, cursor.locationIn file)

/-- Where a plain declaration goes, and the values of an enumeration. -/
def plainSpots (file : SourceFile) (cursor : Cursor) : List (StorePath × Location) :=
  if cursor.kind = .enumeration then
    if cursor.spelling = "" then
      cursor.children.map fun value =>
        value.spotAt file ⟨.root ⟨.constant, value.spelling⟩, []⟩
    else
      cursor.spotAt file ⟨cursor.ref, []⟩ ::
        cursor.children.map fun value => value.spotAt file ⟨cursor.ref, [value.key]⟩
  else [cursor.spotAt file ⟨cursor.ref, []⟩]

/-- Where the members and the plain declarations in a container go while `container` is open. -/
def heldSpots (file : SourceFile) (container : Option ContainerRef) :
    List Cursor → List (StorePath × Location)
  | [] => []
  | cursor :: rest =>
    (if cursor.isMember then
        (container.map fun ref => cursor.spotAt file ⟨ref, [cursor.key]⟩).toList
      else cursor.plainSpots file) ++
    heldSpots file (if cursor.isNamedEnum then none else container) rest

/-- The members behind a named enumeration. -/
def stranded (held : List Cursor) : List Cursor :=
  (held.dropWhile fun cursor => !cursor.isNamedEnum).filter isMember

/-- Where a declaration at the top of a source goes, and what is in it. -/
def spots (file : SourceFile) (cursor : Cursor) : List (StorePath × Location) :=
  if isContainerKind cursor.kind then
    cursor.spotAt file ⟨cursor.ref, []⟩ :: heldSpots file (some cursor.ref) cursor.children
  else cursor.plainSpots file

/-- What is said of the members of a declaration at the top of a source. -/
def strandings (file : SourceFile) (cursor : Cursor) : List Diagnostic :=
  if isContainerKind cursor.kind then (stranded cursor.children).map (stranding file) else []

theorem entityKind?_of_isPlainKind {cursor : Cursor} (h : isPlainKind cursor.kind = true) :
    cursor.entityKind? false = some cursor.declaredKind ∧ cursor.declaredKind.isMember = false ∧
      cursor.declaredKind.isContainer = false ∧ cursor.declaredKind ≠ .unknown := by
  unfold declaredKind entityKind?
  cases hk : cursor.kind <;> rw [hk] at h <;>
    first | exact absurd h (by decide) | exact ⟨rfl, rfl, rfl, nofun⟩

theorem entityKind?_of_isMember {cursor : Cursor} (h : cursor.isMember = true) :
    cursor.entityKind? false = some cursor.declaredKind ∧ cursor.isNamedEnum = false ∧
      (cursor.declaredKind = .method ∨ cursor.declaredKind = .property) := by
  unfold isMember at h
  unfold declaredKind entityKind? isNamedEnum
  cases hk : cursor.kind <;> rw [hk] at h <;> first | exact absurd h (by decide) | simp

theorem isMember_declaredKind {cursor : Cursor} (h : cursor.isMember = true) :
    cursor.declaredKind.isMember = true := by
  obtain ⟨-, -, hmethod | hproperty⟩ := entityKind?_of_isMember h
  · rw [hmethod]
    rfl
  · rw [hproperty]
    rfl

/-- Containers accept all members or none. -/
theorem accepts_declaredKind {cursor : Cursor} (h : cursor.isMember = true) (container : Kind) :
    container.accepts cursor.declaredKind = container.accepts .method := by
  obtain ⟨-, -, hmethod | hproperty⟩ := entityKind?_of_isMember h
  · rw [hmethod]
  · rw [hproperty]
    rfl

theorem entityKind?_of_isContainerKind {cursor : Cursor} (h : isContainerKind cursor.kind = true) :
    cursor.entityKind? false = some cursor.declaredKind ∧ cursor.declaredKind.isMember = false ∧
      cursor.declaredKind.isContainer = true ∧ cursor.declaredKind ≠ .enumeration ∧
      (cursor.declaredKind.isCategoryLike = true ↔ isCategoryKind cursor.kind = true) := by
  unfold declaredKind entityKind?
  cases hk : cursor.kind <;> rw [hk] at h <;>
    first
    | exact absurd h (by decide)
    | by_cases hs : cursor.spelling = "" <;> simp [hs] <;> decide

theorem ref_of_not_isCategoryKind {cursor : Cursor} (h : isCategoryKind cursor.kind = false) :
    cursor.ref = .root cursor.key := by
  rw [ref, h, if_neg Bool.false_ne_true]

theorem isMember_of_isPlain {cursor : Cursor} (h : cursor.IsPlain) : cursor.isMember = false := by
  unfold isMember
  rcases h with ⟨hk, -⟩ | ⟨hk, -⟩
  · rw [hk]
  · cases hc : cursor.kind <;> rw [hc] at hk <;> first | rfl | cases hk

theorem isNamedEnum_iff {cursor : Cursor} :
    cursor.isNamedEnum = true ↔ cursor.kind = .enumeration ∧ cursor.spelling ≠ "" := by
  simp [isNamedEnum]

theorem opened_of_isNamedEnum {cursor : Cursor} (h : cursor.isNamedEnum = true) :
    cursor.opened.kind = .enumeration := by
  obtain ⟨hkind, hspelling⟩ := isNamedEnum_iff.1 h
  simp [opened, declaredKind, entityKind?, hkind, hspelling]

variable {file : SourceFile} {ref : ContainerRef} {held front back : List Cursor} {cursor : Cursor}

/-- A member goes into its container where no named enumeration stands before it. -/
theorem mem_heldSpots_of_member (hmember : cursor.isMember = true)
    (hfront : front.any isNamedEnum = false) :
    cursor.spotAt file ⟨ref, [cursor.key]⟩ ∈
      heldSpots file (some ref) (front ++ cursor :: back) := by
  induction front with
  | nil =>
    rw [List.nil_append, heldSpots, if_pos hmember]
    exact List.mem_append_left _ (List.mem_singleton.2 rfl)
  | cons first more ih =>
    rw [List.any_cons, Bool.or_eq_false_iff] at hfront
    rw [List.cons_append, heldSpots, hfront.1]
    exact List.mem_append_right _ (ih hfront.2)

/-- A member is stranded where a named enumeration stands before it. -/
theorem mem_stranded_of_member (hmember : cursor.isMember = true)
    (hfront : front.any isNamedEnum = true) : cursor ∈ stranded (front ++ cursor :: back) := by
  induction front with
  | nil => cases hfront
  | cons first more ih =>
    rw [List.cons_append, stranded]
    by_cases hfirst : first.isNamedEnum = true
    · rw [List.dropWhile_cons_of_neg (by simp [hfirst])]
      exact List.mem_filter.2 ⟨by simp, hmember⟩
    · rw [List.dropWhile_cons_of_pos (by simpa using hfirst)]
      rw [List.any_cons, Bool.eq_false_iff.2 hfirst, Bool.false_or] at hfront
      exact ih hfront

theorem not_isNamedEnum_of_values (h : ∀ value ∈ held, value.IsValue) :
    held.any isNamedEnum = false := by
  rw [List.any_eq_false]
  intro value hvalue
  simp [isNamedEnum, (h value hvalue).kind]

/-- A plain declaration goes where it does, wherever it stands in a container. -/
theorem plainSpots_subset_heldSpots (hc : cursor ∈ held) (hplain : cursor.isMember = false)
    (container : Option ContainerRef) :
    ∀ spot ∈ cursor.plainSpots file, spot ∈ heldSpots file container held := by
  induction held generalizing container with
  | nil => cases hc
  | cons first more ih =>
    intro spot hspot
    rw [heldSpots]
    rcases List.mem_cons.1 hc with rfl | hc
    · rw [hplain, if_neg Bool.false_ne_true]
      exact List.mem_append_left _ hspot
    · exact List.mem_append_right _ (ih hc _ spot hspot)

theorem isNamedEnum_of_isMember (h : cursor.isMember = true) : cursor.isNamedEnum = false :=
  (entityKind?_of_isMember h).2.1

/-- Members go into the container that they stand in. -/
theorem heldSpots_of_isMember (h : ∀ member ∈ held, member.isMember = true) (ref : ContainerRef) :
    heldSpots file (some ref) held =
      held.map fun member => member.spotAt file ⟨ref, [member.key]⟩ := by
  induction held with
  | nil => rfl
  | cons member held ih =>
    obtain ⟨hmember, hheld⟩ := List.forall_mem_cons.1 h
    rw [heldSpots, if_pos hmember, isNamedEnum_of_isMember hmember, if_neg Bool.false_ne_true,
      ih hheld]
    rfl

theorem stranded_of_isMember (h : ∀ member ∈ held, member.isMember = true) :
    stranded held = [] := by
  have hdrop : held.dropWhile (fun member => !member.isNamedEnum) = [] := by
    rw [List.dropWhile_eq_nil_iff]
    intro member hmember
    rw [isNamedEnum_of_isMember (h member hmember)]
    rfl
  rw [stranded, hdrop]
  rfl

/-- A named enumeration of a source holds values, and they go into it. -/
theorem IsTop.namedEnum_of_mem (file : SourceFile) {cursors : List Cursor}
    (h : ∀ top ∈ cursors, top.IsTop)
    (hc : cursor ∈ preorderAll cursors) (hnamed : cursor.isNamedEnum = true) :
    (∀ value ∈ cursor.children, value.IsValue) ∧
      ∀ spot ∈ cursor.plainSpots file, spot ∈ cursors.flatMap (spots file) := by
  have hkind := (isNamedEnum_iff.1 hnamed).1
  rcases IsTop.of_mem h hc with htop | ⟨top, htop, hcontainer, hheld⟩ | hvalue
  · rcases h cursor htop with hcontainer | hplain
    · have := hcontainer.kind
      rw [hkind] at this
      cases this
    · refine ⟨hplain.values hkind, fun spot hspot => List.mem_flatMap.2 ⟨cursor, htop, ?_⟩⟩
      rwa [spots, hplain.not_isContainerKind, if_neg Bool.false_ne_true]
  · rcases hcontainer.held cursor hheld with ⟨hmember, -⟩ | hplain
    · rw [isMember, hkind] at hmember
      cases hmember
    · refine ⟨hplain.values hkind, fun spot hspot => List.mem_flatMap.2 ⟨top, htop, ?_⟩⟩
      rw [spots, if_pos hcontainer.kind]
      exact List.mem_cons_of_mem _
        (plainSpots_subset_heldSpots hheld (isMember_of_isPlain hplain) _ spot hspot)
  · have := hvalue.kind
    rw [hkind] at this
    cases this

/-- A member has its spot in its container, or it is stranded there behind a named enumeration. -/
theorem IsTop.spot_of_member (file : SourceFile) {cursors : List Cursor}
    (h : ∀ top ∈ cursors, top.IsTop) {owner : Cursor} (ho : owner ∈ preorderAll cursors)
    (howner : isContainerKind owner.kind = true ∨ owner.isNamedEnum = true)
    (hchildren : owner.children = front ++ cursor :: back)
    (hmember : cursor.isMember = true ∨ cursor.kind = .enumerator) :
    if front.any isNamedEnum then
      isContainerKind owner.kind = true ∧ cursor ∈ stranded owner.children
    else cursor.spotAt file ⟨owner.ref, [cursor.key]⟩ ∈ cursors.flatMap (spots file) := by
  have hmem : cursor ∈ owner.children := hchildren ▸ List.mem_append_right _ List.mem_cons_self
  rcases howner with hkind | hnamed
  · obtain ⟨htop, hcontainer⟩ := IsTop.container_of_mem h ho hkind
    have hheld := hmember.resolve_right (hcontainer.held cursor hmem).spec.2
    split
    · next hfront => exact ⟨hkind, hchildren ▸ mem_stranded_of_member hheld hfront⟩
    · next hfront =>
      refine List.mem_flatMap.2 ⟨owner, htop, ?_⟩
      rw [spots, if_pos hkind, hchildren]
      exact List.mem_cons_of_mem _ (mem_heldSpots_of_member hheld (Bool.eq_false_iff.2 hfront))
  · obtain ⟨hkind, hspelling⟩ := isNamedEnum_iff.1 hnamed
    obtain ⟨hvalues, hspots⟩ := IsTop.namedEnum_of_mem file h ho hnamed
    rw [hchildren] at hvalues
    rw [not_isNamedEnum_of_values fun value hv => hvalues value (List.mem_append_left _ hv),
      if_neg Bool.false_ne_true]
    refine hspots _ ?_
    rw [plainSpots, if_pos hkind, if_neg hspelling]
    exact List.mem_cons_of_mem _ (List.mem_map_of_mem hmem)

/-- What is said of a source is said of the members behind named enumerations in its containers. -/
theorem mem_strandings_iff {cursors : List Cursor} (h : ∀ top ∈ cursors, top.IsTop)
    {d : Diagnostic} :
    d ∈ cursors.flatMap (strandings file) ↔ ∃ c ∈ preorderAll cursors, isContainerKind c.kind = true ∧
      ∃ m ∈ stranded c.children, d = m.stranding file := by
  rw [List.mem_flatMap]
  constructor
  · rintro ⟨c, hc, hd⟩
    rw [strandings] at hd
    split at hd
    · next hkind =>
      obtain ⟨m, hm, rfl⟩ := List.mem_map.1 hd
      exact ⟨c, mem_preorderAll hc, hkind, m, hm, rfl⟩
    · cases hd
  · rintro ⟨c, hc, hkind, m, hm, rfl⟩
    refine ⟨c, (IsTop.container_of_mem h hc hkind).1, ?_⟩
    rw [strandings, if_pos hkind]
    exact List.mem_map_of_mem hm

theorem isStranding_stranding {m : Cursor} (h : m ∈ stranded held) :
    (m.stranding file).IsStranding := by
  obtain ⟨-, -, hdeclared⟩ := entityKind?_of_isMember (List.mem_filter.1 h).2
  refine ⟨m.declaredKind, m.spelling, ?_, rfl⟩
  rcases hdeclared with hk | hk <;> rw [hk] <;> rfl

end Cursor

/-! ## Walks with an open container -/

open Walk (entitiesFrom childVisits memberVisits)

/-- Members hold nothing. -/
theorem memberVisits_of_isMember {entity : Entity} {cursor : Cursor}
    (h : entity.kind.isMember = true) : memberVisits entity cursor = [] := by
  have hcontainer : entity.kind.isContainer = false := by
    cases hk : entity.kind <;> rw [hk] at h <;> first | rfl | cases h
  rw [memberVisits, hcontainer, if_neg Bool.false_ne_true]

/-- What stands in a container knows it, if it is a member. -/
theorem Walk.parent_entity (file : SourceFile) (groupFrom : Nat) (cursor : Cursor)
    (parent : Option ParentRef) {kind : Kind} (h : kind.isMember = true) :
    (entity file groupFrom ⟨cursor, parent, false⟩ kind).parent = parent := by
  show (if false || isNestedRoot ⟨cursor, parent, false⟩ kind then none else parent) = parent
  rw [isNestedRoot, h, Bool.not_true, Bool.and_false, Bool.or_false, if_neg Bool.false_ne_true]

namespace Slot

variable {slot : Slot} {container : OpenContainer} {entity : Entity}

/-- A member that knows the open container belongs to it. -/
theorem targetOf?_eq_some {ref : ParentRef} (hopen : slot.container = some container)
    (haccepts : container.kind.accepts entity.kind = true) (hparent : entity.parent = some ref)
    (hkind : ref.kind = container.kind) (hname : ref.name = container.name) :
    slot.targetOf? entity = some container.target := by
  simp [targetOf?, hopen, haccepts, hparent, hkind, hname]

/-- A member that the open container does not accept belongs nowhere. -/
theorem targetOf?_eq_none (hopen : slot.container = some container)
    (haccepts : container.kind.accepts entity.kind = false) : slot.targetOf? entity = none := by
  simp [targetOf?, hopen, haccepts]

end Slot

/-- A walk that stands at these visits with this container open comes to those with that one, and what it
hands out in between goes to these spots or is stranded. -/
def Leads (file : SourceFile) (container : Option OpenContainer) (stack : List Visit)
    (spots : List (StorePath × Location)) (strandings : List Diagnostic)
    (container' : Option OpenContainer) (stack' : List Visit) : Prop :=
  ∀ (slot : Slot) (groupFrom : Nat), slot.container = container →
    ∃ (entities : List Entity) (slot' : Slot) (groupFrom' : Nat), slot'.container = container' ∧
      entitiesFrom file groupFrom stack = entities ++ entitiesFrom file groupFrom' stack' ∧
      entities.length = spots.length + strandings.length ∧
      ∀ more, slot.spots (entities ++ more) = spots ++ slot'.spots more ∧
        slot.strandings (entities ++ more) = strandings ++ slot'.strandings more

namespace Leads

variable {file : SourceFile} {c c' c'' : Option OpenContainer} {stack stack' stack'' : List Visit}
  {spots spots' : List (StorePath × Location)} {strandings strandings' : List Diagnostic}

theorem refl (file : SourceFile) (c : Option OpenContainer) (stack : List Visit) :
    Leads file c stack [] [] c stack := fun slot groupFrom hslot =>
  ⟨[], slot, groupFrom, hslot, rfl, rfl, fun _ => ⟨rfl, rfl⟩⟩

theorem trans (h : Leads file c stack spots strandings c' stack')
    (h' : Leads file c' stack' spots' strandings' c'' stack'') :
    Leads file c stack (spots ++ spots') (strandings ++ strandings') c'' stack'' := by
  intro slot groupFrom hslot
  obtain ⟨entities, slot', groupFrom', hslot', hentities, hlen, hmore⟩ := h slot groupFrom hslot
  obtain ⟨others, slot'', groupFrom'', hslot'', hothers, hlen', hmore'⟩ := h' slot' groupFrom' hslot'
  refine ⟨entities ++ others, slot'', groupFrom'', hslot'', ?_, ?_, ?_⟩
  · rw [hentities, hothers, List.append_assoc]
  · simp only [List.length_append, hlen, hlen']
    omega
  · intro more
    rw [List.append_assoc, (hmore _).1, (hmore _).2, (hmore' _).1, (hmore' _).2, List.append_assoc,
      List.append_assoc]
    exact ⟨rfl, rfl⟩

variable {visit : Visit} {rest : List Visit} {kind : Kind}

/-- A cursor that is no entity leads to what is below it. -/
theorem pass (hkind : visit.cursor.kind ≠ .compoundStatement)
    (hnone : visit.cursor.entityKind? visit.inUnnamedEnum = none) :
    Leads file c (visit :: rest) [] [] c
      (childVisits visit.cursor visit.parent (visit.cursor.kind == .enumeration) ++ rest) := by
  intro slot groupFrom hslot
  refine ⟨[], slot, groupFrom, hslot, ?_, rfl, fun _ => ⟨rfl, rfl⟩⟩
  rw [entitiesFrom, if_neg hkind, hnone]
  rfl

/-- A cursor that is an entity goes to a spot or is stranded. -/
theorem one (hkind : visit.cursor.entityKind? visit.inUnnamedEnum = some kind)
    (hcount : spots.length + strandings.length = 1)
    (hplace : ∀ (slot : Slot) (groupFrom : Nat), slot.container = c →
      let found := Walk.entity file groupFrom visit kind
      (slot.next found).container = c' ∧
        ((slot.place found none).2.map Accepted.spot).toList = spots ∧
        (slot.strandingOf found).toList = strandings ∧
        memberVisits found visit.cursor ++ rest = stack') :
    Leads file c (visit :: rest) spots strandings c' stack' := by
  intro slot groupFrom hslot
  obtain ⟨hnext, hspots, hstrandings, hstack⟩ := hplace slot groupFrom hslot
  have hcompound : visit.cursor.kind ≠ .compoundStatement := by
    intro h
    rw [Cursor.entityKind?, h] at hkind
    cases hkind
  refine ⟨[Walk.entity file groupFrom visit kind], _,
    if Walk.isNestedRoot visit kind then groupFrom else visit.cursor.offset, hnext, ?_, hcount.symm,
    fun more => ?_⟩
  · rw [entitiesFrom, if_neg hcompound, hkind]
    dsimp only
    rw [hstack]
    rfl
  · rw [List.singleton_append, Slot.spots, Slot.strandings, hspots, hstrandings]
    exact ⟨rfl, rfl⟩

variable {cursor : Cursor} {parent : Option ParentRef} {inUnnamedEnum : Bool}

/-- A declaration at the root; a container opens. -/
theorem root (hkind : cursor.entityKind? inUnnamedEnum = some kind) (hmember : kind.isMember = false)
    (hlike : kind.isCategoryLike = false) (hunknown : kind ≠ .unknown) :
    Leads file c (⟨cursor, parent, inUnnamedEnum⟩ :: rest)
      [cursor.spotAt file ⟨.root (.ofDeclaration kind cursor.spelling cursor.flavor?), []⟩] []
      (if kind.isContainer then
        some ⟨.root (.ofDeclaration kind cursor.spelling cursor.flavor?), kind, cursor.spelling⟩
      else c)
      ((if kind.isContainer then
        childVisits cursor (some ⟨kind, cursor.spelling, cursor.locationIn file⟩) false
      else []) ++ rest) := by
  apply one hkind rfl
  intro slot groupFrom hslot found
  have hplace : slot.place found none = slot.placeRoot found none := by
    have hmember : found.kind.isMember = false := hmember
    have hlike : found.kind.isCategoryLike = false := hlike
    have hunknown : found.kind ≠ .unknown := hunknown
    simp only [Slot.place, hmember, hlike, hunknown, Bool.false_eq_true, if_false]
  have hstranding : slot.strandingOf found = none := by
    have hmember : found.kind.isMember = false := hmember
    simp only [Slot.strandingOf, hmember, Bool.false_and, Bool.false_eq_true, if_false]
  refine ⟨?_, ?_, ?_, rfl⟩
  · rw [Slot.next, hplace, ← hslot]
    unfold Slot.placeRoot
    by_cases hcontainer : kind.isContainer = true
    · have : found.kind.isContainer = true := hcontainer
      rw [if_pos hcontainer, if_pos this]
      rfl
    · have : ¬found.kind.isContainer = true := hcontainer
      rw [if_neg hcontainer, if_neg this]
  · rw [hplace]
    rfl
  · rw [hstranding]
    rfl

/-- A category opens among those of its class. -/
theorem category {baseClass : String} (hkind : cursor.entityKind? inUnnamedEnum = some kind)
    (hlike : kind.isCategoryLike = true) (hbase : cursor.detail.baseClass = some baseClass) :
    Leads file c (⟨cursor, parent, inUnnamedEnum⟩ :: rest)
      [cursor.spotAt file
        ⟨.pending ⟨baseClass, .ofDeclaration kind cursor.spelling cursor.flavor?⟩, []⟩] []
      (some ⟨.pending ⟨baseClass, .ofDeclaration kind cursor.spelling cursor.flavor?⟩, kind,
        cursor.spelling⟩)
      (childVisits cursor (some ⟨kind, cursor.spelling, cursor.locationIn file⟩) false ++ rest) := by
  apply one hkind rfl
  intro slot groupFrom hslot found
  have hmember : found.kind.isMember = false := by
    show kind.isMember = false
    cases kind <;> first | rfl | cases hlike
  have hcontainer : found.kind.isContainer = true := by
    show kind.isContainer = true
    cases kind <;> first | rfl | cases hlike
  have hplace : slot.place found none = Slot.placeCategory found none := by
    have hlike : found.kind.isCategoryLike = true := hlike
    simp only [Slot.place, hmember, hlike, Bool.false_eq_true, if_false, if_true]
  have hstands : Slot.placeCategory found none =
      ({ container := some ⟨.pending ⟨baseClass, found.key⟩, found.kind, found.name⟩ },
        some ⟨.category baseClass, found, none⟩) := by
    have hbase : found.baseClass = some baseClass := hbase
    rw [Slot.placeCategory, hbase]
  refine ⟨?_, ?_, ?_, ?_⟩
  · rw [Slot.next, hplace, hstands]
    rfl
  · rw [hplace, hstands]
    rfl
  · rw [Slot.strandingOf, hmember, Bool.false_and, if_neg Bool.false_ne_true]
    rfl
  · rw [memberVisits, if_pos hcontainer]
    rfl

/-- A member of the open container goes into it. -/
theorem member {container : OpenContainer} {ref : ParentRef}
    (hkind : cursor.entityKind? false = some kind) (haccepts : container.kind.accepts kind = true)
    (hrefKind : ref.kind = container.kind) (hrefName : ref.name = container.name) :
    Leads file (some container) (⟨cursor, some ref, false⟩ :: rest)
      [cursor.spotAt file
        ⟨container.target, [.ofDeclaration kind cursor.spelling cursor.flavor?]⟩] []
      (some container) rest := by
  obtain ⟨hmember, -⟩ := Kind.isMember_of_accepts haccepts
  apply one hkind rfl
  intro slot groupFrom hslot found
  have htarget : slot.targetOf? found = some container.target :=
    Slot.targetOf?_eq_some hslot haccepts
      (Walk.parent_entity file groupFrom cursor (some ref) hmember) hrefKind hrefName
  have hplace : slot.place found none = slot.placeMember found none := by
    have hmember : found.kind.isMember = true := hmember
    rw [Slot.place, if_pos hmember]
  refine ⟨?_, ?_, ?_, ?_⟩
  · rw [Slot.next, hplace, Slot.placeMember, htarget]
    dsimp only
    split <;> exact hslot
  · rw [hplace, Slot.placeMember, htarget]
    rfl
  · rw [Slot.strandingOf, htarget, Option.isNone_some, Bool.and_false, if_neg Bool.false_ne_true]
    rfl
  · exact congrArg (· ++ rest) (memberVisits_of_isMember hmember)

/-- A member that the open container does not accept is stranded. -/
theorem strand {container : OpenContainer} (hkind : cursor.entityKind? false = some kind)
    (hmember : kind.isMember = true) (haccepts : container.kind.accepts kind = false) :
    Leads file (some container) (⟨cursor, parent, false⟩ :: rest) []
      [cursor.stranding file] (some container) rest := by
  apply one hkind rfl
  intro slot groupFrom hslot found
  have htarget : slot.targetOf? found = none := Slot.targetOf?_eq_none hslot haccepts
  have hplace : slot.place found none = (slot, none) := by
    have hmember : found.kind.isMember = true := hmember
    rw [Slot.place, if_pos hmember, Slot.placeMember, htarget]
  have hstranding : slot.strandingOf found = some (cursor.stranding file) := by
    have hmember : found.kind.isMember = true := hmember
    have hdeclared : cursor.declaredKind = kind := by rw [Cursor.declaredKind, hkind]; rfl
    rw [Slot.strandingOf, htarget, hmember, Option.isNone_none, Bool.and_true, if_pos rfl,
      Cursor.stranding, hdeclared]
    rfl
  refine ⟨?_, ?_, ?_, ?_⟩
  · rw [Slot.next, hplace]
    exact hslot
  · rw [hplace]
    rfl
  · rw [hstranding]
    rfl
  · exact congrArg (· ++ rest) (memberVisits_of_isMember hmember)

/-! ### Enumerations -/

/-- The values of a named enumeration go into it. -/
theorem values {container : OpenContainer} {ref : ParentRef} {held : List Cursor}
    (hkind : container.kind = .enumeration) (hrefKind : ref.kind = container.kind)
    (hrefName : ref.name = container.name) (hheld : ∀ value ∈ held, value.IsValue) :
    Leads file (some container) (held.map (fun value => ⟨value, some ref, false⟩) ++ rest)
      (held.map fun value => value.spotAt file ⟨container.target, [value.key]⟩) []
      (some container) rest := by
  induction held with
  | nil => exact refl file _ rest
  | cons value more ih =>
    have hvalue := (hheld value List.mem_cons_self).kind
    have hdeclared : value.entityKind? false = some value.declaredKind := by
      simp [Cursor.declaredKind, Cursor.entityKind?, hvalue]
    have haccepts : container.kind.accepts value.declaredKind = true := by
      simp [Cursor.declaredKind, Cursor.entityKind?, hvalue, hkind, Kind.accepts]
    exact (member hdeclared haccepts hrefKind hrefName).trans
      (ih fun other hother => hheld other (List.mem_cons_of_mem _ hother))

/-- The values of an enumeration without a name are constants. -/
theorem constants {held : List Cursor} (hheld : ∀ value ∈ held, value.IsValue) :
    Leads file c (held.map (fun value => ⟨value, parent, true⟩) ++ rest)
      (held.map fun value => value.spotAt file ⟨.root ⟨.constant, value.spelling⟩, []⟩) [] c rest := by
  induction held with
  | nil => exact refl file c rest
  | cons value more ih =>
    have hvalue := (hheld value List.mem_cons_self).kind
    have hdeclared : value.entityKind? true = some .constant := by
      simp [Cursor.entityKind?, hvalue]
    have hrest := ih fun other hother => hheld other (List.mem_cons_of_mem _ hother)
    have hone : Leads file c (⟨value, parent, true⟩ :: _) _ _ _ rest :=
      (root hdeclared rfl rfl nofun).trans hrest
    exact hone

/-! ### Declarations at the top -/

theorem leaf (h : Cursor.isPlainKind cursor.kind = true) :
    Leads file c (⟨cursor, parent, false⟩ :: rest) [cursor.spotAt file ⟨cursor.ref, []⟩] [] c
      rest := by
  obtain ⟨hsome, hmember, hcontainer, hunknown⟩ := Cursor.entityKind?_of_isPlainKind h
  have hlike : cursor.declaredKind.isCategoryLike = false := by
    revert hcontainer
    cases cursor.declaredKind <;> decide
  have hcategory : Cursor.isCategoryKind cursor.kind = false := by
    revert h
    cases cursor.kind <;> decide
  have hroot : Leads file c (⟨cursor, parent, false⟩ :: rest) _ _ _ _ :=
    root hsome hmember hlike hunknown
  rw [hcontainer, if_neg Bool.false_ne_true, if_neg Bool.false_ne_true] at hroot
  rwa [Cursor.ref_of_not_isCategoryKind hcategory]

/-- A named enumeration opens. -/
theorem namedEnum (h : cursor.isNamedEnum = true) :
    Leads file c (⟨cursor, parent, false⟩ :: rest) [cursor.spotAt file ⟨cursor.ref, []⟩] []
      (some cursor.opened) (childVisits cursor (some (cursor.asParent file)) false ++ rest) := by
  obtain ⟨hkind, hspelling⟩ := Cursor.isNamedEnum_iff.1 h
  have hsome : cursor.entityKind? false = some .enumeration := by
    simp [Cursor.entityKind?, hkind, hspelling]
  have hdeclared : cursor.declaredKind = .enumeration := by rw [Cursor.declaredKind, hsome]; rfl
  have hroot : Leads file c (⟨cursor, parent, false⟩ :: rest) _ _ _ _ :=
    root hsome rfl rfl nofun
  rw [Cursor.opened, Cursor.ref_of_not_isCategoryKind (by rw [hkind]; rfl), Cursor.asParent,
    Cursor.key, hdeclared]
  exact hroot

/-- A class, category or protocol opens. -/
theorem container (h : cursor.IsContainer) :
    Leads file c (⟨cursor, parent, false⟩ :: rest) [cursor.spotAt file ⟨cursor.ref, []⟩] []
      (some cursor.opened) (childVisits cursor (some (cursor.asParent file)) false ++ rest) := by
  obtain ⟨hsome, hmember, hcontainer, -, hlike⟩ := Cursor.entityKind?_of_isContainerKind h.kind
  by_cases hcategory : Cursor.isCategoryKind cursor.kind = true
  · obtain ⟨base, hbase⟩ := h.baseClass hcategory
    have hopens : Leads file c (⟨cursor, parent, false⟩ :: rest) _ _ _ _ :=
      category hsome (hlike.2 hcategory) hbase
    rw [Cursor.opened, Cursor.ref, if_pos hcategory, hbase]
    exact hopens
  · have hnot : cursor.declaredKind.isCategoryLike = false := by
      rw [← Bool.not_eq_true]
      exact fun h => hcategory (hlike.1 h)
    have hroot : Leads file c (⟨cursor, parent, false⟩ :: rest) _ _ _ _ :=
      root hsome hmember hnot (by intro hk; rw [hk] at hcontainer; cases hcontainer)
    rw [hcontainer, if_pos rfl, if_pos rfl] at hroot
    rw [Cursor.opened, Cursor.ref_of_not_isCategoryKind (by simpa using hcategory)]
    exact hroot

/-- A plain declaration goes to the root; of a named enumeration the end stays open. -/
theorem plain (h : cursor.IsPlain) :
    Leads file c (⟨cursor, parent, false⟩ :: rest) (cursor.plainSpots file) []
      (if cursor.isNamedEnum then some cursor.opened else c) rest := by
  rcases h with ⟨hkind, hvalues⟩ | ⟨hkind, -⟩
  · by_cases hspelling : cursor.spelling = ""
    · have hnamed : cursor.isNamedEnum = false := by simp [Cursor.isNamedEnum, hspelling]
      have hnone : cursor.entityKind? false = none := by
        simp [Cursor.entityKind?, hkind, hspelling]
      have hbelow : Leads file c (⟨cursor, parent, false⟩ :: rest) _ _ _ _ :=
        pass (by simp [hkind]) hnone
      rw [Cursor.plainSpots, if_pos hkind, if_pos hspelling, hnamed, if_neg Bool.false_ne_true]
      dsimp only at hbelow
      rw [hkind] at hbelow
      exact hbelow.trans (constants hvalues)
    · have hnamed : cursor.isNamedEnum = true := Cursor.isNamedEnum_iff.2 ⟨hkind, hspelling⟩
      rw [Cursor.plainSpots, if_pos hkind, if_neg hspelling, hnamed, if_pos rfl]
      exact (namedEnum hnamed).trans
        (values (Cursor.opened_of_isNamedEnum hnamed) rfl rfl hvalues)
  · have hnamed : cursor.isNamedEnum = false := by
      simp only [Cursor.isNamedEnum]
      revert hkind
      cases cursor.kind <;> simp [Cursor.isPlainKind]
    have hne : cursor.kind ≠ .enumeration := fun h => by rw [h] at hkind; cases hkind
    rw [Cursor.plainSpots, if_neg hne, hnamed, if_neg Bool.false_ne_true]
    exact leaf hkind

/-! ### What containers hold -/

variable {held : List Cursor}

/-- While an enumeration is open, members of other containers are stranded. -/
theorem heldBehind {current : OpenContainer} (hcurrent : current.kind = .enumeration)
    (hheld : ∀ child ∈ held, child.IsHeld) :
    ∃ c', Leads file (some current) (held.map (fun child => ⟨child, parent, false⟩) ++ rest)
      (Cursor.heldSpots file none held) ((held.filter Cursor.isMember).map (Cursor.stranding file))
      c' rest := by
  induction held generalizing current with
  | nil => exact ⟨_, refl file _ rest⟩
  | cons child more ih =>
    have hmore : ∀ other ∈ more, other.IsHeld := fun other ho =>
      hheld other (List.mem_cons_of_mem _ ho)
    rcases hheld child List.mem_cons_self with ⟨hchild, -⟩ | hplain
    · obtain ⟨hsome, hnamed, -⟩ := Cursor.entityKind?_of_isMember hchild
      have haccepts : current.kind.accepts child.declaredKind = false := by
        rw [Cursor.accepts_declaredKind hchild, hcurrent]
        rfl
      obtain ⟨c', hrest⟩ := ih hcurrent hmore
      refine ⟨c', ?_⟩
      rw [Cursor.heldSpots, if_pos hchild, hnamed, List.filter_cons_of_pos hchild]
      exact (strand hsome (Cursor.isMember_declaredKind hchild) haccepts).trans hrest
    · have hchild := Cursor.isMember_of_isPlain hplain
      obtain ⟨c', hrest⟩ : ∃ c', Leads file
          (if child.isNamedEnum then some child.opened else some current)
          (more.map (fun child => ⟨child, parent, false⟩) ++ rest) (Cursor.heldSpots file none more)
          ((more.filter Cursor.isMember).map (Cursor.stranding file)) c' rest := by
        split
        · next hnamed => exact ih (Cursor.opened_of_isNamedEnum hnamed) hmore
        · exact ih hcurrent hmore
      refine ⟨c', ?_⟩
      rw [Cursor.heldSpots, hchild, if_neg Bool.false_ne_true, ite_self,
        List.filter_cons_of_neg (by rw [hchild]; exact Bool.false_ne_true)]
      exact (plain hplain).trans hrest

/-- What stands in an open container goes into it or to the root, up to a named enumeration. -/
theorem heldInside {current : OpenContainer} {ref : ParentRef}
    (hcurrent : current.kind.accepts .method = true) (hrefKind : ref.kind = current.kind)
    (hrefName : ref.name = current.name) (hheld : ∀ child ∈ held, child.IsHeld) :
    ∃ c', Leads file (some current) (held.map (fun child => ⟨child, some ref, false⟩) ++ rest)
      (Cursor.heldSpots file (some current.target) held)
      ((Cursor.stranded held).map (Cursor.stranding file)) c' rest := by
  induction held with
  | nil => exact ⟨_, refl file _ rest⟩
  | cons child more ih =>
    have hmore : ∀ other ∈ more, other.IsHeld := fun other ho =>
      hheld other (List.mem_cons_of_mem _ ho)
    have hpass : child.isNamedEnum = false →
        Cursor.stranded (child :: more) = Cursor.stranded more := fun hnamed => by
      rw [Cursor.stranded, List.dropWhile_cons_of_pos (by rw [hnamed]; rfl)]
      rfl
    rcases hheld child List.mem_cons_self with ⟨hchild, -⟩ | hplain
    · obtain ⟨hsome, hnamed, -⟩ := Cursor.entityKind?_of_isMember hchild
      have haccepts : current.kind.accepts child.declaredKind = true :=
        (Cursor.accepts_declaredKind hchild _).trans hcurrent
      obtain ⟨c', hrest⟩ := ih hmore
      refine ⟨c', ?_⟩
      rw [Cursor.heldSpots, if_pos hchild, hnamed, hpass hnamed]
      exact (member hsome haccepts hrefKind hrefName).trans hrest
    · have hchild := Cursor.isMember_of_isPlain hplain
      rw [Cursor.heldSpots, hchild, if_neg Bool.false_ne_true]
      have hlead : Leads file (some current) (⟨child, some ref, false⟩ :: _) _ _ _
          (more.map (fun child => ⟨child, some ref, false⟩) ++ rest) := plain hplain
      by_cases hnamed : child.isNamedEnum = true
      · obtain ⟨c', hrest⟩ := heldBehind (Cursor.opened_of_isNamedEnum hnamed) hmore
        refine ⟨c', ?_⟩
        rw [if_pos hnamed] at hlead
        rw [if_pos hnamed, Cursor.stranded, List.dropWhile_cons_of_neg (by simp [hnamed]),
          List.filter_cons_of_neg (by rw [hchild]; exact Bool.false_ne_true)]
        exact hlead.trans hrest
      · obtain ⟨c', hrest⟩ := ih hmore
        refine ⟨c', ?_⟩
        rw [if_neg hnamed] at hlead
        rw [if_neg hnamed, hpass (by simpa using hnamed)]
        exact hlead.trans hrest

/-- A declaration at the top of a source. -/
theorem top (h : cursor.IsTop) :
    ∃ c', Leads file c (⟨cursor, none, false⟩ :: rest) (cursor.spots file)
      (cursor.strandings file) c' rest := by
  rcases h with h | h
  · obtain ⟨-, -, hcontainer, hne, -⟩ := Cursor.entityKind?_of_isContainerKind h.kind
    have haccepts : cursor.opened.kind.accepts .method = true := by
      show cursor.declaredKind.accepts .method = true
      revert hcontainer hne
      cases cursor.declaredKind <;> decide
    obtain ⟨c', hheld⟩ : ∃ c', Leads file (some cursor.opened)
        (childVisits cursor (some (cursor.asParent file)) false ++ rest) _ _ c' rest :=
      heldInside haccepts rfl rfl h.held
    refine ⟨c', ?_⟩
    rw [Cursor.spots, if_pos h.kind, Cursor.strandings, if_pos h.kind]
    exact (container h).trans hheld
  · have hkind : Cursor.isContainerKind cursor.kind = false := by
      rcases h with ⟨hk, -⟩ | ⟨hk, -⟩
      · rw [hk]
        rfl
      · revert hk
        cases cursor.kind <;> decide
    refine ⟨if cursor.isNamedEnum then some cursor.opened else c, ?_⟩
    rw [Cursor.spots, Cursor.strandings, hkind, if_neg Bool.false_ne_true,
      if_neg Bool.false_ne_true]
    exact plain h

theorem tops {cursors : List Cursor} (h : ∀ cursor ∈ cursors, cursor.IsTop) :
    ∃ c', Leads file c (cursors.map fun cursor => ⟨cursor, none, false⟩)
      (cursors.flatMap (Cursor.spots file)) (cursors.flatMap (Cursor.strandings file)) c' [] := by
  induction cursors generalizing c with
  | nil => exact ⟨c, refl file c []⟩
  | cons cursor more ih =>
    obtain ⟨c', htop⟩ := top (h cursor List.mem_cons_self)
    obtain ⟨c'', hmore⟩ := ih fun other ho => h other (List.mem_cons_of_mem _ ho)
    exact ⟨c'', htop.trans hmore⟩

end Leads

/-- What becomes of the entities of a whole source. -/
theorem Slot.spots_entitiesFrom (file : SourceFile) {cursors : List Cursor}
    (h : ∀ cursor ∈ cursors, cursor.IsTop) :
    let entities := entitiesFrom file 0 (cursors.map fun cursor => ⟨cursor, none, false⟩)
    Slot.spots {} entities = cursors.flatMap (Cursor.spots file) ∧
      Slot.strandings {} entities = cursors.flatMap (Cursor.strandings file) ∧
      entities.length = (cursors.flatMap (Cursor.spots file)).length +
        (cursors.flatMap (Cursor.strandings file)).length := by
  intro entities
  obtain ⟨c', hleads⟩ := Leads.tops h
  obtain ⟨found, slot, groupFrom, -, hsplit, hcount, hmore⟩ := hleads {} 0 rfl
  have hfound : entities = found := by
    rw [entitiesFrom, List.append_nil] at hsplit
    exact hsplit
  obtain ⟨hspots, hstrandings⟩ := hmore []
  rw [List.append_nil] at hspots hstrandings
  rw [hfound, hspots, hstrandings, Slot.spots, Slot.strandings, List.append_nil, List.append_nil]
  exact ⟨rfl, rfl, hcount⟩

end DeclDoc
