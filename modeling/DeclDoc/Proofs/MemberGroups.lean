import DeclDoc.Proofs.GroupMarkers

/-!
# Members and their groups

A walk through a source comes to its methods and properties one by one, and each of them goes into the
open container. What stands between them leaves the container, its group and the markers before the
next one alone (`Walk.Spares`), so `Walk.attached_held` can take `Searched` from member to member.
`FrontEnd.groups_scanner`: every method and property of a source is in the group of its last marker.
-/

set_option autoImplicit false

namespace DeclDoc

open Cursor (preorderAll)

/-! ## Methods and properties of a walk -/

/-- Methods and properties stay in the group of the one before; values of enumerations do not. -/
def Kind.isGrouped : Kind → Bool
  | .method | .property => true
  | _ => false

namespace Slot

/-- The methods and properties that are put somewhere. -/
def members (slot : Slot) : List Entity → List Accepted
  | [] => []
  | entity :: rest =>
    (slot.place entity none).2.toList.filter (·.entity.kind.isGrouped) ++
      (slot.next entity).members rest

/-- The accepted methods and properties, but for their comments. -/
theorem members_acceptAll (slot : Slot) {entities : List Entity}
    (h : ∀ entity ∈ entities, entity.Readable) :
    ((slot.acceptAll {} .markup entities).filter (·.entity.kind.isGrouped)).map
      Accepted.uncommented = slot.members entities := by
  induction entities generalizing slot with
  | nil => rfl
  | cons entity rest ih =>
    have hentity := h entity List.mem_cons_self
    obtain ⟨comment, heq⟩ := slot.exists_accept_eq hentity
    rw [acceptAll, members, List.filter_append, List.map_append, slot.accept_fst hentity,
      ih _ fun other hother => h other (List.mem_cons_of_mem _ hother), heq,
      ← (slot.place_comment entity comment).2]
    congr 1
    cases (slot.place entity comment).2 with
    | none => rfl
    | some a =>
      show _ = ([a].map Accepted.uncommented).filter _
      rw [List.filter_map]
      rfl

/-- What is no method or property does not count. -/
theorem filter_place {entity : Entity} (slot : Slot) (h : entity.kind.isGrouped = false) :
    (slot.place entity none).2.toList.filter (·.entity.kind.isGrouped) = [] := by
  refine List.filter_eq_nil_iff.2 fun a ha => ?_
  rw [kind_of_mem_place (Option.mem_toList.1 ha), h]
  exact Bool.false_ne_true

/-- What is no method or property and holds nothing changes nothing. -/
theorem next_of_leaf {entity : Entity} (slot : Slot) (hgrouped : entity.kind.isGrouped = false)
    (hcontainer : entity.kind.isContainer = false) : slot.next entity = slot := by
  refine (slot.place_of_leaf none hcontainer).2 fun hbegins => ?_
  rcases hbegins.1 with hk | hk <;> rw [hk] at hgrouped <;> cases hgrouped

end Slot

/-- The member is accepted for its container, with its group. -/
structure IsAttached (file : SourceFile) (accepted : Accepted) (attached : Attached) : Prop where
  standing : accepted.standing = .member attached.container.ref
  tells : accepted.entity.TellsOf file attached.member
  group : accepted.entity.group = attached.group file

namespace Walk

/-- The methods and properties that visits lead to. -/
def membersFrom (file : SourceFile) (slot : Slot) (groupFrom : Nat) (stack : List Visit) :
    List Accepted := slot.members (entitiesFrom file groupFrom stack)

variable {file : SourceFile} {slot : Slot} {groupFrom : Nat} {rest : List Visit} {visit : Visit}
  {cursor : Cursor} {parent : Option ParentRef} {kind : Kind} {held : List Cursor}

theorem membersFrom_none (hkind : visit.cursor.kind ≠ .compoundStatement)
    (hnone : visit.cursor.entityKind? visit.inUnnamedEnum = none) :
    membersFrom file slot groupFrom (visit :: rest) = membersFrom file slot groupFrom
      (childVisits visit.cursor visit.parent (visit.cursor.kind == .enumeration) ++ rest) := by
  rw [membersFrom, entitiesFrom, if_neg hkind, hnone]
  rfl

theorem membersFrom_some (hkind : visit.cursor.entityKind? visit.inUnnamedEnum = some kind) :
    let found := entity file groupFrom visit kind
    membersFrom file slot groupFrom (visit :: rest) =
      (slot.place found none).2.toList.filter (·.entity.kind.isGrouped) ++
        membersFrom file (slot.next found)
          (if isNestedRoot visit kind then groupFrom else visit.cursor.offset)
          (memberVisits found visit.cursor ++ rest) := by
  intro found
  have hcompound : visit.cursor.kind ≠ .compoundStatement := fun h => by
    rw [Cursor.entityKind?, h] at hkind
    cases hkind
  rw [membersFrom, entitiesFrom, if_neg hcompound, hkind]
  rfl

/-- What is no method or property leads to what it holds. -/
theorem membersFrom_quiet (hkind : visit.cursor.entityKind? visit.inUnnamedEnum = some kind)
    (hgrouped : kind.isGrouped = false) :
    let found := entity file groupFrom visit kind
    membersFrom file slot groupFrom (visit :: rest) = membersFrom file (slot.next found)
      (if isNestedRoot visit kind then groupFrom else visit.cursor.offset)
      (memberVisits found visit.cursor ++ rest) := by
  intro found
  have hfound : found.kind.isGrouped = false := hgrouped
  rw [membersFrom_some hkind, slot.filter_place hfound, List.nil_append]

/-- The visits leave the open container and its group as they are. In a container they keep no marker
from what follows either. -/
def Spares (file : SourceFile) (nested : Bool) (visits : List Visit) : Prop :=
  ∀ (slot : Slot) (groupFrom : Nat) (rest : List Visit), ∃ n, (nested = true → n = groupFrom) ∧
    membersFrom file slot groupFrom (visits ++ rest) = membersFrom file slot n rest

namespace Spares

variable {nested : Bool}

theorem nil (file : SourceFile) (nested : Bool) : Spares file nested [] :=
  fun _ groupFrom _ => ⟨groupFrom, fun _ => rfl, rfl⟩

theorem cons {visits : List Visit} (h : Spares file nested [visit])
    (h' : Spares file nested visits) : Spares file nested (visit :: visits) := by
  intro slot groupFrom rest
  obtain ⟨m, hm, hone⟩ := h slot groupFrom (visits ++ rest)
  obtain ⟨n, hn, hmore⟩ := h' slot m rest
  exact ⟨n, fun hnested => (hn hnested).trans (hm hnested), hone.trans hmore⟩

/-- What is no method or property and holds nothing. -/
theorem leaf (hkind : visit.cursor.entityKind? visit.inUnnamedEnum = some kind)
    (hgrouped : kind.isGrouped = false) (hcontainer : kind.isContainer = false)
    (hnested : nested = true → isNestedRoot visit kind = true) :
    Spares file nested [visit] := by
  intro slot groupFrom rest
  refine ⟨if isNestedRoot visit kind then groupFrom else visit.cursor.offset,
    fun h => if_pos (hnested h), ?_⟩
  have hheld : memberVisits (entity file groupFrom visit kind) visit.cursor = [] := by
    show (if kind.isContainer then _ else []) = []
    rw [hcontainer, if_neg Bool.false_ne_true]
  have hnext : slot.next (entity file groupFrom visit kind) = slot :=
    slot.next_of_leaf hgrouped hcontainer
  rw [List.singleton_append, membersFrom_quiet hkind hgrouped, hheld, hnext, List.nil_append]

/-- The values of an enumeration without a name, which stand at the root. -/
theorem constants (hheld : ∀ value ∈ held, value.IsValue) :
    Spares file parent.isSome (held.map fun value => ⟨value, parent, true⟩) := by
  induction held with
  | nil => exact nil file _
  | cons value more ih =>
    obtain ⟨hvalue, hmore⟩ := List.forall_mem_cons.1 hheld
    have hkind : value.entityKind? true = some .constant := by
      simp [Cursor.entityKind?, hvalue.kind]
    refine cons (leaf hkind rfl rfl fun hnested => ?_) (ih hmore)
    rw [isNestedRoot, hnested]
    rfl

/-- The values of a named enumeration, which are in their own groups at most. -/
theorem values (hheld : ∀ value ∈ held, value.IsValue) :
    Spares file false (held.map fun value => ⟨value, parent, false⟩) := by
  induction held with
  | nil => exact nil file _
  | cons value more ih =>
    obtain ⟨hvalue, hmore⟩ := List.forall_mem_cons.1 hheld
    have hkind : value.entityKind? false = some .enumValue := by
      simp [Cursor.entityKind?, hvalue.kind]
    exact cons (leaf hkind rfl rfl fun hnested => absurd hnested Bool.false_ne_true) (ih hmore)

/-- A plain declaration that is no named enumeration. -/
theorem plain (file : SourceFile) (parent : Option ParentRef) (h : cursor.IsPlain)
    (hnamed : cursor.isNamedEnum = false) :
    Spares file parent.isSome [⟨cursor, parent, false⟩] := by
  rcases h with ⟨hkind, hvalues⟩ | ⟨hkind, -⟩
  · have hspelling : cursor.spelling = "" := by simpa [Cursor.isNamedEnum, hkind] using hnamed
    have hnone : cursor.entityKind? false = none := by simp [Cursor.entityKind?, hkind, hspelling]
    intro slot groupFrom rest
    obtain ⟨n, hn, hbelow⟩ := constants hvalues slot groupFrom rest
    refine ⟨n, hn, ?_⟩
    rw [List.singleton_append, membersFrom_none (by simp [hkind]) hnone]
    dsimp only
    rw [hkind]
    exact hbelow
  · obtain ⟨hsome, hmember, hcontainer, -⟩ := Cursor.entityKind?_of_isPlainKind hkind
    have hgrouped : cursor.declaredKind.isGrouped = false := by
      revert hmember
      cases cursor.declaredKind <;> decide
    refine leaf hsome hgrouped hcontainer fun hnested => ?_
    rw [isNestedRoot, hmember, hnested]
    rfl

end Spares

/-! ### Containers -/

/-- A named enumeration opens, and stays open behind its values. -/
theorem membersFrom_namedEnum (h : cursor.IsPlain) (hnamed : cursor.isNamedEnum = true) (slot : Slot)
    (groupFrom : Nat) :
    ∃ n, membersFrom file slot groupFrom (⟨cursor, parent, false⟩ :: rest) =
      membersFrom file { container := some cursor.opened } n rest := by
  obtain ⟨hkind, hspelling⟩ := Cursor.isNamedEnum_iff.1 hnamed
  have hsome : cursor.entityKind? false = some .enumeration := by
    simp [Cursor.entityKind?, hkind, hspelling]
  have hopened : cursor.opened =
      ⟨.root (.ofDeclaration .enumeration cursor.spelling cursor.flavor?), .enumeration,
        cursor.spelling⟩ := by
    have hdeclared : cursor.declaredKind = .enumeration := by rw [Cursor.declaredKind, hsome]; rfl
    rw [Cursor.opened, Cursor.ref_of_not_isCategoryKind (by rw [hkind]; rfl), Cursor.key, hdeclared]
  obtain ⟨n, -, hvalues⟩ := Spares.values (h.values hkind) { container := some cursor.opened }
    (if isNestedRoot ⟨cursor, parent, false⟩ .enumeration then groupFrom else cursor.offset) rest
  refine ⟨n, ?_⟩
  rw [membersFrom_quiet hsome rfl, ← hvalues, hopened]
  rfl

/-- A class, category or protocol opens without a group. -/
theorem next_of_isContainer (h : cursor.IsContainer) (slot : Slot) (groupFrom : Nat) :
    slot.next (entity file groupFrom ⟨cursor, parent, false⟩ cursor.declaredKind) =
      { container := some cursor.opened } := by
  obtain ⟨-, hmember, hcontainer, -, hlike⟩ := Cursor.entityKind?_of_isContainerKind h.kind
  generalize hfound : entity file groupFrom ⟨cursor, parent, false⟩ cursor.declaredKind = found
  have hkind : found.kind = cursor.declaredKind := by rw [← hfound]; rfl
  have hkey : found.key = cursor.key := by rw [← hfound]; rfl
  have hname : found.name = cursor.spelling := by rw [← hfound]; rfl
  rw [Slot.next, Slot.place, hkind, hmember, if_neg Bool.false_ne_true]
  by_cases hcategory : Cursor.isCategoryKind cursor.kind = true
  · obtain ⟨base, hbase⟩ := h.baseClass hcategory
    have hfoundBase : found.baseClass = some base := by rw [← hfound]; exact hbase
    rw [if_pos (hlike.2 hcategory), Slot.placeCategory, hfoundBase]
    rw [Cursor.opened, Cursor.ref, if_pos hcategory, hbase, hkind, hkey, hname]
    rfl
  · have hnot : ¬cursor.declaredKind.isCategoryLike = true := fun h => hcategory (hlike.1 h)
    have hknown : cursor.declaredKind ≠ .unknown := fun hk => by rw [hk] at hcontainer; cases hcontainer
    rw [if_neg hnot, if_neg hknown, Slot.placeRoot, hkind, if_pos hcontainer, hkey, hname,
      Cursor.opened, Cursor.ref_of_not_isCategoryKind (Bool.eq_false_iff.2 hcategory)]

theorem membersFrom_container (h : cursor.IsContainer) (slot : Slot) (groupFrom : Nat) :
    membersFrom file slot groupFrom (⟨cursor, none, false⟩ :: rest) =
      membersFrom file { container := some cursor.opened } cursor.offset
        (childVisits cursor (some (cursor.asParent file)) false ++ rest) := by
  obtain ⟨hsome, hmember, hcontainer, -⟩ := Cursor.entityKind?_of_isContainerKind h.kind
  have hgrouped : cursor.declaredKind.isGrouped = false := by
    revert hcontainer
    cases cursor.declaredKind <;> decide
  have hheld : memberVisits (entity file groupFrom ⟨cursor, none, false⟩ cursor.declaredKind)
      cursor = childVisits cursor (some (cursor.asParent file)) false := if_pos hcontainer
  rw [membersFrom_quiet hsome hgrouped, next_of_isContainer h, hheld]
  rfl

/-- A member is put somewhere or not, and what follows looks for markers from it on. -/
theorem membersFrom_isMember (hmember : cursor.isMember = true) :
    let found := entity file groupFrom ⟨cursor, parent, false⟩ cursor.declaredKind
    membersFrom file slot groupFrom (⟨cursor, parent, false⟩ :: rest) =
      (slot.placeMember found none).2.toList ++
        membersFrom file (slot.placeMember found none).1 cursor.offset rest := by
  intro found
  obtain ⟨hsome, -, hdeclared⟩ := Cursor.entityKind?_of_isMember hmember
  have hfound : found.kind.isMember = true := Cursor.isMember_declaredKind hmember
  have hroot : isNestedRoot ⟨cursor, parent, false⟩ cursor.declaredKind = false := by
    rw [isNestedRoot, Cursor.isMember_declaredKind hmember, Bool.not_true, Bool.and_false]
  have hplace : slot.place found none = slot.placeMember found none := by
    rw [Slot.place, if_pos hfound]
  have hgrouped : (slot.place found none).2.toList.filter (·.entity.kind.isGrouped) =
      (slot.place found none).2.toList := by
    refine List.filter_eq_self.2 fun a ha => ?_
    rw [Slot.kind_of_mem_place (Option.mem_toList.1 ha)]
    show cursor.declaredKind.isGrouped = true
    rcases hdeclared with hk | hk <;> rw [hk] <;> rfl
  rw [membersFrom_some hsome, hgrouped, hroot, if_neg Bool.false_ne_true,
    memberVisits_of_isMember hfound, Slot.next, hplace, List.nil_append]

/-- A member goes into the open container, in the group that begins right before it or else in the one
that the container is at, and the container is at that group then. -/
theorem membersFrom_attached (hmember : cursor.isMember = true) {container : Cursor}
    (hopen : slot.container = some container.opened)
    (haccepts : container.declaredKind.accepts .method = true) :
    let group := (file.groupBetween groupFrom cursor.extent).or slot.group
    ∃ a : Accepted, a.standing = .member container.ref ∧ a.entity.TellsOf file cursor ∧
      a.entity.group = group ∧
      membersFrom file slot groupFrom
          (⟨cursor, some (container.asParent file), false⟩ :: rest) =
        a :: membersFrom file { slot with group } cursor.offset rest := by
  intro group
  obtain ⟨hsome, -, hdeclared⟩ := Cursor.entityKind?_of_isMember hmember
  have hkind := Cursor.isMember_declaredKind hmember
  have hvalue : cursor.declaredKind ≠ .enumValue := by
    rcases hdeclared with hk | hk <;> rw [hk] <;> nofun
  generalize hfound : entity file groupFrom ⟨cursor, some (container.asParent file), false⟩
    cursor.declaredKind = found
  have hfoundKind : found.kind = cursor.declaredKind := by rw [← hfound]; rfl
  have htarget : slot.targetOf? found = some container.ref := by
    rw [← hfound]
    exact Slot.targetOf?_eq_some hopen ((Cursor.accepts_declaredKind hmember _).trans haccepts)
      (parent_entity file groupFrom cursor _ hkind) rfl rfl
  have hgroup : slot.groupOf found = group := by
    have hmarker : found.group = file.groupBetween groupFrom cursor.extent := by
      rw [← hfound]
      exact if_pos hkind
    rw [Slot.groupOf, hfoundKind, if_neg hvalue, hmarker]
  refine ⟨⟨.member container.ref, { found with group }, none⟩, rfl, ?_, rfl, ?_⟩
  · rw [← hfound]
    exact ⟨⟨false, hsome⟩, rfl, rfl, rfl, rfl⟩
  · rw [membersFrom_isMember hmember, hfound, Slot.placeMember, htarget]
    dsimp only
    rw [hgroup, hfoundKind, if_neg hvalue]
    rfl

/-- While an enumeration is open, no other member goes anywhere. -/
theorem membersFrom_stranded (hmember : cursor.isMember = true) {current : OpenContainer}
    (hopen : slot.container = some current) (henum : current.kind = .enumeration) :
    membersFrom file slot groupFrom (⟨cursor, parent, false⟩ :: rest) =
      membersFrom file slot cursor.offset rest := by
  have haccepts : current.kind.accepts cursor.declaredKind = false := by
    rw [Cursor.accepts_declaredKind hmember, henum]
    rfl
  have htarget : slot.targetOf? (entity file groupFrom ⟨cursor, parent, false⟩ cursor.declaredKind) =
      none := Slot.targetOf?_eq_none hopen haccepts
  rw [membersFrom_isMember hmember, Slot.placeMember, htarget]
  rfl

/-! ### What containers hold -/

/-- While an enumeration is open, nothing that a container holds is put into it. -/
theorem exists_membersFrom_behind (hheld : ∀ child ∈ held, child.IsHeld) (slot : Slot)
    (groupFrom : Nat) {current : OpenContainer} (hopen : slot.container = some current)
    (henum : current.kind = .enumeration) :
    ∃ slot' n, membersFrom file slot groupFrom
        (held.map (fun child => ⟨child, parent, false⟩) ++ rest) =
      membersFrom file slot' n rest := by
  induction held generalizing slot groupFrom current with
  | nil => exact ⟨slot, groupFrom, rfl⟩
  | cons child more ih =>
    obtain ⟨hchild, hmore⟩ := List.forall_mem_cons.1 hheld
    rcases hchild with ⟨hmember, -⟩ | hplain
    · obtain ⟨slot', n, heq⟩ := ih hmore slot child.offset hopen henum
      exact ⟨slot', n, (membersFrom_stranded hmember hopen henum).trans heq⟩
    · by_cases hnamed : child.isNamedEnum = true
      · obtain ⟨m, hone⟩ := membersFrom_namedEnum hplain hnamed slot groupFrom
        obtain ⟨slot', n, heq⟩ := ih hmore { container := some child.opened } m rfl
          (Cursor.opened_of_isNamedEnum hnamed)
        exact ⟨slot', n, hone.trans heq⟩
      · obtain ⟨m, -, hone⟩ := Spares.plain file parent hplain
          (Bool.eq_false_iff.2 hnamed) slot groupFrom _
        obtain ⟨slot', n, heq⟩ := ih hmore slot m hopen henum
        exact ⟨slot', n, hone.trans heq⟩

variable {source : List Char} {container : Cursor} {earlier : List Cursor} {others : List Attached}

/-- The members in a container are attached to it, each in its group. -/
theorem attached_held (hfile : file.lexemes = (lex source).1)
    (haccepts : container.declaredKind.accepts .method = true)
    (hheld : ∀ child ∈ held, child.IsHeld) (hbegins : ∀ child ∈ held, child.BeginsIn file)
    (hordered : held.Pairwise fun a b => a.offset < b.extent)
    (hfrom : ∀ child ∈ held, groupFrom ≤ child.extent)
    (hopen : slot.container = some container.opened)
    (hsearched : Searched file container earlier groupFrom slot.group)
    (hrest : ∀ slot groupFrom,
      List.Forall₂ (IsAttached file) (membersFrom file slot groupFrom rest) others) :
    List.Forall₂ (IsAttached file)
      (membersFrom file slot groupFrom
        (held.map (fun child => ⟨child, some (container.asParent file), false⟩) ++ rest))
      (container.attachedFrom earlier held ++ others) := by
  induction held generalizing slot groupFrom earlier with
  | nil => exact hrest slot groupFrom
  | cons child more ih =>
    obtain ⟨hchild, hmore⟩ := List.forall_mem_cons.1 hheld
    obtain ⟨hbegin, hbegins⟩ := List.forall_mem_cons.1 hbegins
    obtain ⟨hbehind, hordered⟩ := List.pairwise_cons.1 hordered
    obtain ⟨hchildFrom, hfrom⟩ := List.forall_mem_cons.1 hfrom
    rw [List.map_cons, List.cons_append]
    rcases hchild with ⟨hmember, -⟩ | hplain
    · obtain ⟨a, hstanding, htells, hgroup, heq⟩ :=
        membersFrom_attached hmember hopen haccepts
      rw [hsearched.groupBetween_or hfile hbegin hchildFrom] at hgroup heq
      rw [heq, Cursor.attachedFrom, if_pos hmember]
      refine .cons ⟨hstanding, htells, hgroup⟩ ?_
      exact ih hmore hbegins hordered (fun other ho => Nat.le_of_lt (hbehind other ho)) hopen
        (hsearched.next hfile hbegin hchildFrom)
    · have hchild := Cursor.isMember_of_isPlain hplain
      rw [Cursor.attachedFrom, hchild, if_neg Bool.false_ne_true]
      by_cases hnamed : child.isNamedEnum = true
      · obtain ⟨m, hone⟩ := membersFrom_namedEnum hplain hnamed slot groupFrom
        obtain ⟨slot', n, heq⟩ := exists_membersFrom_behind hmore
          { container := some child.opened } m rfl (Cursor.opened_of_isNamedEnum hnamed)
        rw [if_pos hnamed, hone, heq]
        exact hrest slot' n
      · obtain ⟨n, hn, hone⟩ := Spares.plain file (some (container.asParent file)) hplain
          (Bool.eq_false_iff.2 hnamed) slot groupFrom
          (more.map (fun child => ⟨child, some (container.asParent file), false⟩) ++ rest)
        rw [if_neg hnamed, ← List.singleton_append, hone, hn rfl]
        exact ih hmore hbegins hordered hfrom hopen hsearched

/-- The members of a declaration at the top of a source. -/
theorem attached_top (hfile : file.lexemes = (lex source).1) (h : cursor.IsTop)
    (hbegins : ∀ child ∈ cursor.children, child.BeginsIn file)
    (hordered : (cursor :: cursor.children).Pairwise fun a b => a.offset < b.extent)
    (hrest : ∀ slot groupFrom,
      List.Forall₂ (IsAttached file) (membersFrom file slot groupFrom rest) others) :
    List.Forall₂ (IsAttached file) (membersFrom file slot groupFrom (⟨cursor, none, false⟩ :: rest))
      (cursor.attached ++ others) := by
  rcases h with hcontainer | hplain
  · obtain ⟨-, -, hkind, hne, -⟩ := Cursor.entityKind?_of_isContainerKind hcontainer.kind
    have haccepts : cursor.declaredKind.accepts .method = true := by
      revert hkind hne
      cases cursor.declaredKind <;> decide
    obtain ⟨hbehind, hordered⟩ := List.pairwise_cons.1 hordered
    rw [membersFrom_container hcontainer, Cursor.attached, if_pos hcontainer.kind]
    exact attached_held hfile haccepts hcontainer.held hbegins hordered
      (fun child hc => Nat.le_of_lt (hbehind child hc)) rfl (.begin file cursor) hrest
  · rw [Cursor.attached, hplain.not_isContainerKind, if_neg Bool.false_ne_true, List.nil_append]
    by_cases hnamed : cursor.isNamedEnum = true
    · obtain ⟨n, hone⟩ := membersFrom_namedEnum hplain hnamed slot groupFrom
      rw [hone]
      exact hrest _ n
    · obtain ⟨n, -, hone⟩ := Spares.plain file none hplain (Bool.eq_false_iff.2 hnamed) slot
        groupFrom rest
      rw [← List.singleton_append, hone]
      exact hrest slot n

theorem attached_tops (hfile : file.lexemes = (lex source).1) {cursors : List Cursor}
    (h : ∀ cursor ∈ cursors, cursor.IsTop)
    (hbegins : ∀ cursor ∈ preorderAll cursors, cursor.BeginsIn file)
    (hordered : (preorderAll cursors).Pairwise fun a b => a.offset < b.extent) (slot : Slot)
    (groupFrom : Nat) :
    List.Forall₂ (IsAttached file)
      (membersFrom file slot groupFrom (cursors.map fun cursor => ⟨cursor, none, false⟩))
      (cursors.flatMap Cursor.attached) := by
  induction cursors generalizing slot groupFrom with
  | nil =>
    rw [membersFrom, List.map_nil, entitiesFrom]
    exact .nil
  | cons cursor rest ih =>
    rw [Cursor.preorderAll_cons, Cursor.preorderAll_append] at hbegins hordered
    have hheld : (cursor :: cursor.children).Sublist
        (cursor :: (preorderAll cursor.children ++ preorderAll rest)) :=
      ((Cursor.sublist_preorderAll _).trans (List.sublist_append_left ..)).cons_cons cursor
    have hbehind : (preorderAll rest).Sublist
        (cursor :: (preorderAll cursor.children ++ preorderAll rest)) :=
      (List.sublist_append_right ..).cons cursor
    obtain ⟨htop, hrest⟩ := List.forall_mem_cons.1 h
    exact attached_top hfile htop
      (fun child hc => hbegins child (hheld.subset (List.mem_cons_of_mem _ hc)))
      (hordered.sublist hheld)
      (ih hrest (fun other ho => hbegins other (hbehind.subset ho)) (hordered.sublist hbehind))

end Walk

/-! ## Sources -/

/-- The cursors of a source begin at its lexemes. -/
theorem Declaration.beginsIn_scanText {path : String} {source : List Char} {cursor : Cursor}
    (h : cursor ∈ preorderAll (scanText source).cursors) :
    cursor.BeginsIn (.ofText path source) where
  lexeme := exists_lexeme_of_scanText h
  name := ((located_scanText source).within cursor h).begins

namespace FrontEnd

variable {path : String} {source : List Char} {unit : TranslationUnit}

/-- The methods and properties that a store takes of a source are the members in its containers, each
for its container and in the group of the last marker between the two, where heads of earlier members
do not count. No marker counts for members of two containers. -/
theorem groups_scanner (h : scanner.translate [] path source = .ok unit) {store : Store}
    (hstore : store.Keyed) :
    let file := SourceFile.ofText path source
    let accepted := ({} : Extraction).acceptedOf path source
    let attached := unit.cursors.flatMap Cursor.attached
    store.TakesAll accepted (({} : Extraction).readSource store path source).store ∧
      List.Forall₂ (IsAttached file) (accepted.filter (·.entity.kind.isGrouped)) attached ∧
      unit.cursors.Pairwise fun a b => ∀ t ∈ a.attached, ∀ t' ∈ b.attached, ∀ x,
        ¬(t.reaches x = true ∧ t'.reaches x = true) := by
  intro file accepted attached
  have hunit := eq_of_translate_scanner h
  have hcursors : unit.cursors = (Declaration.scanText source).cursors := by rw [hunit]
  have hlocated := Declaration.located_scanText source
  rw [← hcursors] at hlocated
  have hbegins : ∀ cursor ∈ preorderAll unit.cursors, cursor.BeginsIn file := fun cursor hc =>
    Declaration.beginsIn_scanText (hcursors ▸ hc)
  have hentities : ({} : Extraction).entitiesOf path source =
      Walk.entitiesFrom file 0 (unit.cursors.map fun cursor => ⟨cursor, none, false⟩) := by
    rw [(Extraction.readSource_eq {} unit rfl h store).1]
    exact (unit.steps_of_tidy file (hcursors ▸ Declaration.tidy_scanText source)).1
  have hreadable : ∀ entity ∈ ({} : Extraction).entitiesOf path source, entity.Readable := by
    rw [hentities, hcursors]
    exact Extraction.readable_scanned path source
  refine ⟨(Extraction.readSource_takes {} hstore path source).1, ?_,
    Cursor.not_reaches_both (fun cursor hc => (hbegins cursor hc).name) hlocated.ascending⟩
  have hmembers : (accepted.filter (·.entity.kind.isGrouped)).map Accepted.uncommented =
      Walk.membersFrom file {} 0 (unit.cursors.map fun cursor => ⟨cursor, none, false⟩) := by
    rw [Walk.membersFrom, ← hentities]
    exact Slot.members_acceptAll {} hreadable
  have hall := Walk.attached_tops rfl hlocated.shape hbegins hlocated.ascending {} 0
  rw [← hmembers, List.forall₂_map_left_iff] at hall
  exact hall.imp fun _ _ h => ⟨h.standing, h.tells, h.group⟩

/-- A macro, a struct and an enumeration without a name between members, a marker in the head of a
member, and one that no member follows. -/
def markedHeader : List Char :=
  ("@interface A\n/// @name One\n- (void)a;\n#define M 1\n/// @name Two\nstruct S { int x; };\n" ++
    "enum { E };\n- (void)\n/// @name In\nb;\n@property int c;\n/// @name Three\n@end\n" ++
    "@protocol P\n- (void)d;\n@end").toList

theorem groups_scanner_markedHeader :
    let members := (({} : Extraction).acceptedOf "A.h" markedHeader).filter
      (·.entity.kind.isGrouped)
    ∃ unit, scanner.translate [] "A.h" markedHeader = .ok unit ∧ Store.Keyed {} ∧
      List.Forall₂ (IsAttached (.ofText "A.h" markedHeader)) members
        (unit.cursors.flatMap Cursor.attached) ∧
      members.map (fun a => (a.entity.name, a.entity.group)) =
        [("a", some "One"), ("b", some "Two"), ("c", some "Two"), ("d", none)] := by
  intro members
  have hpath : (Language.ofPath? "A.h").isSome = true := by decide +kernel
  have hsource : '\x00' ∉ markedHeader := by decide +kernel
  have hunit := Extraction.translate_scanner hpath hsource []
  have hempty : Store.Keyed {} := Store.Holds.empty.keyed
  refine ⟨_, hunit, hempty, (groups_scanner hunit hempty).2.1, ?_⟩
  decide +kernel

end FrontEnd

end DeclDoc
