import DeclDoc.Extraction
import DeclDoc.Proofs.Accepted

/-!
# Reading as acceptance

Which entities of a file go into the store, and where they stand, depends on no store: `Slot.accept`
says what becomes of one entity while a `Slot` — the open container and its group — goes from entity
to entity, and `Slot.acceptAll` gives the accepted entities of a file. Reading a file does the same
with a store: `Reading.Follows` ties the two together, and `Follows.readStep` keeps it. So a store
takes what is accepted of a file when it reads it, and the file's summary counts that.
-/

set_option autoImplicit false

namespace DeclDoc

/-- What reading a file keeps from one entity to the next: the open container and its group. -/
structure Slot where
  container : Option OpenContainer := none
  group : Option String := none

/-- A group begins at the entity: it is a method or a property with a marker before it. -/
def Entity.BeginsGroup (entity : Entity) : Prop :=
  (entity.kind = .method ∨ entity.kind = .property) ∧ entity.group.isSome = true

namespace Slot

def closeFor (slot : Slot) (kind : Kind) : Slot :=
  if kind.isContainer || kind.isCategoryLike then {} else slot

/-- The open container, if a member belongs to it. -/
def targetOf? (slot : Slot) (entity : Entity) : Option ContainerRef :=
  (slot.container.filter fun container =>
    container.kind.accepts entity.kind &&
      entity.parent.any fun parent =>
        parent.kind == container.kind && parent.name == container.name).map OpenContainer.target

/-- The group that a member goes to. A value is in the group right before it, and in no other. -/
def groupOf (slot : Slot) (entity : Entity) : Option String :=
  if entity.kind = .enumValue then entity.group else entity.group.or slot.group

/-- A category goes among those that wait for its class, and opens. -/
def placeCategory (entity : Entity) (comment : Option Comment) : Slot × Option Accepted :=
  match entity.baseClass with
  | none => ({}, none)
  | some baseClass =>
    ({ container := some ⟨.pending ⟨baseClass, entity.key⟩, entity.kind, entity.name⟩ },
      some ⟨.category baseClass, entity, comment⟩)

/-- A member goes into the open container, if it belongs there. -/
def placeMember (slot : Slot) (entity : Entity) (comment : Option Comment) :
    Slot × Option Accepted :=
  match slot.targetOf? entity with
  | none => (slot, none)
  | some target =>
    (if entity.kind = .enumValue then slot else { slot with group := slot.groupOf entity },
      some ⟨.member target, { entity with group := slot.groupOf entity }, comment⟩)

/-- All else goes to the root; containers open. -/
def placeRoot (slot : Slot) (entity : Entity) (comment : Option Comment) :
    Slot × Option Accepted :=
  (if entity.kind.isContainer then
      { container := some ⟨.root entity.key, entity.kind, entity.name⟩ }
    else slot,
    some ⟨.root, entity, comment⟩)

/-- Puts an entity where its kind belongs. -/
def place (slot : Slot) (entity : Entity) (comment : Option Comment) : Slot × Option Accepted :=
  if entity.kind.isMember then slot.placeMember entity comment
  else if entity.kind.isCategoryLike then placeCategory entity comment
  else if entity.kind = .unknown then (slot, none)
  else slot.placeRoot entity comment

/-- What becomes of one entity. -/
def accept (settings : Settings) (comments : Comment.Reader) (slot : Slot) (entity : Entity) :
    Slot × Option Accepted :=
  if !settings.includesKind entity.kind then (slot.closeFor entity.kind, none)
  else if entity.rawComment.isEmpty then slot.place entity none
  else
    match comments.read entity.rawComment with
    | .error _ => (slot.closeFor entity.kind, none)
    | .ok parsed => slot.place entity (some parsed.comment)

/-- What is open after some entities. -/
def after (settings : Settings) (comments : Comment.Reader) (slot : Slot)
    (entities : List Entity) : Slot :=
  entities.foldl (fun slot entity => (slot.accept settings comments entity).1) slot

/-- The entities that are accepted, in their order. -/
def acceptAll (settings : Settings) (comments : Comment.Reader) (slot : Slot) :
    List Entity → List Accepted
  | [] => []
  | entity :: rest =>
    (slot.accept settings comments entity).2.toList ++
      acceptAll settings comments (slot.accept settings comments entity).1 rest

theorem acceptAll_append (settings : Settings) (comments : Comment.Reader) (slot : Slot)
    (xs ys : List Entity) :
    slot.acceptAll settings comments (xs ++ ys) =
      slot.acceptAll settings comments xs ++
        (slot.after settings comments xs).acceptAll settings comments ys := by
  induction xs generalizing slot with
  | nil => rfl
  | cons x xs ih => rw [List.cons_append, acceptAll, acceptAll, ih, List.append_assoc]; rfl

/-- What is accepted of an entity is of its kind. -/
theorem kind_of_mem_place {slot : Slot} {entity : Entity} {comment : Option Comment} {a : Accepted}
    (h : a ∈ (slot.place entity comment).2) : a.entity.kind = entity.kind := by
  unfold place placeMember placeCategory placeRoot at h
  split at h
  · split at h <;> cases h
    rfl
  split at h
  · split at h <;> cases h
    rfl
  split at h <;> cases h
  rfl

theorem kind_of_mem_accept {slot : Slot} {settings : Settings} {comments : Comment.Reader}
    {entity : Entity} {a : Accepted} (h : a ∈ (slot.accept settings comments entity).2) :
    a.entity.kind = entity.kind := by
  unfold accept at h
  split at h
  · cases h
  split at h
  · exact kind_of_mem_place h
  · split at h
    · cases h
    · exact kind_of_mem_place h

/-- What holds no members closes nothing. -/
theorem closeFor_of_leaf (slot : Slot) {kind : Kind} (h : kind.isContainer = false) :
    slot.closeFor kind = slot := by
  have hlike : kind.isCategoryLike = false := by
    cases kind <;> first | rfl | cases h
  rw [closeFor, h, hlike, Bool.or_self, if_neg Bool.false_ne_true]

/-- What holds no members opens nothing, and only where a group begins is the group another one. -/
theorem place_of_leaf (slot : Slot) {entity : Entity} (comment : Option Comment)
    (h : entity.kind.isContainer = false) :
    (slot.place entity comment).1.container = slot.container ∧
      (¬entity.BeginsGroup → (slot.place entity comment).1 = slot) := by
  have hlike : entity.kind.isCategoryLike = false := by
    cases hk : entity.kind <;> rw [hk] at h <;> first | rfl | cases h
  unfold place placeMember placeRoot
  rw [hlike, h, if_neg Bool.false_ne_true, if_neg Bool.false_ne_true]
  split
  · next hmember =>
    cases slot.targetOf? entity with
    | none => exact ⟨rfl, fun _ => rfl⟩
    | some target =>
      dsimp only
      refine ⟨by split <;> rfl, fun hbegins => ?_⟩
      split
      · rfl
      · next hvalue =>
        have hkind : entity.kind = .method ∨ entity.kind = .property := by
          cases hk : entity.kind <;> simp_all [Kind.isMember]
        have hnone : entity.group = none := by
          rw [← Option.not_isSome_iff_eq_none]
          exact fun hsome => hbegins ⟨hkind, hsome⟩
        rw [groupOf, if_neg hvalue, hnone, Option.none_or]
  · split <;> exact ⟨rfl, fun _ => rfl⟩

end Slot

/-! ## Counts -/

/-- Number of entities that a summary tells of. -/
def Summary.total (summary : Summary) : Nat :=
  summary.entities + summary.filtered + summary.skipped

/-! ## Readings -/

namespace Reading

/-- A reading has come as far as `slot`, after `seen` entities of which those in `accepted` went into
the store that it started with. -/
structure Follows (start : Store) (reading : Reading) (slot : Slot)
    (accepted : List Accepted) (seen : Nat) : Prop where
  container : reading.container = slot.container
  group : reading.group = slot.group
  takes : start.TakesAll accepted reading.store
  keyed : reading.store.Keyed
  opened : ∀ container, slot.container = some container →
    container.kind = container.target.key.kind ∧
      (reading.store.container? container.target).isSome = true
  entities : reading.summary.entities = accepted.length
  total : reading.summary.total = seen

variable {start : Store} {accepted : List Accepted} {reading : Reading} {slot : Slot} {seen : Nat}

namespace Follows

/-- A reading that has not begun. -/
theorem begin (h : start.Keyed) (hstore : reading.store = start)
    (hcontainer : reading.container = none) (hgroup : reading.group = none)
    (hsummary : reading.summary = {}) : reading.Follows start {} [] 0 where
  container := hcontainer
  group := hgroup
  takes := hstore ▸ .nil
  keyed := hstore ▸ h
  opened _ hc := by cases hc
  entities := by rw [hsummary]; rfl
  total := by rw [hsummary]; rfl

/-- Diagnostics change nothing that matters. -/
theorem emit (h : reading.Follows start slot accepted seen) (diagnostic : Diagnostic) :
    (reading.emit diagnostic).Follows start slot accepted seen := by
  unfold Reading.emit
  by_cases hd : diagnostic.severity.isKept = true
  · rw [if_pos hd]
    exact ⟨h.container, h.group, h.takes.said _, h.keyed.withDiagnostics _, h.opened, h.entities,
      h.total⟩
  · rw [if_neg hd]
    exact ⟨h.container, h.group, h.takes, h.keyed, h.opened, h.entities, h.total⟩

theorem foldl_emit (h : reading.Follows start slot accepted seen)
    (diagnostics : List Diagnostic) :
    (diagnostics.foldl Reading.emit reading).Follows start slot accepted seen := by
  induction diagnostics generalizing reading with
  | nil => exact h
  | cons diagnostic rest ih => exact ih (h.emit diagnostic)

theorem foldl_warn (h : reading.Follows start slot accepted seen) (location : Location)
    (warnings : List String) :
    (warnings.foldl (fun reading warning => reading.warn location warning) reading).Follows
      start slot accepted seen := by
  induction warnings generalizing reading with
  | nil => exact h
  | cons warning rest ih => exact ih (h.emit _)

theorem countSkipped (h : reading.Follows start slot accepted seen) :
    reading.countSkipped.Follows start slot accepted (seen + 1) where
  container := h.container
  group := h.group
  takes := h.takes
  keyed := h.keyed
  opened := h.opened
  entities := h.entities
  total := by
    have := h.total
    simp only [Summary.total, Reading.countSkipped] at this ⊢
    omega

theorem countFiltered (h : reading.Follows start slot accepted seen) :
    reading.countFiltered.Follows start slot accepted (seen + 1) where
  container := h.container
  group := h.group
  takes := h.takes
  keyed := h.keyed
  opened := h.opened
  entities := h.entities
  total := by
    have := h.total
    simp only [Summary.total, Reading.countFiltered] at this ⊢
    omega

theorem closeContainer (h : reading.Follows start slot accepted seen) :
    reading.closeContainer.Follows start {} accepted seen :=
  ⟨rfl, rfl, h.takes, h.keyed, (fun _ h => by cases h), h.entities, h.total⟩

theorem closeFor (h : reading.Follows start slot accepted seen) (kind : Kind) :
    (reading.closeFor kind).Follows start (slot.closeFor kind) accepted seen := by
  unfold Reading.closeFor Slot.closeFor
  split
  · exact h.closeContainer
  · exact h

/-- One more entity that went into the store. -/
theorem countEntity (h : reading.Follows start slot accepted seen) {store : Store}
    {a : Accepted} (ha : reading.store.Takes a store) :
    ({ reading with store }.countEntity).Follows start slot (accepted ++ [a]) (seen + 1) where
  container := h.container
  group := h.group
  takes := h.takes.snoc ha
  keyed := ha.keyed
  opened container hc := by
    obtain ⟨hkind, hthere⟩ := h.opened container hc
    exact ⟨hkind, ha.isSome_container? hthere⟩
  entities := by
    have := h.entities
    simp only [Reading.countEntity, List.length_append, List.length_singleton] at this ⊢
    omega
  total := by
    have := h.total
    simp only [Summary.total, Reading.countEntity] at this ⊢
    omega

theorem openContainer (h : reading.Follows start slot accepted seen) {container : OpenContainer}
    (hkind : container.kind = container.target.key.kind)
    (hthere : (reading.store.container? container.target).isSome = true) :
    (reading.openContainer container).Follows start { container := some container } accepted
      seen where
  container := rfl
  group := rfl
  takes := h.takes
  keyed := h.keyed
  opened other ho := by cases ho; exact ⟨hkind, hthere⟩
  entities := h.entities
  total := h.total

variable {entity : Entity} {comment : Option Comment}

theorem kind_key (entity : Entity) : entity.kind = entity.key.kind :=
  (NodeKey.kind_ofDeclaration ..).symm

theorem insertRoot (h : reading.Follows start slot accepted seen)
    (ha : Accepted.WellFormed ⟨.root, entity, comment⟩) :
    (reading.insertRoot entity comment).Follows start slot
      (accepted ++ [⟨.root, entity, comment⟩]) (seen + 1) :=
  h.countEntity (Store.takes_insertRoot h.keyed ha)

theorem insertContainer (h : reading.Follows start slot accepted seen)
    (ha : Accepted.WellFormed ⟨.root, entity, comment⟩) :
    (reading.insertContainer entity comment).Follows start
      { container := some ⟨.root entity.key, entity.kind, entity.name⟩ }
      (accepted ++ [⟨.root, entity, comment⟩]) (seen + 1) :=
  (h.insertRoot ha).openContainer (kind_key entity)
    ((Store.takes_insertRoot h.keyed ha).isSome_container?_of_path rfl)

theorem insertCategory (h : reading.Follows start slot accepted seen)
    (hflavor : entity.flavor.isSome = true ↔ entity.kind = .method)
    (hkind : entity.kind.isCategoryLike = true) :
    (reading.insertCategory entity comment).Follows start (Slot.placeCategory entity comment).1
      (accepted ++ (Slot.placeCategory entity comment).2.toList) (seen + 1) := by
  unfold Reading.insertCategory Slot.placeCategory
  cases hbase : entity.baseClass with
  | none =>
    rw [Option.toList_none, List.append_nil]
    exact (h.emit _).closeContainer.countSkipped
  | some baseClass =>
    have ha : Accepted.WellFormed ⟨.category baseClass, entity, comment⟩ := ⟨hflavor, hkind⟩
    have htakes := Store.takes_insertCategory h.keyed hbase ha
    exact (h.countEntity htakes).openContainer (kind_key entity)
      (htakes.isSome_container?_of_path rfl)

/-- The group that a member goes to is remembered, but by values. -/
theorem enterGroup (h : reading.Follows start slot accepted seen) (entity : Entity) :
    (reading.enterGroup entity).1.Follows start
        (if entity.kind = .enumValue then slot else { slot with group := slot.groupOf entity })
        accepted seen ∧
      (reading.enterGroup entity).2 = { entity with group := slot.groupOf entity } := by
  unfold Reading.enterGroup Slot.groupOf
  by_cases hk : entity.kind = .enumValue
  · simp only [if_pos hk]
    exact ⟨h, trivial⟩
  · simp only [if_neg hk, h.group]
    exact ⟨⟨h.container, rfl, h.takes, h.keyed, h.opened, h.entities, h.total⟩, trivial⟩

theorem insertMember (h : reading.Follows start slot accepted seen)
    (hflavor : entity.flavor.isSome = true ↔ entity.kind = .method)
    (hkind : entity.kind.isMember = true) :
    (reading.insertMember entity comment).Follows start (slot.placeMember entity comment).1
      (accepted ++ (slot.placeMember entity comment).2.toList) (seen + 1) := by
  have htarget : reading.targetOf? entity = slot.targetOf? entity := by
    rw [Reading.targetOf?, h.container]
    rfl
  unfold Reading.insertMember Slot.placeMember
  rw [htarget]
  cases ht : slot.targetOf? entity with
  | none =>
    rw [Option.toList_none, List.append_nil]
    exact (h.emit _).countSkipped
  | some target =>
    obtain ⟨hentered, hentity⟩ := h.enterGroup entity
    rcases hg : reading.enterGroup entity with ⟨after, entered⟩
    rw [hg] at hentered hentity
    obtain ⟨container, hc, rfl⟩ := Option.map_eq_some_iff.1 ht
    obtain ⟨hopen, hfits⟩ := Option.filter_eq_some_iff.1 hc
    have hopened : (if entity.kind = .enumValue then slot
        else { slot with group := slot.groupOf entity }).container = some container := by
      split <;> exact hopen
    obtain ⟨hkindOf, hthere⟩ := hentered.opened container hopened
    have haccepts : container.target.key.kind.accepts
        ({ entity with group := slot.groupOf entity } : Entity).kind = true :=
      hkindOf ▸ (Bool.and_eq_true_iff.1 hfits).1
    have hmember : Accepted.WellFormed
        ⟨.member container.target, { entity with group := slot.groupOf entity }, comment⟩ :=
      ⟨hflavor, hkind⟩
    obtain ⟨store, hstore, htakes⟩ :=
      Store.takes_insertChild? hentered.keyed hthere haccepts hmember
    subst hentity
    simp only [hstore]
    exact hentered.countEntity htakes

theorem insert_eq (reading : Reading) (entity : Entity) (comment : Option Comment) :
    reading.insert entity comment =
      if entity.kind.isMember then reading.insertMember entity comment
      else if entity.kind.isCategoryLike then reading.insertCategory entity comment
      else if entity.kind = .unknown then
        (reading.trace entity.location
          ("unknown declaration " ++ entity.name ++ " skipped")).countSkipped
      else if entity.kind.isContainer then reading.insertContainer entity comment
      else reading.insertRoot entity comment := by
  unfold Reading.insert
  cases entity.kind <;> rfl

/-- An entity goes where its kind belongs. -/
theorem insert (h : reading.Follows start slot accepted seen)
    (hflavor : entity.flavor.isSome = true ↔ entity.kind = .method) :
    (reading.insert entity comment).Follows start (slot.place entity comment).1
      (accepted ++ (slot.place entity comment).2.toList) (seen + 1) := by
  rw [insert_eq, Slot.place]
  split
  · next hmember => exact h.insertMember hflavor hmember
  split
  · next hlike => exact h.insertCategory hflavor hlike
  split
  · rw [Option.toList_none, List.append_nil]
    exact (h.emit _).countSkipped
  next hmember hlike _ =>
  have ha : Accepted.WellFormed ⟨.root, entity, comment⟩ :=
    ⟨hflavor, by simpa using hmember, by simpa using hlike⟩
  unfold Slot.placeRoot
  split
  · exact h.insertContainer ha
  · exact h.insertRoot ha

/-- What becomes of an entity does not depend on the store. -/
theorem readEntity (h : reading.Follows start slot accepted seen) (settings : Settings)
    (comments : Comment.Reader) (hflavor : entity.flavor.isSome = true ↔ entity.kind = .method) :
    (reading.readEntity settings comments entity).Follows start
      (slot.accept settings comments entity).1
      (accepted ++ (slot.accept settings comments entity).2.toList) (seen + 1) := by
  unfold Reading.readEntity Slot.accept
  split
  · rw [Option.toList_none, List.append_nil]
    exact (h.countFiltered.closeFor _).emit _
  split
  · exact h.insert hflavor
  cases comments.read entity.rawComment with
  | error fault =>
    rw [Option.toList_none, List.append_nil]
    exact (h.emit _).countSkipped.closeFor _
  | ok parsed => exact (h.foldl_warn _ _).insert hflavor

/-- One step of a walk: its warnings, then its entity if it has one. -/
theorem readStep (h : reading.Follows start slot accepted seen) (settings : Settings)
    (comments : Comment.Reader) (step : List Diagnostic × Option Entity)
    (hflavor : ∀ entity, step.2 = some entity →
      (entity.flavor.isSome = true ↔ entity.kind = .method)) :
    (reading.readStep settings comments step).Follows start
      (slot.after settings comments step.2.toList)
      (accepted ++ slot.acceptAll settings comments step.2.toList)
      (seen + step.2.toList.length) := by
  have hwarned := h.foldl_emit step.1
  unfold Reading.readStep
  cases hs : step.2 with
  | none =>
    rw [Option.toList_none, Slot.acceptAll, List.append_nil]
    exact hwarned
  | some entity =>
    rw [Option.toList_some, Slot.acceptAll, Slot.acceptAll, List.append_nil]
    exact hwarned.readEntity settings comments (hflavor entity hs)

/-- A whole walk. -/
theorem foldl_readStep (h : reading.Follows start slot accepted seen) (settings : Settings)
    (comments : Comment.Reader) (steps : List (List Diagnostic × Option Entity))
    (hflavor : ∀ step ∈ steps, ∀ entity, step.2 = some entity →
      (entity.flavor.isSome = true ↔ entity.kind = .method)) :
    (steps.foldl (Reading.readStep settings comments) reading).Follows start
      (slot.after settings comments (steps.filterMap (·.2)))
      (accepted ++ slot.acceptAll settings comments (steps.filterMap (·.2)))
      (seen + (steps.filterMap (·.2)).length) := by
  induction steps generalizing reading slot accepted seen with
  | nil =>
    rw [List.filterMap_nil, Slot.acceptAll, List.append_nil]
    exact h
  | cons step rest ih =>
    have hstep := h.readStep settings comments step (hflavor step List.mem_cons_self)
    have hrest := ih hstep fun s hs => hflavor s (List.mem_cons_of_mem _ hs)
    have hsplit : (step :: rest).filterMap (·.2) = step.2.toList ++ rest.filterMap (·.2) := by
      cases hs : step.2 <;> simp [hs]
    rw [hsplit, Slot.acceptAll_append, Slot.after, List.foldl_append, List.length_append,
      ← List.append_assoc, ← Nat.add_assoc]
    exact hrest

end Follows

end Reading

/-! ## Entities of a walk -/

namespace Walk

/-- Methods alone belong to instances or to the class. -/
theorem flavor_entity (file : SourceFile) (groupFrom : Nat) (visit : Visit) {kind : Kind}
    (h : visit.cursor.entityKind? visit.inUnnamedEnum = some kind) :
    (entity file groupFrom visit kind).flavor.isSome = true ↔
      (entity file groupFrom visit kind).kind = .method := by
  show visit.cursor.flavor?.isSome = true ↔ kind = .method
  unfold Cursor.entityKind? at h
  unfold Cursor.flavor?
  cases hk : visit.cursor.kind <;> simp only [hk] at h ⊢ <;> (try split at h) <;> cases h <;>
    simp

theorem flavor_of_nextFrom {file : SourceFile} {lastOffset : Option Nat} {groupFrom : Nat}
    {stack : List Visit} {found : Entity} {walk : Walk}
    (h : (nextFrom file lastOffset groupFrom stack).next = some (found, walk)) :
    found.flavor.isSome = true ↔ found.kind = .method := by
  fun_induction nextFrom file lastOffset groupFrom stack with
  | case1 => cases h
  | case2 visit rest _ ih => exact ih h
  | case3 visit rest _ _ ih => exact ih h
  | case4 visit rest _ kind _ skip _ ih => exact ih h
  | case5 visit rest _ kind hkind _ entity =>
    simp only [Option.some.injEq, Prod.mk.injEq] at h
    rw [← h.1]
    exact flavor_entity file groupFrom visit hkind

theorem flavor_of_mem_steps {file : SourceFile} {walk : Walk}
    {step : List Diagnostic × Option Entity} (h : step ∈ walk.steps file) {found : Entity}
    (hfound : step.2 = some found) : found.flavor.isSome = true ↔ found.kind = .method := by
  fun_induction steps file walk with
  | case1 walk _ =>
    cases List.mem_singleton.1 h
    cases hfound
  | case2 walk other rest hnext ih =>
    rcases List.mem_cons.1 h with rfl | h
    · cases hfound
      exact flavor_of_nextFrom hnext
    · exact ih h

end Walk

end DeclDoc
