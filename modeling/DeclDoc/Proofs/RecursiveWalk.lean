import DeclDoc.Proofs.Positional.Totality

/-!
# The walk as a recursion

A walk keeps the cursors still to be visited on a stack and hands out one entity at a time. What it
comes to can be said without a stack (`Cursor.explore`): a tree is visited in pre-order, the cursors
below one that is no declaration stand in its place, and a declaration is left out together with what
is below it where it has no name or is named before the last one.

`Walk.Drains file walk events`: the walk comes to an end, and comes to these events on the way.
`Positional.pull_explored`: it does for any cursors of any front-end, the events are those of the
recursion, and its entities are named in ascending order.
-/

set_option autoImplicit false

namespace DeclDoc

open Cursor (preorderAll)

/-! ## Findings -/

/-- A declaration where it is found, named at an offset. -/
structure Finding where
  kind : Kind
  name : String
  flavor : Option Flavor
  parent : Option ParentRef
  offset : Nat
deriving DecidableEq, Repr

/-- What an entity says of the declaration that it was found as. -/
def Finding.ofEntity (found : Entity × Nat) : Finding where
  kind := found.1.kind
  name := found.1.name
  flavor := found.1.flavor
  parent := found.1.parent
  offset := found.2

/-- What a walk comes to next. -/
inductive Event (α : Type) where
  | warned (diagnostic : Diagnostic)
  | found (value : α)
deriving DecidableEq, Repr

namespace Event

variable {α β : Type}

def map (f : α → β) : Event α → Event β
  | .warned diagnostic => .warned diagnostic
  | .found value => .found (f value)

def found? : Event α → Option α
  | .warned _ => none
  | .found value => some value

/-- What a step of a walk comes to. -/
def ofStep (step : List Diagnostic × Option Entity) : List (Event Entity) :=
  step.1.map .warned ++ step.2.toList.map .found

theorem map_map_warned (f : α → β) (diagnostics : List Diagnostic) :
    (diagnostics.map Event.warned).map (map f) = diagnostics.map .warned := by
  rw [List.map_map]
  rfl

theorem filterMap_found?_warned (diagnostics : List Diagnostic) :
    (diagnostics.map Event.warned).filterMap (found? (α := α)) = [] := by
  rw [List.filterMap_map]
  exact List.filterMap_eq_nil_iff.2 fun _ _ => rfl

end Event

/-! ## The recursion -/

/-- What visiting comes to, and where the last declaration that was found is named. -/
structure Explored where
  events : List (Event Finding) := []
  last : Option Nat

/-- More is visited after the last declaration that was found. -/
def Explored.andThen (first : Explored) (more : Option Nat → Explored) : Explored where
  events := first.events ++ (more first.last).events
  last := (more first.last).last

namespace Cursor

/-- A warning that a declaration is left out, where its name stands. -/
def leftOut (file : SourceFile) (cursor : Cursor) (skip : Walk.Skip) : Event Finding :=
  .warned { severity := .warning, location := some (cursor.locationIn file), message := skip.message }

/-- The declaration of a cursor. A member stands in the container around it, except for one that
stands directly in an enumeration without a name. -/
def finding (cursor : Cursor) (kind : Kind) (parent : Option ParentRef) (inUnnamedEnum : Bool) :
    Finding where
  kind
  name := cursor.spelling
  flavor := cursor.flavor?
  parent := if kind.isMember && !inUnnamedEnum then parent else none
  offset := cursor.offset

mutual

/-- Visits a tree in the container `parent`, after a declaration that is named at `last`. -/
def explore (file : SourceFile) (parent : Option ParentRef) (inUnnamedEnum : Bool)
    (last : Option Nat) : Cursor → Explored
  | ⟨kind, spelling, offset, extent, location, detail, children⟩ =>
    let cursor : Cursor := ⟨kind, spelling, offset, extent, location, detail, children⟩
    if kind = .compoundStatement then { last }
    else
      match cursor.entityKind? inUnnamedEnum with
      | none => exploreAll file parent (kind == .enumeration) last children
      | some declared =>
        if spelling = "" ∧ declared ≠ .classExtension then
          { events := [cursor.leftOut file (.unnamed declared)], last }
        else if last.any (offset < ·) then
          { events := [cursor.leftOut file (.outOfOrder declared spelling)], last }
        else
          let found : Explored :=
            { events := [.found (cursor.finding declared parent inUnnamedEnum)], last := some offset }
          if declared.isContainer then
            found.andThen fun last =>
              exploreAll file (some ⟨declared, spelling, cursor.locationIn file⟩) false last children
          else found

/-- Visits trees one after the other. -/
def exploreAll (file : SourceFile) (parent : Option ParentRef) (inUnnamedEnum : Bool)
    (last : Option Nat) : List Cursor → Explored
  | [] => { last }
  | cursor :: rest =>
    (explore file parent inUnnamedEnum last cursor).andThen fun last =>
      exploreAll file parent inUnnamedEnum last rest

end

end Cursor

namespace Explored

theorem andThen_assoc (first : Explored) (second third : Option Nat → Explored) :
    (first.andThen second).andThen third =
      first.andThen fun last => (second last).andThen third := by
  simp [andThen, List.append_assoc]

theorem empty_andThen (last : Option Nat) (more : Option Nat → Explored) :
    ({ last } : Explored).andThen more = more last := rfl

end Explored

namespace Cursor

variable {file : SourceFile} {parent : Option ParentRef} {inUnnamedEnum : Bool} {last : Option Nat}
  {cursor : Cursor}

theorem explore_of_compoundStatement (h : cursor.kind = .compoundStatement) :
    cursor.explore file parent inUnnamedEnum last = { last } := by
  obtain ⟨⟩ := cursor
  rw [explore]
  exact if_pos h

theorem explore_of_none (hkind : cursor.kind ≠ .compoundStatement)
    (h : cursor.entityKind? inUnnamedEnum = none) :
    cursor.explore file parent inUnnamedEnum last =
      exploreAll file parent (cursor.kind == .enumeration) last cursor.children := by
  obtain ⟨⟩ := cursor
  rw [explore]
  dsimp only
  rw [if_neg hkind, h]

theorem explore_of_skip {kind : Kind} {skip : Walk.Skip} (hkind : cursor.kind ≠ .compoundStatement)
    (h : cursor.entityKind? inUnnamedEnum = some kind)
    (hskip : Walk.skip? cursor kind last = some skip) :
    cursor.explore file parent inUnnamedEnum last = { events := [cursor.leftOut file skip], last } := by
  obtain ⟨⟩ := cursor
  unfold Walk.skip? at hskip
  rw [explore]
  dsimp only at hskip ⊢
  rw [if_neg hkind, h]
  dsimp only
  split at hskip
  · next hunnamed =>
    cases hskip
    rw [if_pos hunnamed]
  · next hnamed =>
    rw [if_neg hnamed]
    split at hskip
    · next hbefore =>
      cases hskip
      rw [if_pos hbefore]
    · cases hskip

theorem explore_of_found {kind : Kind} (hkind : cursor.kind ≠ .compoundStatement)
    (h : cursor.entityKind? inUnnamedEnum = some kind) (hskip : Walk.skip? cursor kind last = none) :
    cursor.explore file parent inUnnamedEnum last =
      Explored.andThen
        { events := [.found (cursor.finding kind parent inUnnamedEnum)], last := some cursor.offset }
        fun last =>
          if kind.isContainer then
            exploreAll file (some ⟨kind, cursor.spelling, cursor.locationIn file⟩) false last
              cursor.children
          else { last } := by
  obtain ⟨⟩ := cursor
  unfold Walk.skip? at hskip
  rw [explore]
  dsimp only at hskip ⊢
  rw [if_neg hkind, h]
  dsimp only
  split at hskip
  · cases hskip
  · next hnamed =>
    rw [if_neg hnamed]
    split at hskip
    · cases hskip
    · next hafter =>
      rw [if_neg hafter]
      split
      · rfl
      · rw [Explored.andThen, List.append_nil]

end Cursor

/-! ## Visits -/

@[simp] theorem Walk.Step.next_warn (diagnostic : Diagnostic) (step : Walk.Step) :
    (step.warn diagnostic).next = step.next := rfl

namespace Walk

variable {file : SourceFile} {last : Option Nat}

/-- The recursion over the visits on a stack. -/
def exploreVisits (file : SourceFile) (last : Option Nat) : List Visit → Explored
  | [] => { last }
  | visit :: rest =>
    (visit.cursor.explore file visit.parent visit.inUnnamedEnum last).andThen fun last =>
      exploreVisits file last rest

theorem exploreVisits_append (xs ys : List Visit) :
    exploreVisits file last (xs ++ ys) =
      (exploreVisits file last xs).andThen fun last => exploreVisits file last ys := by
  induction xs generalizing last with
  | nil => rfl
  | cons visit xs ih =>
    rw [List.cons_append, exploreVisits, exploreVisits, Explored.andThen_assoc]
    simp only [ih]

/-- Visits of cursors in one place. -/
theorem exploreVisits_map (parent : Option ParentRef) (inUnnamedEnum : Bool) (cursors : List Cursor) :
    exploreVisits file last (cursors.map fun cursor => ⟨cursor, parent, inUnnamedEnum⟩) =
      Cursor.exploreAll file parent inUnnamedEnum last cursors := by
  induction cursors generalizing last with
  | nil => rfl
  | cons cursor rest ih =>
    rw [List.map_cons, exploreVisits, Cursor.exploreAll]
    simp only [ih]

theorem exploreVisits_childVisits (cursor : Cursor) (parent : Option ParentRef)
    (inUnnamedEnum : Bool) (rest : List Visit) :
    exploreVisits file last (childVisits cursor parent inUnnamedEnum ++ rest) =
      (Cursor.exploreAll file parent inUnnamedEnum last cursor.children).andThen fun last =>
        exploreVisits file last rest := by
  rw [exploreVisits_append, childVisits, exploreVisits_map]

/-- What an entity says of its cursor. -/
theorem ofEntity_entity (groupFrom : Nat) (visit : Visit) (kind : Kind) :
    Finding.ofEntity (entity file groupFrom visit kind, visit.cursor.offset) =
      visit.cursor.finding kind visit.parent visit.inUnnamedEnum := by
  unfold Finding.ofEntity Cursor.finding entity isNestedRoot
  cases visit.inUnnamedEnum <;> cases kind.isMember <;> cases visit.parent <;> rfl

theorem le_of_skip?_eq_none {cursor : Cursor} {kind : Kind} {before : Nat}
    (hskip : skip? cursor kind last = none) (hbefore : last = some before) :
    before ≤ cursor.offset := by
  subst hbefore
  unfold skip? at hskip
  split at hskip
  · cases hskip
  · split at hskip
    · cases hskip
    · next hafter => simpa using hafter

/-- One step of a walk comes to what the recursion comes to up to the next declaration, and is not
named before the last one. -/
theorem events_exploreVisits (file : SourceFile) (last : Option Nat) (groupFrom : Nat)
    (stack : List Visit) :
    let step := nextFrom file last groupFrom stack
    match step.next with
    | none => (exploreVisits file last stack).events = step.diagnostics.map .warned
    | some (found, rest) => ∃ offset, rest.lastOffset = some offset ∧
        (∀ before, last = some before → before ≤ offset) ∧
        (exploreVisits file last stack).events =
          step.diagnostics.map .warned ++
            .found (.ofEntity (found, offset)) ::
              (exploreVisits file (some offset) rest.stack).events := by
  dsimp only
  fun_induction nextFrom file last groupFrom stack with
  | case1 => rfl
  | case2 visit rest hkind ih =>
    rw [exploreVisits, Cursor.explore_of_compoundStatement hkind, Explored.empty_andThen]
    exact ih
  | case3 visit rest hkind hnone ih =>
    rw [exploreVisits, Cursor.explore_of_none hkind hnone]
    rw [exploreVisits_childVisits] at ih
    exact ih
  | case4 visit rest hkind kind hsome skip hskip ih =>
    rw [exploreVisits, Cursor.explore_of_skip hkind hsome hskip, Step.next_warn]
    split at ih
    · exact congrArg (List.cons _) ih
    · obtain ⟨offset, hoffset, hafter, hevents⟩ := ih
      exact ⟨offset, hoffset, hafter, congrArg (List.cons _) hevents⟩
  | case5 visit rest hkind kind hsome hskip found =>
    refine ⟨visit.cursor.offset, rfl, fun before => le_of_skip?_eq_none hskip, ?_⟩
    have hbelow : exploreVisits file (some visit.cursor.offset)
        (memberVisits found visit.cursor ++ rest) =
          (if kind.isContainer then
            Cursor.exploreAll file (some ⟨kind, visit.cursor.spelling, visit.cursor.locationIn file⟩)
              false (some visit.cursor.offset) visit.cursor.children
          else { last := some visit.cursor.offset }).andThen fun last =>
            exploreVisits file last rest := by
      have hsame : found.kind = kind ∧ found.name = visit.cursor.spelling ∧
          found.location = visit.cursor.locationIn file := ⟨rfl, rfl, rfl⟩
      rw [memberVisits, hsame.1, hsame.2.1, hsame.2.2]
      split
      · rw [exploreVisits_childVisits]
      · rfl
    rw [exploreVisits, Cursor.explore_of_found hkind hsome hskip, Explored.andThen_assoc, hbelow,
      ofEntity_entity]
    rfl

theorem events_of_next_eq_none {walk : Walk} (h : (walk.next file).next = none) :
    (exploreVisits file walk.lastOffset walk.stack).events =
      (walk.next file).diagnostics.map .warned := by
  have hevents := events_exploreVisits file walk.lastOffset walk.groupFrom walk.stack
  dsimp only at hevents
  rwa [← next, h] at hevents

theorem events_of_next_eq_some {walk rest : Walk} {found : Entity}
    (h : (walk.next file).next = some (found, rest)) :
    ∃ offset, rest.lastOffset = some offset ∧
      (∀ before, walk.lastOffset = some before → before ≤ offset) ∧
      (exploreVisits file walk.lastOffset walk.stack).events =
        (walk.next file).diagnostics.map .warned ++
          .found (.ofEntity (found, offset)) ::
            (exploreVisits file rest.lastOffset rest.stack).events := by
  have hevents := events_exploreVisits file walk.lastOffset walk.groupFrom walk.stack
  dsimp only at hevents
  rw [← next, h] at hevents
  obtain ⟨offset, hoffset, hafter, hevents⟩ := hevents
  exact ⟨offset, hoffset, hafter, hoffset ▸ hevents⟩

/-! ## Draining -/

/-- The walk comes to an end, and warns and finds on the way what the events say. -/
inductive Drains (file : SourceFile) : Walk → List (Event (Entity × Nat)) → Prop where
  | last {walk : Walk} (h : (walk.next file).next = none) :
      Drains file walk ((walk.next file).diagnostics.map .warned)
  | next {walk rest : Walk} {found : Entity} {offset : Nat} {events : List (Event (Entity × Nat))}
      (h : (walk.next file).next = some (found, rest)) (hoffset : rest.lastOffset = some offset)
      (hrest : Drains file rest events) :
      Drains file walk
        ((walk.next file).diagnostics.map .warned ++ .found (found, offset) :: events)

/-- The offsets at which declarations are named. -/
def offsetsOf (events : List (Event (Entity × Nat))) : List Nat :=
  (events.filterMap Event.found?).map (·.2)

/-- Draining a walk comes to an end, and to what the recursion comes to. -/
theorem exists_drains (file : SourceFile) (walk : Walk) :
    ∃ events, walk.Drains file events ∧
      events.map (Event.map Finding.ofEntity) =
        (exploreVisits file walk.lastOffset walk.stack).events := by
  fun_induction steps file walk with
  | case1 walk hnone =>
    exact ⟨_, .last hnone, (Event.map_map_warned _ _).trans (events_of_next_eq_none hnone).symm⟩
  | case2 walk found rest hsome ih =>
    obtain ⟨offset, hoffset, -, hevents⟩ := events_of_next_eq_some hsome
    obtain ⟨events, hdrains, hrest⟩ := ih
    refine ⟨_, .next hsome hoffset hdrains, ?_⟩
    rw [List.map_append, Event.map_map_warned, List.map_cons, hrest, hevents]
    rfl

/-- No declaration is named before one that was found earlier. -/
theorem Drains.offsets {walk : Walk} {events : List (Event (Entity × Nat))}
    (h : walk.Drains file events) :
    (offsetsOf events).Pairwise (· ≤ ·) ∧
      ∀ before, walk.lastOffset = some before → ∀ offset ∈ offsetsOf events, before ≤ offset := by
  induction h with
  | last h =>
    rw [offsetsOf, Event.filterMap_found?_warned]
    exact ⟨.nil, fun _ _ _ h => by cases h⟩
  | @next walk rest found offset events h hoffset _ ih =>
    obtain ⟨named, hnamed, hafter, -⟩ := events_of_next_eq_some h
    rw [hoffset, Option.some_inj] at hnamed
    subst hnamed
    obtain ⟨hpairs, hbehind⟩ := ih
    have hsplit : offsetsOf ((walk.next file).diagnostics.map .warned ++
        .found (found, offset) :: events) = offset :: offsetsOf events := by
      rw [offsetsOf, List.filterMap_append, Event.filterMap_found?_warned]
      rfl
    rw [hsplit]
    refine ⟨List.pairwise_cons.2 ⟨hbehind offset hoffset, hpairs⟩, fun before hbefore => ?_⟩
    have hfirst := hafter before hbefore
    exact List.forall_mem_cons.2
      ⟨hfirst, fun o ho => Nat.le_trans hfirst (hbehind offset hoffset o ho)⟩

/-- The steps of a walk come to the same events. -/
theorem Drains.steps {walk : Walk} {events : List (Event (Entity × Nat))}
    (h : walk.Drains file events) :
    (walk.steps file).flatMap Event.ofStep = events.map (Event.map Prod.fst) := by
  induction h with
  | last h =>
    rw [Walk.steps]
    split
    · simp [Event.ofStep, Event.map]
    · next hsome => rw [h] at hsome; cases hsome
  | next h hoffset _ ih =>
    rw [Walk.steps]
    split
    · next hnone => rw [h] at hnone; cases hnone
    · next found rest hsome =>
      rw [h] at hsome
      cases hsome
      rw [List.flatMap_cons, ih, List.map_append, Event.map_map_warned, List.map_cons, Event.ofStep,
        List.append_assoc]
      rfl

end Walk

/-! ## Files -/

/-- The front-end's diagnostics come before what its cursors come to. -/
theorem TranslationUnit.flatMap_ofStep_steps (unit : TranslationUnit) (file : SourceFile) :
    (unit.steps file).flatMap Event.ofStep =
      unit.diagnostics.map .warned ++
        ((Walk.ofCursors unit.cursors).steps file).flatMap Event.ofStep := by
  obtain ⟨front, diagnostics, hsteps⟩ := (Walk.ofCursors unit.cursors).exists_last_steps file
  unfold steps
  rw [hsteps]
  cases front <;> simp [Event.ofStep]

namespace Positional

/-- Whatever cursors a front-end gives, if they begin at boundaries of the source, their entities are
pulled to the last without a crash. Draining the walk comes to an end, with the declarations and
warnings of the recursion in their order, and declarations are named in ascending order. These are
the entities and warnings of the file, behind what the front-end said itself. -/
theorem pull_explored (path : String) {source : List Char} {unit : TranslationUnit}
    (h : ∀ cursor ∈ preorderAll unit.cursors, Text.IsBoundary source cursor.extent) :
    let file := SourceFile.ofText path source
    ∃ events, (Walk.ofCursors unit.cursors).Drains file events ∧
      events.map (Event.map Finding.ofEntity) =
        (Cursor.exploreAll file none false none unit.cursors).events ∧
      (Walk.offsetsOf events).Pairwise (· ≤ ·) ∧
      pull path source unit = .ok (unit.steps file) ∧
      (unit.steps file).flatMap Event.ofStep =
        unit.diagnostics.map .warned ++ events.map (Event.map Prod.fst) := by
  intro file
  obtain ⟨events, hdrains, hevents⟩ := (Walk.ofCursors unit.cursors).exists_drains file
  have hexplored : Walk.exploreVisits file none (Walk.ofCursors unit.cursors).stack =
      Cursor.exploreAll file none false none unit.cursors := Walk.exploreVisits_map none false _
  refine ⟨events, hdrains, ?_, hdrains.offsets.1, pull_eq_of_boundaries path h, ?_⟩
  · rw [hevents, ← hexplored]
    rfl
  · rw [unit.flatMap_ofStep_steps, hdrains.steps]

/-- A tree that no scanner makes: members below statements and in an enumeration without a name, a
member without a name, and a protocol that is named before the class behind which it stands. -/
def oddTree : TranslationUnit where
  cursors := [
    { kind := .interface, spelling := "C", offset := 3, extent := 2, children := [
      { kind := .other, spelling := "", offset := 3, extent := 2, children := [
        { kind := .instanceMethod, spelling := "m", offset := 5, extent := 2 }] },
      { kind := .enumeration, spelling := "", offset := 5, extent := 2, children := [
        { kind := .enumerator, spelling := "A", offset := 6, extent := 2 },
        { kind := .classMethod, spelling := "n", offset := 6, extent := 2 }] },
      { kind := .property, spelling := "", offset := 7, extent := 2 },
      { kind := .compoundStatement, spelling := "", offset := 7, extent := 2, children := [
        { kind := .variable, spelling := "x", offset := 7, extent := 2 }] },
      { kind := .category, spelling := "", offset := 7, extent := 2 }] },
    { kind := .protocol, spelling := "P", offset := 1, extent := 0, children := [
      { kind := .instanceMethod, spelling := "q", offset := 8, extent := 2 }] }]

theorem pull_explored_oddTree :
    (∀ cursor ∈ preorderAll oddTree.cursors, Text.IsBoundary "é x y z".toList cursor.extent) ∧
      (∃ events, (Walk.ofCursors oddTree.cursors).Drains (.ofText "A.h" "é x y z".toList) events ∧
        events.map (Event.map Finding.ofEntity) = [
          .found ⟨.interface, "C", none, none, 3⟩,
          .found ⟨.method, "m", some .ofInstances, some ⟨.interface, "C", ⟨"A.h", 1, 4⟩⟩, 5⟩,
          .found ⟨.constant, "A", none, none, 6⟩,
          .found ⟨.method, "n", some .ofClass, none, 6⟩,
          .warned ⟨.warning, some ⟨"A.h", 1, 8⟩, "unnamed property skipped"⟩,
          .found ⟨.classExtension, "", none, none, 7⟩,
          .warned ⟨.warning, some ⟨"A.h", 1, 2⟩, "protocol P is out of source order, skipped"⟩]) ∧
      ∃ steps, pull "A.h" "é x y z".toList oddTree = .ok steps := by
  have hboundaries : ∀ cursor ∈ preorderAll oddTree.cursors,
      Text.IsBoundary "é x y z".toList cursor.extent := by
    have hextents : ∀ cursor ∈ preorderAll oddTree.cursors, cursor.extent = 0 ∨ cursor.extent = 2 := by
      decide +kernel
    intro cursor hc
    rcases hextents cursor hc with h | h <;> rw [h]
    · exact ⟨[], _, rfl, rfl⟩
    · exact ⟨['é'], _, rfl, rfl⟩
  obtain ⟨events, hdrains, hevents, -, hpull, -⟩ := pull_explored "A.h" hboundaries
  exact ⟨hboundaries, ⟨events, hdrains, hevents.trans (by decide +kernel)⟩, _, hpull⟩

end Positional

end DeclDoc
