import DeclDoc.Cursor
import DeclDoc.Entity
import DeclDoc.SourceFile

/-! # Walking a file's declarations

A walk hands out the entities of a cursor tree one at a time, in the order of the source. The cursors
still to be visited are on a stack. What cannot be an entity is skipped with a warning.
`Walk.size_next_lt`: every entity leaves less to visit.
-/

set_option autoImplicit false

namespace DeclDoc

/-- The kind of entity that a cursor declares, if any. The values of an enumeration without a name
are constants. -/
def Cursor.entityKind? (cursor : Cursor) (inUnnamedEnum : Bool) : Option Kind :=
  match cursor.kind with
  | .interface | .implementation => some .interface
  | .category | .categoryImplementation =>
    some (if cursor.spelling = "" then .classExtension else .category)
  | .protocol => some .protocol
  | .instanceMethod | .classMethod => some .method
  | .property => some .property
  | .function => some .function
  | .enumeration => if cursor.spelling = "" then none else some .enumeration
  | .enumerator => some (if inUnnamedEnum then .constant else .enumValue)
  | .typedef => some .typedef
  | .variable => some .constant
  | .struct | .classDeclaration => some .struct
  | .union => some .union
  | .macroDefinition => some .macroDefinition
  | .translationUnit | .compoundStatement | .other => none

def Cursor.flavor? (cursor : Cursor) : Option Flavor :=
  match cursor.kind with
  | .instanceMethod => some .ofInstances
  | .classMethod => some .ofClass
  | _ => none

/-- Where a cursor's name stands in a file. -/
def Cursor.locationIn (file : SourceFile) (cursor : Cursor) : Location :=
  cursor.location.getD (file.location cursor.offset)

/-- A cursor to be visited, with the container that it stands in. -/
structure Visit where
  cursor : Cursor
  parent : Option ParentRef := none
  inUnnamedEnum : Bool := false
deriving Inhabited

/-- What is left of a walk. `lastOffset` is where the last entity is named, and group markers are
looked for from `groupFrom` on. -/
structure Walk where
  stack : List Visit
  lastOffset : Option Nat := none
  groupFrom : Nat := 0

namespace Walk

def ofCursors (cursors : List Cursor) : Walk := { stack := cursors.map fun cursor => { cursor } }

/-- Why a declaration is left out. -/
inductive Skip where
  | unnamed (kind : Kind)
  | outOfOrder (kind : Kind) (name : String)
deriving DecidableEq, Repr

def Skip.message : Skip → String
  | .unnamed kind => "unnamed " ++ kind.name ++ " skipped"
  | .outOfOrder kind name => kind.name ++ " " ++ name ++ " is out of source order, skipped"

/-- Whether a cursor of a kind must be left out after an entity at `lastOffset`. -/
def skip? (cursor : Cursor) (kind : Kind) (lastOffset : Option Nat) : Option Skip :=
  if cursor.spelling = "" ∧ kind ≠ .classExtension then some (.unnamed kind)
  else if lastOffset.any (cursor.offset < ·) then some (.outOfOrder kind cursor.spelling)
  else none

/-- A declaration that is no member stands at the root, also inside a container. -/
def isNestedRoot (visit : Visit) (kind : Kind) : Bool := visit.parent.isSome && !kind.isMember

def entity (file : SourceFile) (groupFrom : Nat) (visit : Visit) (kind : Kind) : Entity :=
  let cursor := visit.cursor
  { kind
    name := cursor.spelling
    location := cursor.locationIn file
    rawComment := file.commentBefore cursor.extent
    parent := if visit.inUnnamedEnum || isNestedRoot visit kind then none else visit.parent
    signature := if kind = .method ∨ kind = .function then cursor.detail.signature else []
    flavor := cursor.flavor?
    typeName := cursor.detail.typeName
    superclass := cursor.detail.superclass
    protocols := cursor.detail.protocols
    baseClass := cursor.detail.baseClass
    attributes := cursor.detail.attributes
    group := if kind.isMember then file.groupBetween groupFrom cursor.extent else none }

def size (visits : List Visit) : Nat := Cursor.sizes (visits.map Visit.cursor)

/-- The children of a visited cursor, as visits of their own. -/
def childVisits (cursor : Cursor) (parent : Option ParentRef) (inUnnamedEnum : Bool) :
    List Visit :=
  cursor.children.map fun child => ⟨child, parent, inUnnamedEnum⟩

theorem size_childVisits (cursor : Cursor) (parent : Option ParentRef) (inUnnamedEnum : Bool) :
    size (childVisits cursor parent inUnnamedEnum) + 1 = cursor.size := by
  simp [size, childVisits, Cursor.size_eq, Function.comp_def]

theorem size_append (xs ys : List Visit) : size (xs ++ ys) = size xs + size ys := by
  simp [size, Cursor.sizes_append]

theorem size_cons (x : Visit) (xs : List Visit) : size (x :: xs) = x.cursor.size + size xs := rfl

theorem size_childVisits_append_lt (visit : Visit) (parent : Option ParentRef)
    (inUnnamedEnum : Bool) (rest : List Visit) :
    size (childVisits visit.cursor parent inUnnamedEnum ++ rest) < size (visit :: rest) := by
  have := size_childVisits visit.cursor parent inUnnamedEnum
  rw [size_append, size_cons]
  omega

/-- The visits of what a container holds; other entities hold nothing. -/
def memberVisits (entity : Entity) (cursor : Cursor) : List Visit :=
  if entity.kind.isContainer then
    childVisits cursor (some ⟨entity.kind, entity.name, entity.location⟩) false
  else []

theorem size_memberVisits_append_lt (entity : Entity) (visit : Visit) (rest : List Visit) :
    size (memberVisits entity visit.cursor ++ rest) < size (visit :: rest) := by
  unfold memberVisits
  split
  · exact size_childVisits_append_lt ..
  · rw [List.nil_append, size_cons, Cursor.size_eq]
    omega

/-- What one step of a walk gives: warnings, and the next entity with the walk after it. -/
structure Step where
  diagnostics : List Diagnostic := []
  next : Option (Entity × Walk) := none

/-- The same step after one more warning. -/
def Step.warn (diagnostic : Diagnostic) (step : Step) : Step :=
  { step with diagnostics := diagnostic :: step.diagnostics }

/-- Visits cursors until one is an entity. -/
def nextFrom (file : SourceFile) (lastOffset : Option Nat) (groupFrom : Nat) :
    (stack : List Visit) → Step
  | [] => {}
  | visit :: rest =>
    if visit.cursor.kind = .compoundStatement then nextFrom file lastOffset groupFrom rest
    else
      match visit.cursor.entityKind? visit.inUnnamedEnum with
      | none =>
        nextFrom file lastOffset groupFrom
          (childVisits visit.cursor visit.parent (visit.cursor.kind == .enumeration) ++ rest)
      | some kind =>
        match skip? visit.cursor kind lastOffset with
        | some skip =>
          (nextFrom file lastOffset groupFrom rest).warn
            { severity := .warning
              location := some (visit.cursor.locationIn file)
              message := skip.message }
        | none =>
          let found := entity file groupFrom visit kind
          { next := some (found,
              { stack := memberVisits found visit.cursor ++ rest
                lastOffset := some visit.cursor.offset
                groupFrom :=
                  if isNestedRoot visit kind then groupFrom else visit.cursor.offset }) }
termination_by stack => size stack
decreasing_by
  · rw [size_cons, Cursor.size_eq]; omega
  · exact size_childVisits_append_lt ..
  · rw [size_cons, Cursor.size_eq]; omega

/-- The next entity, if there is one. -/
def next (file : SourceFile) (walk : Walk) : Step :=
  nextFrom file walk.lastOffset walk.groupFrom walk.stack

theorem size_nextFrom_lt {file : SourceFile} {lastOffset : Option Nat} {groupFrom : Nat}
    {stack : List Visit} {found : Entity} {walk : Walk}
    (h : (nextFrom file lastOffset groupFrom stack).next = some (found, walk)) :
    size walk.stack < size stack := by
  fun_induction nextFrom file lastOffset groupFrom stack with
  | case1 => simp at h
  | case2 visit rest _ ih =>
    have := ih h
    rw [size_cons, Cursor.size_eq]
    omega
  | case3 visit rest _ _ ih => exact Nat.lt_trans (ih h) (size_childVisits_append_lt ..)
  | case4 visit rest _ kind _ skip _ ih =>
    have := ih h
    rw [size_cons, Cursor.size_eq]
    omega
  | case5 visit rest _ kind _ _ entity =>
    simp only [Option.some.injEq, Prod.mk.injEq] at h
    rw [← h.2]
    exact size_memberVisits_append_lt ..

/-- Every entity leaves less to visit. -/
theorem size_next_lt {file : SourceFile} {walk rest : Walk} {found : Entity}
    (h : (walk.next file).next = some (found, rest)) : size rest.stack < size walk.stack :=
  size_nextFrom_lt h

/-- All steps of a walk, the last one without an entity. -/
def steps (file : SourceFile) (walk : Walk) : List (List Diagnostic × Option Entity) :=
  match _step : (walk.next file).next with
  | none => [((walk.next file).diagnostics, none)]
  | some (found, rest) => ((walk.next file).diagnostics, some found) :: steps file rest
termination_by size walk.stack
decreasing_by exact size_next_lt _step

end Walk

end DeclDoc
