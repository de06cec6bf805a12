import DeclDoc.Entity.Walk
import Mathlib.Data.List.Basic

/-!
# Walks that skip nothing

`Cursor.preorderAll` lists the cursors of trees, each before those below it. Trees are `Tidy` when
the offsets ascend in that list and every cursor that must have a name has one. A walk of tidy trees
skips nothing and warns of nothing: it hands out `Walk.entitiesFrom`, which looks at one cursor after
the other (`Walk.steps_of_tidy`).
-/

set_option autoImplicit false

namespace DeclDoc

namespace Cursor

/-! ## Trees in order -/

mutual

/-- A cursor, then all that is below it. -/
def preorder : Cursor → List Cursor
  | ⟨kind, spelling, offset, extent, location, detail, children⟩ =>
    ⟨kind, spelling, offset, extent, location, detail, children⟩ :: preorderAll children

def preorderAll : List Cursor → List Cursor
  | [] => []
  | cursor :: rest => cursor.preorder ++ preorderAll rest

end

theorem preorder_eq (cursor : Cursor) :
    cursor.preorder = cursor :: preorderAll cursor.children := by
  cases cursor
  rw [preorder]

@[simp] theorem preorderAll_nil : preorderAll [] = [] := by rw [preorderAll]

theorem preorderAll_append (xs ys : List Cursor) :
    preorderAll (xs ++ ys) = preorderAll xs ++ preorderAll ys := by
  induction xs with
  | nil => rw [preorderAll_nil]; rfl
  | cons x xs ih => rw [List.cons_append, preorderAll, preorderAll, ih, List.append_assoc]

theorem preorderAll_cons (cursor : Cursor) (rest : List Cursor) :
    preorderAll (cursor :: rest) = cursor :: preorderAll (cursor.children ++ rest) := by
  rw [preorderAll, preorder_eq, preorderAll_append]
  rfl

theorem sublist_preorderAll (cursors : List Cursor) : cursors.Sublist (preorderAll cursors) := by
  induction cursors with
  | nil => exact List.nil_sublist _
  | cons cursor rest ih =>
    rw [preorderAll_cons, preorderAll_append]
    exact (ih.trans (List.sublist_append_right ..)).cons_cons cursor

theorem mem_preorderAll {cursors : List Cursor} {cursor : Cursor} (h : cursor ∈ cursors) :
    cursor ∈ preorderAll cursors :=
  (sublist_preorderAll cursors).subset h

/-- What holds of all cursors in their order holds of each tree and the roots behind it. -/
theorem pairwise_of_preorderAll {R : Cursor → Cursor → Prop} {cursors : List Cursor}
    (h : (preorderAll cursors).Pairwise R) :
    cursors.Pairwise fun a b => ∀ c ∈ a.preorder, R c b := by
  induction cursors with
  | nil => exact .nil
  | cons cursor rest ih =>
    rw [preorderAll] at h
    obtain ⟨-, hrest, hbehind⟩ := List.pairwise_append.1 h
    exact .cons (fun b hb c hc => hbehind c hc b (mem_preorderAll hb)) (ih hrest)

/-- What is in a tree is a cursor at its top or below one. -/
theorem exists_of_mem_preorderAll {cursors : List Cursor} {cursor : Cursor}
    (h : cursor ∈ preorderAll cursors) :
    ∃ top ∈ cursors, cursor = top ∨ cursor ∈ preorderAll top.children := by
  induction cursors with
  | nil =>
    rw [preorderAll_nil] at h
    cases h
  | cons top rest ih =>
    rw [preorderAll_cons, preorderAll_append, List.mem_cons, List.mem_append] at h
    rcases h with h | h | h
    · exact ⟨top, List.mem_cons_self, .inl h⟩
    · exact ⟨top, List.mem_cons_self, .inr h⟩
    · obtain ⟨other, hother, hcursor⟩ := ih h
      exact ⟨other, List.mem_cons_of_mem _ hother, hcursor⟩

/-- A cursor may do without a name where none is asked for. -/
def MayBeUnnamed (kind : CursorKind) : Prop :=
  kind = .enumeration ∨ kind = .category ∨ kind = .categoryImplementation

/-- Names come in the order of the trees, and every cursor that must have a name has one. -/
structure Tidy (cursors : List Cursor) : Prop where
  ascending : (preorderAll cursors).Pairwise fun a b => a.offset ≤ b.offset
  named : ∀ cursor ∈ preorderAll cursors, cursor.spelling = "" → MayBeUnnamed cursor.kind

theorem Tidy.sublist {xs ys : List Cursor} (h : Tidy xs)
    (hs : (preorderAll ys).Sublist (preorderAll xs)) : Tidy ys :=
  ⟨h.ascending.sublist hs, fun cursor hc => h.named cursor (hs.subset hc)⟩

end Cursor

namespace Walk

/-! ## Entities without skips -/

/-- The entities that visits lead to when none is skipped. -/
def entitiesFrom (file : SourceFile) (groupFrom : Nat) : (stack : List Visit) → List Entity
  | [] => []
  | visit :: rest =>
    if visit.cursor.kind = .compoundStatement then entitiesFrom file groupFrom rest
    else
      match visit.cursor.entityKind? visit.inUnnamedEnum with
      | none =>
        entitiesFrom file groupFrom
          (childVisits visit.cursor visit.parent (visit.cursor.kind == .enumeration) ++ rest)
      | some kind =>
        let found := entity file groupFrom visit kind
        found :: entitiesFrom file (if isNestedRoot visit kind then groupFrom else visit.cursor.offset)
          (memberVisits found visit.cursor ++ rest)
termination_by stack => size stack
decreasing_by
  · rw [size_cons, Cursor.size_eq]; omega
  · exact size_childVisits_append_lt ..
  · exact size_memberVisits_append_lt ..

/-! ## Tidy visits -/

/-- Visits of tidy trees, all of which stand after the last entity. -/
structure Tidy (lastOffset : Option Nat) (stack : List Visit) : Prop where
  cursors : Cursor.Tidy (stack.map Visit.cursor)
  after : ∀ offset, lastOffset = some offset →
    ∀ cursor ∈ Cursor.preorderAll (stack.map Visit.cursor), offset ≤ cursor.offset

variable {lastOffset : Option Nat} {visit : Visit} {rest stack : List Visit}

theorem cursors_childVisits (cursor : Cursor) (parent : Option ParentRef) (inUnnamedEnum : Bool) :
    (childVisits cursor parent inUnnamedEnum).map Visit.cursor = cursor.children := by
  simp [childVisits, Function.comp_def]

/-- What remains of a tree without its root. -/
theorem sublist_childVisits (parent : Option ParentRef) (inUnnamedEnum : Bool) :
    Cursor.preorderAll
        ((childVisits visit.cursor parent inUnnamedEnum ++ rest).map Visit.cursor) =
      (Cursor.preorderAll ((visit :: rest).map Visit.cursor)).tail := by
  rw [List.map_append, cursors_childVisits, List.map_cons, Cursor.preorderAll_cons, List.tail_cons]

theorem sublist_rest :
    (Cursor.preorderAll (rest.map Visit.cursor)).Sublist
      (Cursor.preorderAll ((visit :: rest).map Visit.cursor)).tail := by
  rw [List.map_cons, Cursor.preorderAll_cons, List.tail_cons, Cursor.preorderAll_append]
  exact List.sublist_append_right _ _

theorem sublist_memberVisits (found : Entity) :
    (Cursor.preorderAll ((memberVisits found visit.cursor ++ rest).map Visit.cursor)).Sublist
      (Cursor.preorderAll ((visit :: rest).map Visit.cursor)).tail := by
  unfold memberVisits
  split
  · rw [sublist_childVisits]
  · exact sublist_rest

/-- Visits of what stands below and behind a visit. -/
theorem Tidy.tail (h : Tidy lastOffset (visit :: rest))
    (hs : (Cursor.preorderAll (stack.map Visit.cursor)).Sublist
      (Cursor.preorderAll ((visit :: rest).map Visit.cursor)).tail) : Tidy lastOffset stack where
  cursors := h.cursors.sublist (hs.trans (List.tail_sublist _))
  after offset ho cursor hc := h.after offset ho cursor ((hs.trans (List.tail_sublist _)).subset hc)

/-- The same after the entity of the visit. -/
theorem Tidy.next (h : Tidy lastOffset (visit :: rest))
    (hs : (Cursor.preorderAll (stack.map Visit.cursor)).Sublist
      (Cursor.preorderAll ((visit :: rest).map Visit.cursor)).tail) :
    Tidy (some visit.cursor.offset) stack where
  cursors := (h.tail hs).cursors
  after offset ho cursor hc := by
    cases ho
    have hascending := h.cursors.ascending
    have hmem := hs.subset hc
    rw [List.map_cons, Cursor.preorderAll_cons] at hascending hmem
    exact (List.pairwise_cons.1 hascending).1 cursor hmem

/-- No entity of tidy visits is skipped. -/
theorem Tidy.skip?_eq_none (h : Tidy lastOffset (visit :: rest)) {kind : Kind}
    (hkind : visit.cursor.entityKind? visit.inUnnamedEnum = some kind) :
    skip? visit.cursor kind lastOffset = none := by
  have hmem : visit.cursor ∈ Cursor.preorderAll ((visit :: rest).map Visit.cursor) := by
    rw [List.map_cons, Cursor.preorderAll_cons]
    exact List.mem_cons_self
  have hnamed : ¬(visit.cursor.spelling = "" ∧ kind ≠ .classExtension) := by
    rintro ⟨hempty, hne⟩
    unfold Cursor.entityKind? at hkind
    rcases h.cursors.named _ hmem hempty with hk | hk | hk <;> simp [hk, hempty] at hkind
    · exact hne hkind.symm
    · exact hne hkind.symm
  have hafter : lastOffset.any (visit.cursor.offset < ·) = false := by
    cases hl : lastOffset with
    | none => rfl
    | some offset => simpa using h.after offset hl _ hmem
  simp [skip?, hnamed, hafter]

/-! ## The walk -/

/-- What a step of a tidy walk gives. -/
theorem nextFrom_of_tidy (file : SourceFile) (groupFrom : Nat) (h : Tidy lastOffset stack) :
    (nextFrom file lastOffset groupFrom stack).diagnostics = [] ∧
      match (nextFrom file lastOffset groupFrom stack).next with
      | none => entitiesFrom file groupFrom stack = []
      | some (found, walk) =>
        entitiesFrom file groupFrom stack =
            found :: entitiesFrom file walk.groupFrom walk.stack ∧
          Tidy walk.lastOffset walk.stack := by
  fun_induction nextFrom file lastOffset groupFrom stack with
  | case1 => exact ⟨rfl, by rw [entitiesFrom]⟩
  | case2 visit rest hkind ih =>
    rw [entitiesFrom, if_pos hkind]
    exact ih (h.tail sublist_rest)
  | case3 visit rest hkind hnone ih =>
    rw [entitiesFrom, if_neg hkind, hnone]
    exact ih (h.tail (sublist_childVisits .. ▸ List.Sublist.refl _))
  | case4 visit rest hkind kind hsome skip hskip ih =>
    rw [h.skip?_eq_none hsome] at hskip
    cases hskip
  | case5 visit rest hkind kind hsome hskip found =>
    rw [entitiesFrom, if_neg hkind, hsome]
    exact ⟨rfl, rfl, h.next (sublist_memberVisits found)⟩

/-- A walk of tidy trees hands out all its entities, and warns of nothing. -/
theorem steps_of_tidy (file : SourceFile) (walk : Walk) (h : Tidy walk.lastOffset walk.stack) :
    (walk.steps file).filterMap (·.2) = entitiesFrom file walk.groupFrom walk.stack ∧
      ∀ step ∈ walk.steps file, step.1 = [] := by
  fun_induction steps file walk with
  | case1 walk hnext =>
    obtain ⟨hquiet, hnone⟩ := nextFrom_of_tidy file walk.groupFrom h
    rw [next] at hnext
    rw [hnext] at hnone
    refine ⟨by simp [hnone], ?_⟩
    intro step hstep
    cases List.mem_singleton.1 hstep
    exact hquiet
  | case2 walk found rest hnext ih =>
    obtain ⟨hquiet, hsome⟩ := nextFrom_of_tidy file walk.groupFrom h
    rw [next] at hnext
    rw [hnext] at hsome
    obtain ⟨hentities, hrest⟩ := hsome
    obtain ⟨hall, hquiets⟩ := ih hrest
    refine ⟨by simp [hentities, hall], ?_⟩
    intro step hstep
    rcases List.mem_cons.1 hstep with rfl | hstep
    · exact hquiet
    · exact hquiets step hstep

end Walk

end DeclDoc
