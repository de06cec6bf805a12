import DeclDoc.Proofs.Membership
import DeclDoc.Proofs.Positions

/-!
# Declarations in the order of their source

A walk of tidy declarations hands out one entity for each of them, in their order, except for
enumerations without a name (`Walk.forall₂_entitiesFrom`). The scanner's cursors are such
declarations and none begins before the one before it is named, so a walk through a source loses
nothing of it (`FrontEnd.steps_scanner`).
-/

set_option autoImplicit false

namespace DeclDoc

open Cursor (preorderAll)

/-! ## Cursors that declare -/

namespace Cursor

/-- An enumeration without a name is no entity; its values are constants. -/
def isUnnamedEnum (cursor : Cursor) : Bool := cursor.kind == .enumeration && cursor.spelling == ""

/-- The cursor declares something, and it holds others only if it is a container or an
enumeration. -/
structure IsDeclaration (cursor : Cursor) : Prop where
  kind : cursor.kind ∉ [.translationUnit, .compoundStatement, .other]
  children : cursor.children = [] ∨ isContainerKind cursor.kind = true ∨ cursor.kind = .enumeration

variable {cursor : Cursor} {held : List Cursor}

theorem IsDeclaration.entityKind?_eq_none_iff (h : cursor.IsDeclaration) (inUnnamedEnum : Bool) :
    cursor.entityKind? inUnnamedEnum = none ↔ cursor.isUnnamedEnum = true := by
  have hkind := h.kind
  unfold entityKind? isUnnamedEnum
  cases hk : cursor.kind <;> simp [hk] at hkind ⊢

/-- Only a value is another entity in an enumeration without a name. -/
theorem entityKind?_eq_of_ne (h : cursor.kind ≠ .enumerator) (inUnnamedEnum : Bool) :
    cursor.entityKind? inUnnamedEnum = cursor.entityKind? false := by
  unfold entityKind?
  split <;> first | rfl | exact absurd ‹cursor.kind = .enumerator› h

/-- The entity of a cursor that is no container holds nothing. -/
theorem IsDeclaration.children_eq_nil (h : cursor.IsDeclaration) {inUnnamedEnum : Bool} {kind : Kind}
    (hkind : cursor.entityKind? inUnnamedEnum = some kind) (hleaf : kind.isContainer = false) :
    cursor.children = [] := by
  rcases h.children with hnone | hcontainer | henum
  · exact hnone
  · have hne : cursor.kind ≠ .enumerator := fun hk => by rw [hk] at hcontainer; cases hcontainer
    obtain ⟨hentity, -, hholds, -⟩ := entityKind?_of_isContainerKind hcontainer
    rw [entityKind?_eq_of_ne hne, hentity] at hkind
    cases hkind
    rw [hholds] at hleaf
    cases hleaf
  · by_cases hs : cursor.spelling = "" <;> simp only [entityKind?, henum, hs, if_true, if_false] at hkind
    · cases hkind
    · cases hkind
      cases hleaf

theorem IsPlain.isDeclaration (h : cursor.IsPlain) : cursor.IsDeclaration := by
  rcases h with ⟨hk, -⟩ | ⟨hk, hnone⟩
  · exact ⟨by simp [hk], .inr (.inr hk)⟩
  · refine ⟨?_, .inl hnone⟩
    revert hk
    cases cursor.kind <;> decide

theorem IsHeld.isDeclaration (h : cursor.IsHeld) : cursor.IsDeclaration := by
  rcases h with ⟨hmember, hnone⟩ | hplain
  · refine ⟨?_, .inl hnone⟩
    unfold isMember at hmember
    revert hmember
    cases cursor.kind <;> decide
  · exact hplain.isDeclaration

theorem IsContainer.isDeclaration (h : cursor.IsContainer) : cursor.IsDeclaration := by
  refine ⟨?_, .inr (.inl h.kind)⟩
  have hkind := h.kind
  revert hkind
  cases cursor.kind <;> decide

theorem IsTop.isDeclaration (h : cursor.IsTop) : cursor.IsDeclaration :=
  h.elim IsContainer.isDeclaration IsPlain.isDeclaration

/-- All cursors of a source declare something. -/
theorem IsTop.isDeclaration_of_mem {cursors : List Cursor} (h : ∀ top ∈ cursors, top.IsTop)
    (hc : cursor ∈ preorderAll cursors) : cursor.IsDeclaration := by
  rcases IsTop.of_mem h hc with htop | ⟨top, htop, hcontainer, hheld⟩ | hvalue
  · exact (h cursor htop).isDeclaration
  · exact (hcontainer.held cursor hheld).isDeclaration
  · exact ⟨by simp [hvalue.kind], .inl hvalue.children⟩

end Cursor

/-! ## Entities and their cursors -/

/-- An entity says what a cursor declares, with the comment before it. -/
structure Entity.TellsOf (entity : Entity) (file : SourceFile) (cursor : Cursor) : Prop where
  kind : ∃ inUnnamedEnum, cursor.entityKind? inUnnamedEnum = some entity.kind
  name : entity.name = cursor.spelling
  flavor : entity.flavor = cursor.flavor?
  location : entity.location = cursor.locationIn file
  rawComment : entity.rawComment = file.commentBefore cursor.extent

namespace Walk

variable {file : SourceFile} {groupFrom : Nat} {stack : List Visit}

theorem tellsOf_entity {visit : Visit} {kind : Kind}
    (h : visit.cursor.entityKind? visit.inUnnamedEnum = some kind) :
    (entity file groupFrom visit kind).TellsOf file visit.cursor where
  kind := ⟨visit.inUnnamedEnum, h⟩
  name := rfl
  flavor := rfl
  location := rfl
  rawComment := rfl

/-- What is behind and below a declaration is visited after it. -/
theorem preorderAll_memberVisits {visit : Visit} {rest : List Visit} {kind : Kind}
    (h : visit.cursor.IsDeclaration)
    (hkind : visit.cursor.entityKind? visit.inUnnamedEnum = some kind) :
    preorderAll ((memberVisits (entity file groupFrom visit kind) visit.cursor ++ rest).map
      Visit.cursor) = preorderAll (visit.cursor.children ++ rest.map Visit.cursor) := by
  unfold memberVisits
  split
  · rw [List.map_append, cursors_childVisits]
  · next hleaf =>
    rw [h.children_eq_nil hkind (Bool.eq_false_iff.2 hleaf)]
    rfl

/-- Visits of declarations lead to one entity for each of them, in their order. -/
theorem forall₂_entitiesFrom (file : SourceFile) (groupFrom : Nat)
    (h : ∀ cursor ∈ preorderAll (stack.map Visit.cursor), cursor.IsDeclaration) :
    List.Forall₂ (fun entity cursor => entity.TellsOf file cursor)
      (entitiesFrom file groupFrom stack)
      ((preorderAll (stack.map Visit.cursor)).filter (!·.isUnnamedEnum)) := by
  fun_induction entitiesFrom file groupFrom stack with
  | case1 =>
    rw [List.map_nil, Cursor.preorderAll_nil]
    exact .nil
  | case2 groupFrom visit rest hkind ih =>
    rw [List.map_cons, Cursor.preorderAll_cons] at h
    have := (h _ List.mem_cons_self).kind
    simp [hkind] at this
  | case3 groupFrom visit rest hkind hnone ih =>
    rw [sublist_childVisits] at ih
    rw [List.map_cons, Cursor.preorderAll_cons] at h ih ⊢
    rw [List.tail_cons] at ih
    have hunnamed := ((h _ List.mem_cons_self).entityKind?_eq_none_iff _).1 hnone
    rw [List.filter_cons_of_neg (by simp [hunnamed])]
    exact ih fun cursor hc => h cursor (List.mem_cons_of_mem _ hc)
  | case4 groupFrom visit rest hkind kind hsome found ih =>
    rw [List.map_cons, Cursor.preorderAll_cons] at h ⊢
    have hvisit := h _ List.mem_cons_self
    have hnamed : visit.cursor.isUnnamedEnum = false := by
      rw [Bool.eq_false_iff, Ne, ← hvisit.entityKind?_eq_none_iff visit.inUnnamedEnum, hsome]
      exact Option.some_ne_none kind
    rw [preorderAll_memberVisits hvisit hsome] at ih
    rw [List.filter_cons_of_pos (by simp [hnamed])]
    exact .cons (tellsOf_entity hsome) (ih fun cursor hc => h cursor (List.mem_cons_of_mem _ hc))

end Walk

/-! ## Diagnostics of a walk -/

/-- A walk of tidy declarations says what their front-end said, and nothing else. -/
theorem TranslationUnit.diagnostics_steps {unit : TranslationUnit} (file : SourceFile)
    (h : Cursor.Tidy unit.cursors) :
    (unit.steps file).flatMap (·.1) = unit.diagnostics := by
  have htidy : Walk.Tidy none (Walk.ofCursors unit.cursors).stack := by
    refine ⟨?_, fun _ h => by cases h⟩
    simpa [Walk.ofCursors, Function.comp_def] using h
  obtain ⟨-, hquiet⟩ := Walk.steps_of_tidy file (.ofCursors unit.cursors) htidy
  unfold steps
  split
  · next hsteps =>
    rw [Walk.steps] at hsteps
    split at hsteps <;> cases hsteps
  · next warnings entity rest hsteps =>
    rw [hsteps] at hquiet
    have hwarnings : warnings = [] := hquiet _ List.mem_cons_self
    have hrest : rest.flatMap (·.1) = [] :=
      List.flatMap_eq_nil_iff.2 fun step hstep => hquiet step (List.mem_cons_of_mem _ hstep)
    rw [List.flatMap_cons, hrest, hwarnings, List.append_nil, List.append_nil]

theorem Walk.Skip.ending_message (skip : Skip) : ending skip.message = ['d', 'e'] := by
  cases skip with
  | unnamed kind => exact ending_append (by decide)
  | outOfOrder kind name => exact ending_append (by decide)

/-- No fault of a source reads like a declaration that a walk leaves out. -/
theorem Declaration.Fault.message_ne_skip (fault : Fault) (skip : Walk.Skip) :
    fault.message ≠ skip.message := by
  intro heq
  have hend := skip.ending_message
  rw [← heq] at hend
  cases fault with
  | classNameMissing keyword =>
    have hname : ending (Fault.classNameMissing keyword).message = ['e', 'm'] :=
      ending_append (by decide)
    rw [hname] at hend
    exact absurd hend (by decide)
  | _ => exact absurd hend (by decide)

/-! ## Sources -/

namespace Declaration

variable {source : List Char} {cursor : Cursor}

/-- Declarations are named inside their text. -/
theorem offset_lt_byteLength (h : cursor ∈ preorderAll (scanText source).cursors) :
    cursor.offset < Text.byteLength source := by
  obtain ⟨t, ht, -, hlt⟩ := ((located_scanText source).within cursor h).inside
  exact Nat.lt_of_lt_of_le hlt (Code.stop_le_of_ofLexemes ht)

theorem locationIn_of_scanText (file : SourceFile)
    (h : cursor ∈ preorderAll (scanText source).cursors) :
    cursor.locationIn file = file.location cursor.offset := by
  rw [Cursor.locationIn, ((located_scanText source).within cursor h).unplaced]
  rfl

/-- Declarations are located in their order, if positions can tell. -/
theorem locations_scanText (path : String) (hsize : Text.byteLength source < 2 ^ 32 - 1) :
    (preorderAll (scanText source).cursors).Pairwise fun a b =>
      compare (a.locationIn (.ofText path source)) (b.locationIn (.ofText path source)) = .lt := by
  have hlocated := located_scanText source
  refine hlocated.ascending.imp_of_mem fun {a b} ha hb hlt => ?_
  have hoffset : a.offset < b.offset := Nat.lt_of_lt_of_le hlt (hlocated.within b hb).begins
  rw [locationIn_of_scanText _ ha, locationIn_of_scanText _ hb]
  exact SourceFile.location_lt path hoffset (Nat.le_of_lt (offset_lt_byteLength hb)) hsize

end Declaration

namespace FrontEnd

variable {arguments : List String} {path : String} {source : List Char} {unit : TranslationUnit}

/-- What the scanner makes of a file that it takes. -/
theorem eq_of_translate_scanner (h : scanner.translate arguments path source = .ok unit) :
    unit = ⟨(Declaration.scanText source).cursors,
      scanWarnings path source (Declaration.scanText source).remarks⟩ := by
  have hpath : (Language.ofPath? path).isSome = true := by
    rw [← Bool.not_eq_false, Option.isSome_eq_false_iff, Option.isNone_iff_eq_none]
    intro hnone
    rw [translate_unsupported hnone] at h
    cases h
  have hsource : '\x00' ∉ source := by
    intro hmem
    have hnone : (Language.ofPath? path).isNone = false := by
      rw [← Option.not_isSome, hpath]
      rfl
    rw [translate, hnone, if_neg Bool.false_ne_true, scanner] at h
    dsimp only at h
    rw [hnone, if_neg Bool.false_ne_true, if_pos (by simpa using hmem)] at h
    cases h
  rw [Extraction.translate_scanner hpath hsource] at h
  exact (Except.ok.inj h).symm

/-- The declarations of a source begin and are named one behind the other. -/
theorem ascending_scanner (h : scanner.translate arguments path source = .ok unit) :
    (∀ cursor ∈ preorderAll unit.cursors, cursor.extent ≤ cursor.offset) ∧
      (preorderAll unit.cursors).Pairwise fun a b => a.offset < b.extent := by
  rw [eq_of_translate_scanner h]
  have hlocated := Declaration.located_scanText source
  exact ⟨fun cursor hc => (hlocated.within cursor hc).begins, hlocated.ascending⟩

theorem tidy_scanner (h : scanner.translate arguments path source = .ok unit) :
    Cursor.Tidy unit.cursors := by
  rw [eq_of_translate_scanner h]
  exact Declaration.tidy_scanText source

/-- A walk hands out one entity for each declaration but for enumerations without a name. -/
theorem tellsOf_scanner (h : scanner.translate arguments path source = .ok unit) :
    List.Forall₂ (fun entity cursor => entity.TellsOf (.ofText path source) cursor)
      ((unit.steps (.ofText path source)).filterMap (·.2))
      ((preorderAll unit.cursors).filter (!·.isUnnamedEnum)) := by
  have hstack : ((unit.cursors.map fun cursor => (⟨cursor, none, false⟩ : Visit)).map
      Visit.cursor) = unit.cursors := by simp [Function.comp_def]
  have hdeclares : ∀ cursor ∈ preorderAll ((unit.cursors.map fun cursor =>
      (⟨cursor, none, false⟩ : Visit)).map Visit.cursor), cursor.IsDeclaration := by
    rw [hstack, eq_of_translate_scanner h]
    exact fun cursor hc =>
      Cursor.IsTop.isDeclaration_of_mem (Declaration.located_scanText source).shape hc
  have hall := Walk.forall₂_entitiesFrom (.ofText path source) 0 hdeclares
  rwa [hstack, ← (unit.steps_of_tidy (.ofText path source) (tidy_scanner h)).1] at hall

/-- The declarations of a source begin and are named one behind the other, and a walk hands out one
entity for each of them, in this order, but for enumerations without a name. It adds nothing to what
the scanner says, so it leaves out none. In a source that positions can tell, the entities are
located one behind the other. -/
theorem steps_scanner (h : scanner.translate arguments path source = .ok unit) :
    let file := SourceFile.ofText path source
    let steps := unit.steps file
    let cursors := preorderAll unit.cursors
    (∀ cursor ∈ cursors, cursor.extent ≤ cursor.offset) ∧
      cursors.Pairwise (fun a b => a.offset < b.extent) ∧
      List.Forall₂ (fun entity cursor => entity.TellsOf file cursor) (steps.filterMap (·.2))
        (cursors.filter (!·.isUnnamedEnum)) ∧
      steps.flatMap (·.1) = unit.diagnostics ∧
      (∀ d ∈ steps.flatMap (·.1), ∀ skip : Walk.Skip, d.message ≠ skip.message) ∧
      (Text.byteLength source < 2 ^ 32 - 1 →
        (steps.filterMap (·.2)).Pairwise fun a b => compare a.location b.location = .lt) := by
  intro file steps cursors
  have hunit := eq_of_translate_scanner h
  have hcursors : unit.cursors = (Declaration.scanText source).cursors := by rw [hunit]
  obtain ⟨hbegins, hascending⟩ := ascending_scanner h
  have hentities := tellsOf_scanner h
  have hdiagnostics := unit.diagnostics_steps file (tidy_scanner h)
  refine ⟨hbegins, hascending, hentities, hdiagnostics, ?_, ?_⟩
  · intro d hd skip
    rw [hdiagnostics, hunit] at hd
    obtain ⟨remark, -, rfl⟩ := List.mem_map.1 hd
    exact remark.fault.message_ne_skip skip
  · intro hsize
    have hplaces : (steps.filterMap (·.2)).map Entity.location =
        (cursors.filter (!·.isUnnamedEnum)).map (Cursor.locationIn file) := by
      rw [← List.forall₂_eq_eq_eq, List.forall₂_map_left_iff, List.forall₂_map_right_iff]
      exact hentities.imp fun _ _ htells => htells.location
    have hordered : cursors.Pairwise fun a b =>
        compare (a.locationIn file) (b.locationIn file) = .lt := by
      unfold cursors
      exact hcursors ▸ Declaration.locations_scanText path hsize
    have hplaced : ((cursors.filter (!·.isUnnamedEnum)).map (Cursor.locationIn file)).Pairwise
        fun a b => compare a b = .lt :=
      List.pairwise_map.2 (hordered.sublist List.filter_sublist)
    rw [← hplaces] at hplaced
    exact List.pairwise_map.1 hplaced

/-- Names at the end of a type definition, in parentheses, behind a comma and in a directive. -/
def namesApart : List Char :=
  "typedef enum { A } E;\nint x, *y;\n@interface Foo (Bar)\n#define M 1\n- (void)m;\n@end".toList

theorem steps_scanner_namesApart :
    ∃ unit, scanner.translate [] "Foo.h" namesApart = .ok unit ∧
      ((unit.steps (.ofText "Foo.h" namesApart)).filterMap (·.2)).map Entity.name =
        ["E", "A", "x", "y", "Bar", "M", "m"] ∧
      Text.byteLength namesApart < 2 ^ 32 - 1 ∧
      ((unit.steps (.ofText "Foo.h" namesApart)).filterMap (·.2)).Pairwise fun a b =>
        compare a.location b.location = .lt := by
  have hpath : (Language.ofPath? "Foo.h").isSome = true := by decide +kernel
  have hsource : '\x00' ∉ namesApart := by decide
  have hunit := Extraction.translate_scanner hpath hsource []
  have hsize : Text.byteLength namesApart < 2 ^ 32 - 1 := by decide
  refine ⟨_, hunit, ?_, hsize, (steps_scanner hunit).2.2.2.2.2 hsize⟩
  decide +kernel

end FrontEnd

end DeclDoc
