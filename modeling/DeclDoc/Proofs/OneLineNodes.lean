import DeclDoc.Proofs.ScannedNames
import DeclDoc.Proofs.SourceOrder
import DeclDoc.Proofs.StoreForm

/-!
# Nodes of one line

What an outline shows of a node stands on one line (`NodeInfo.OneLine`), of every node of a store whose
files the built-in scanner read: that is so of what is accepted of a file
(`Extraction.oneLine_of_mem_acceptedOf`), and every turn keeps it (`Store.AllOneLine.apply`).
-/

set_option autoImplicit false

namespace DeclDoc

open Cursor (preorderAll)

/-! ## Entities -/

/-- What an outline shows of an entity stands on one line. -/
structure Entity.OneLine (entity : Entity) : Prop where
  name : DeclDoc.OneLine entity.name
  typeName : ∀ name ∈ entity.typeName, DeclDoc.OneLine name
  superclass : ∀ name ∈ entity.superclass, DeclDoc.OneLine name
  protocols : ∀ name ∈ entity.protocols, DeclDoc.OneLine name
  baseClass : ∀ name ∈ entity.baseClass, DeclDoc.OneLine name
  group : ∀ title ∈ entity.group, DeclDoc.OneLine title

theorem Cursor.OneLine.entity {visit : Visit} (h : visit.cursor.OneLine) (file : SourceFile)
    (groupFrom : Nat) (kind : Kind) : (Walk.entity file groupFrom visit kind).OneLine where
  name := h.spelling
  typeName := h.typeName
  superclass := h.superclass
  protocols := h.protocols
  baseClass := h.baseClass
  group title htitle := by
    unfold Walk.entity at htitle
    dsimp only at htitle
    split at htitle
    · exact file.oneLine_groupBetween _ _ title htitle
    · cases htitle

/-- All entities of a file that the built-in scanner reads. -/
theorem Extraction.oneLine_of_mem_entitiesOf {extraction : Extraction}
    (hscanner : extraction.frontEnd = .scanner) {path : String} {source : List Char}
    {entity : Entity} (h : entity ∈ extraction.entitiesOf path source) : entity.OneLine := by
  unfold entitiesOf at h
  rw [hscanner] at h
  split at h
  · cases h
  split at h
  · cases h
  · next unit hunit =>
    rw [(unit.steps_of_tidy _ (FrontEnd.tidy_scanner hunit)).1] at h
    obtain ⟨groupFrom, visit, kind, hvisit, rfl⟩ := Walk.exists_visit_of_mem h
    have hcursor : visit.cursor ∈ preorderAll (Declaration.scanText source).cursors := by
      rw [FrontEnd.eq_of_translate_scanner hunit] at hvisit
      simpa [Function.comp_def] using hvisit
    exact (Declaration.oneLine_scanText source _ hcursor).entity _ groupFrom kind

/-! ## Nodes -/

/-- Nothing that an outline shows of the node holds a line feed. -/
structure NodeInfo.OneLine (info : NodeInfo) : Prop where
  name : DeclDoc.OneLine info.name
  typeName : ∀ name ∈ info.typeName, DeclDoc.OneLine name
  superclass : ∀ name ∈ info.superclass, DeclDoc.OneLine name
  protocols : ∀ name ∈ info.protocols, DeclDoc.OneLine name
  baseClass : ∀ name ∈ info.baseClass, DeclDoc.OneLine name
  group : ∀ title ∈ info.group, DeclDoc.OneLine title
  shortDescription : ∀ comment ∈ info.comment, ∀ text ∈ comment.shortDescription,
    DeclDoc.OneLine text

namespace NodeInfo.OneLine

variable {a b : NodeInfo}

/-- What holds of both holds of the first that is there. -/
theorem mem_or {α : Type} {P : α → Prop} {x y : Option α} (hx : ∀ v ∈ x, P v)
    (hy : ∀ v ∈ y, P v) : ∀ v ∈ x.or y, P v := fun v hv =>
  (Option.or_eq_some_iff.1 hv).elim (hx v) fun ⟨_, hv⟩ => hy v hv

theorem merge (ha : a.OneLine) (hb : b.OneLine) : (a.merge b).OneLine where
  name := ha.name
  typeName := mem_or ha.typeName hb.typeName
  superclass := mem_or ha.superclass hb.superclass
  protocols name hname :=
    (OrderedSet.mem_union.1 hname).elim (ha.protocols name) (hb.protocols name)
  baseClass := mem_or ha.baseClass hb.baseClass
  group := mem_or ha.group hb.group
  shortDescription := by
    show ∀ comment ∈ a.mergeComment b, _
    unfold mergeComment
    split
    · exact hb.shortDescription
    · exact mem_or ha.shortDescription hb.shortDescription

theorem settled (h : a.OneLine) (known : String → Bool) (baseClass : String) :
    (a.settled known baseClass).OneLine := by
  unfold NodeInfo.settled
  split <;> exact { h with }

end NodeInfo.OneLine

/-! ## Acceptance -/

/-- The short description of a comment stands on one line. -/
def Comment.OneLine (comment : Comment) : Prop :=
  ∀ text ∈ comment.shortDescription, DeclDoc.OneLine text

theorem Accepted.oneLine_info {a : Accepted} (h : a.entity.OneLine)
    (hcomment : ∀ comment ∈ a.comment, comment.OneLine) : a.info.OneLine where
  name := h.name
  typeName := h.typeName
  superclass := h.superclass
  protocols name hname := by
    obtain hname | hname := OrderedSet.mem_union.1 hname
    · cases hname
    · exact h.protocols name hname
  baseClass := h.baseClass
  group := h.group
  shortDescription := hcomment

namespace Slot

variable {slot : Slot} {entity : Entity} {comment : Option Comment}

/-- The title of the group that is open stands on one line. -/
def OneLine (slot : Slot) : Prop := ∀ title ∈ slot.group, DeclDoc.OneLine title

theorem oneLine_empty : OneLine {} := forall_mem_none

theorem OneLine.closeFor (h : slot.OneLine) (kind : Kind) : (slot.closeFor kind).OneLine := by
  unfold Slot.closeFor
  split
  · exact oneLine_empty
  · exact h

theorem OneLine.groupOf (h : slot.OneLine) (hentity : entity.OneLine) :
    ∀ title ∈ slot.groupOf entity, DeclDoc.OneLine title := by
  unfold Slot.groupOf
  split
  · exact hentity.group
  · exact NodeInfo.OneLine.mem_or hentity.group h

/-- What is open and what is accepted after an entity is placed. -/
theorem OneLine.place (h : slot.OneLine) (hentity : entity.OneLine)
    (hcomment : ∀ c ∈ comment, c.OneLine) :
    (slot.place entity comment).1.OneLine ∧
      ∀ a ∈ (slot.place entity comment).2, a.info.OneLine := by
  unfold Slot.place placeMember placeCategory placeRoot
  split
  · split
    · exact ⟨h, forall_mem_none⟩
    · next target _ =>
      refine ⟨?_, fun a ha => ?_⟩
      · split
        · exact h
        · exact h.groupOf hentity
      · cases ha
        exact Accepted.oneLine_info { hentity with group := h.groupOf hentity } hcomment
  split
  · split
    · exact ⟨oneLine_empty, forall_mem_none⟩
    · refine ⟨forall_mem_none, fun a ha => ?_⟩
      cases ha
      exact Accepted.oneLine_info hentity hcomment
  split
  · exact ⟨h, forall_mem_none⟩
  · refine ⟨?_, fun a ha => ?_⟩
    · split
      · exact forall_mem_none
      · exact h
    · cases ha
      exact Accepted.oneLine_info hentity hcomment

theorem OneLine.accept (h : slot.OneLine) (hentity : entity.OneLine) (settings : Settings)
    (dialect : Comment.Dialect) :
    (slot.accept settings dialect entity).1.OneLine ∧
      ∀ a ∈ (slot.accept settings dialect entity).2, a.info.OneLine := by
  unfold Slot.accept
  split
  · exact ⟨h.closeFor _, forall_mem_none⟩
  split
  · exact h.place hentity forall_mem_none
  split
  · exact ⟨h.closeFor _, forall_mem_none⟩
  · next parsed hread =>
    refine h.place hentity fun comment hcomment => ?_
    cases hcomment
    exact Comment.oneLine_shortDescription hread

theorem OneLine.acceptAll (h : slot.OneLine) {entities : List Entity}
    (hentities : ∀ entity ∈ entities, entity.OneLine) (settings : Settings)
    (dialect : Comment.Dialect) :
    ∀ a ∈ slot.acceptAll settings dialect entities, a.info.OneLine := by
  intro a ha
  induction entities generalizing slot with
  | nil => cases ha
  | cons entity rest ih =>
    obtain ⟨hslot, haccepted⟩ :=
      h.accept (hentities entity List.mem_cons_self) settings dialect
    rw [Slot.acceptAll, List.mem_append, Option.mem_toList] at ha
    rcases ha with ha | ha
    · exact haccepted a ha
    · exact ih hslot (fun e he => hentities e (List.mem_cons_of_mem _ he)) ha

end Slot

/-- The built-in scanner reads the files, and one of the two dialects their comments. -/
structure Extraction.IsBuiltIn (extraction : Extraction) : Prop where
  frontEnd : extraction.frontEnd = .scanner
  dialect : ∃ dialect : Comment.Dialect, extraction.dialect = dialect.reader

theorem Extraction.oneLine_of_mem_acceptedOf {extraction : Extraction} (h : extraction.IsBuiltIn)
    (path : String) (source : List Char) :
    ∀ a ∈ extraction.acceptedOf path source, a.info.OneLine := by
  obtain ⟨dialect, hdialect⟩ := h.dialect
  unfold acceptedOf
  rw [hdialect]
  exact Slot.oneLine_empty.acceptAll
    (fun entity hentity => oneLine_of_mem_entitiesOf h.frontEnd hentity) _ dialect

/-! ## Stores -/

/-- All reading is done by what is built in. -/
def Turn.IsBuiltIn : Turn → Prop
  | .read call => call.extraction.IsBuiltIn
  | .finalize | .finish _ => True

namespace Store

/-- What the outline of a store shows of a node stands on one line. -/
structure AllOneLine (store : Store) : Prop where
  keyed : store.Keyed
  oneLine : store.Everywhere fun _ info => info.OneLine

namespace AllOneLine

variable {store after : Store}

theorem empty : AllOneLine {} := ⟨keyed_empty, Everywhere.empty⟩

theorem withDiagnostics (h : store.AllOneLine) (diagnostics : List Diagnostic) :
    AllOneLine { store with diagnostics } :=
  ⟨h.keyed.withDiagnostics diagnostics, h.oneLine⟩

theorem takes (h : store.AllOneLine) {a : Accepted} (ha : store.Takes a after)
    (hline : a.info.OneLine) : after.AllOneLine where
  keyed := ha.keyed
  oneLine := h.oneLine.takes NodeInfo.OneLine.merge ha hline

theorem takesAll (h : store.AllOneLine) {accepted : List Accepted}
    (hall : store.TakesAll accepted after) (hlines : ∀ a ∈ accepted, a.info.OneLine) :
    after.AllOneLine := by
  induction hall with
  | nil => exact h
  | snoc _ hlast ih =>
    exact (ih fun a ha => hlines a (List.mem_append_left _ ha)).takes hlast
      (hlines _ (List.mem_append_right _ (List.mem_singleton_self _)))
  | said diagnostics _ ih => exact (ih hlines).withDiagnostics diagnostics

theorem finalize (h : store.AllOneLine) : store.finalize.AllOneLine where
  keyed := h.keyed.settles.keyed
  oneLine := h.oneLine.finalize NodeInfo.OneLine.merge h.keyed
    (fun hinfo => hinfo.settled store.knows _) id

theorem trim (h : store.AllOneLine) (policy : KeepPolicy) : (store.trim policy).AllOneLine where
  keyed := h.keyed.trim policy
  oneLine := h.oneLine.trim h.keyed.ordered policy

theorem apply (h : store.AllOneLine) {turn : Turn} (hturn : turn.IsBuiltIn) :
    (turn.apply store).AllOneLine := by
  cases turn with
  | read call =>
    exact h.takesAll (call.extraction.readSource_takes h.keyed _ _).1
      (Extraction.oneLine_of_mem_acceptedOf hturn _ _)
  | finalize => exact h.finalize
  | finish extraction =>
    obtain ⟨⟨diagnostics, heq⟩, -⟩ := extraction.finish_eq store
    rw [Turn.apply, heq]
    exact (h.finalize.withDiagnostics diagnostics).trim _

theorem foldl_apply (h : store.AllOneLine) {turns : List Turn}
    (hturns : ∀ turn ∈ turns, turn.IsBuiltIn) : (turns.foldl Turn.apply store).AllOneLine :=
  Turn.inv (P := fun _ store => store.AllOneLine)
    (fun turn hturn _ _ hbefore => hbefore.apply (hturns turn hturn)) [] h

end AllOneLine

theorem allOneLine_afterTurns {turns : List Turn} (h : ∀ turn ∈ turns, turn.IsBuiltIn) :
    (afterTurns turns).AllOneLine := AllOneLine.empty.foldl_apply h

end Store

end DeclDoc
