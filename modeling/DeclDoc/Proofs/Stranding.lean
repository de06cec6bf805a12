import DeclDoc.Proofs.Runs

/-!
# Stranded members

A member that does not belong to the open container is stranded: it goes nowhere, and a warning says
that it has no enclosing container. Where no settings are made and every comment can be read
(`Entity.Readable`), an entity is either accepted or stranded. `Slot.spots` and `Slot.strandings` say
which, `Slot.spots_acceptAll` ties the first to what is accepted, and `Reading.Reports` the second to
the log.
-/

set_option autoImplicit false

namespace DeclDoc

/-! ## Warnings -/

/-- A diagnostic tells of a member without a container. -/
def Diagnostic.IsStranding (diagnostic : Diagnostic) : Prop :=
  ∃ (kind : Kind) (name : String), kind.isMember = true ∧
    diagnostic.message = kind.name ++ " " ++ name ++ " has no enclosing container"

/-- What is said of a member that has no container. -/
def Entity.stranding (entity : Entity) : Diagnostic where
  severity := .warning
  location := some entity.location
  message := entity.kind.name ++ " " ++ entity.name ++ " has no enclosing container"

/-- The last two characters of a text, the last one first. -/
def ending (s : String) : List Char := s.toList.reverse.take 2

theorem ending_append {s t : String} (h : 2 ≤ t.toList.length) : ending (s ++ t) = ending t := by
  rw [ending, ending, String.toList_append, List.reverse_append, List.take_append_of_le_length]
  rwa [List.length_reverse]

theorem head?_append {s t : String} {c : Char} (h : s.toList.head? = some c) :
    (s ++ t).toList.head? = some c := by
  rw [String.toList_append, List.head?_append, h]
  rfl

namespace Diagnostic

variable {d : Diagnostic}

theorem IsStranding.ending (h : d.IsStranding) : ending d.message = ['r', 'e'] := by
  obtain ⟨kind, name, -, hmessage⟩ := h
  rw [hmessage]
  exact ending_append (by decide)

theorem IsStranding.head (h : d.IsStranding) :
    ∃ c ∈ ['m', 'p', 'e'], d.message.toList.head? = some c := by
  obtain ⟨kind, name, hkind, hmessage⟩ := h
  rw [hmessage, String.append_assoc, String.append_assoc]
  cases kind <;> cases hkind
  · exact ⟨'m', by decide, head?_append rfl⟩
  · exact ⟨'p', by decide, head?_append rfl⟩
  · exact ⟨'e', by decide, head?_append rfl⟩

/-- A message that ends otherwise tells of something else. -/
theorem not_isStranding_of_ending {s : String} (h : d.message = s)
    (hend : DeclDoc.ending s ≠ ['r', 'e']) : ¬d.IsStranding := fun hd =>
  hend (h ▸ hd.ending)

theorem not_isStranding_of_append {s t : String} (h : d.message = s ++ t)
    (hlen : 2 ≤ t.toList.length) (hend : DeclDoc.ending t ≠ ['r', 'e']) : ¬d.IsStranding :=
  not_isStranding_of_ending h (by rwa [ending_append hlen])

/-- A message that begins otherwise tells of something else. -/
theorem not_isStranding_of_head {s : String} {c : Char} (h : d.message = s)
    (hhead : s.toList.head? = some c) (hc : c ∉ ['m', 'p', 'e']) : ¬d.IsStranding := fun hd => by
  obtain ⟨b, hb, heq⟩ := hd.head
  rw [h, hhead, Option.some_inj] at heq
  exact hc (heq ▸ hb)

/-- No fault of a declaration tells of a member without a container. -/
theorem not_isStranding_of_fault {fault : Declaration.Fault} (h : d.message = fault.message) :
    ¬d.IsStranding := by
  cases fault with
  | strayEnd =>
    exact not_isStranding_of_head (s := "@end without a matching container") (c := '@') h rfl
      (by decide)
  | classNameMissing keyword =>
    exact not_isStranding_of_append (s := keyword) h (by decide +kernel) (by decide +kernel)
  | protocolNameMissing =>
    exact not_isStranding_of_ending (s := "@protocol without a name") h (by decide +kernel)
  | endMissing =>
    exact not_isStranding_of_ending (s := "missing @end") h (by decide +kernel)
  | selectorMissing =>
    exact not_isStranding_of_ending (s := "method declaration without a selector") h (by decide +kernel)
  | propertyNameMissing =>
    exact not_isStranding_of_ending (s := "@property without a name") h (by decide +kernel)

/-- Nor does a remark on a comment. -/
theorem not_isStranding_of_remark {remark : Comment.Remark} (h : d.message = remark.message) :
    ¬d.IsStranding := by
  cases remark with
  | nestedOpener =>
    exact not_isStranding_of_ending (s := "`/*` inside a block comment") h (by decide +kernel)
  | nameMissing directive =>
    exact not_isStranding_of_append (s := "@" ++ directive) h (by decide +kernel) (by decide +kernel)
  | descriptionMissing parameter =>
    exact not_isStranding_of_append (s := "@param " ++ parameter) h (by decide +kernel)
      (by decide +kernel)
  | returnsEmpty =>
    exact not_isStranding_of_ending (s := "empty @return") h (by decide +kernel)
  | unknownDirective directive =>
    have hhead := head?_append (s := "unknown directive @") (t := directive) (c := 'u') rfl
    exact not_isStranding_of_head h hhead (by decide)

end Diagnostic

/-! ## What becomes of entities -/

/-- Where an accepted entity goes, and where it was declared. -/
def Accepted.spot (accepted : Accepted) : StorePath × Location :=
  (accepted.path, accepted.entity.location)

/-- What is accepted, but for its comment. -/
def Accepted.uncommented (accepted : Accepted) : Accepted := { accepted with comment := none }

/-- The entity has no comment, or one that can be read. -/
def Entity.Readable (entity : Entity) : Prop :=
  ∀ fault, Comment.Reader.markup.read entity.rawComment ≠ .error fault

namespace Slot

/-- What is said of an entity that is a member and does not belong to the open container. -/
def strandingOf (slot : Slot) (entity : Entity) : Option Diagnostic :=
  if entity.kind.isMember && (slot.targetOf? entity).isNone then some entity.stranding else none

/-- What is open after an entity is put where its kind belongs. -/
def next (slot : Slot) (entity : Entity) : Slot := (slot.place entity none).1

/-- Where entities go. -/
def spots (slot : Slot) : List Entity → List (StorePath × Location)
  | [] => []
  | entity :: rest =>
    ((slot.place entity none).2.map Accepted.spot).toList ++ (slot.next entity).spots rest

/-- What is said of those that go nowhere. -/
def strandings (slot : Slot) : List Entity → List Diagnostic
  | [] => []
  | entity :: rest => (slot.strandingOf entity).toList ++ (slot.next entity).strandings rest

/-- A comment does not matter to what becomes of an entity. -/
theorem place_comment (slot : Slot) (entity : Entity) (comment : Option Comment) :
    (slot.place entity comment).1 = slot.next entity ∧
      (slot.place entity comment).2.map Accepted.uncommented = (slot.place entity none).2 := by
  unfold next place placeMember placeCategory placeRoot
  split
  · cases slot.targetOf? entity <;> exact ⟨rfl, rfl⟩
  split
  · cases entity.baseClass <;> exact ⟨rfl, rfl⟩
  split <;> exact ⟨rfl, rfl⟩

/-- Without settings a readable entity is put where its kind belongs. -/
theorem exists_accept_eq (slot : Slot) {entity : Entity} (h : entity.Readable) :
    ∃ comment, slot.accept {} .markup entity = slot.place entity comment := by
  unfold accept
  rw [if_neg (by simp [Settings.includesKind])]
  split
  · exact ⟨none, rfl⟩
  · split
    · next fault hfault => exact absurd hfault (h fault)
    · exact ⟨_, rfl⟩

theorem accept_fst (slot : Slot) {entity : Entity} (h : entity.Readable) :
    (slot.accept {} .markup entity).1 = slot.next entity := by
  obtain ⟨comment, heq⟩ := slot.exists_accept_eq h
  rw [heq]
  exact (slot.place_comment entity comment).1

/-- Where accepted entities go. -/
theorem spots_acceptAll (slot : Slot) {entities : List Entity}
    (h : ∀ entity ∈ entities, entity.Readable) :
    (slot.acceptAll {} .markup entities).map Accepted.spot = slot.spots entities := by
  induction entities generalizing slot with
  | nil => rfl
  | cons entity rest ih =>
    have hentity := h entity List.mem_cons_self
    obtain ⟨comment, heq⟩ := slot.exists_accept_eq hentity
    rw [acceptAll, spots, List.map_append, slot.accept_fst hentity,
      ih _ fun other hother => h other (List.mem_cons_of_mem _ hother), heq,
      ← (slot.place_comment entity comment).2]
    cases (slot.place entity comment).2 <;> rfl

end Slot

/-! ## What a reading says -/

/-- What is said of a comment is a remark. -/
theorem Comment.exists_remark_of_markup {raw : List Char} {parsed : Comment.Parsed}
    (h : Comment.Reader.markup.read raw = .ok parsed) {warning : String}
    (hw : warning ∈ parsed.warnings) : ∃ remark : Comment.Remark, warning = remark.message := by
  unfold Reader.markup Dialect.reader at h
  dsimp only at h
  cases hr : Comment.read .markup raw with
  | error fault => rw [hr] at h; cases h
  | ok reading =>
    rw [hr] at h
    cases h
    obtain ⟨remark, -, hremark⟩ := List.mem_map.1 hw
    exact ⟨remark, hremark.symm⟩

namespace Reading

/-- A reading has said this of stranded members, and has filtered nothing out. -/
structure Reports (reading : Reading) (strandings : List Diagnostic) : Prop where
  log : ∀ d, d.IsStranding → (.diagnostic d ∈ reading.log ↔ d ∈ strandings)
  filtered : reading.summary.filtered = 0

theorem container_foldl_emit (reading : Reading) (diagnostics : List Diagnostic) :
    (diagnostics.foldl emit reading).container = reading.container := by
  induction diagnostics generalizing reading with
  | nil => rfl
  | cons d rest ih => exact ih _

theorem container_foldl_warn (reading : Reading) (location : Location) (warnings : List String) :
    (warnings.foldl (fun reading warning => reading.warn location warning) reading).container =
      reading.container := by
  induction warnings generalizing reading with
  | nil => rfl
  | cons warning rest ih => exact ih _

variable {reading : Reading} {slot : Slot} {strandings : List Diagnostic} {entity : Entity}

namespace Reports

/-- What tells of something else does not matter. -/
theorem emit (h : reading.Reports strandings) {d : Diagnostic} (hd : ¬d.IsStranding) :
    (reading.emit d).Reports strandings where
  log e he := by
    have hne : e ≠ d := fun heq => hd (heq ▸ he)
    simp [Reading.emit, hne, h.log e he]
  filtered := h.filtered

theorem foldl_emit (h : reading.Reports strandings) {diagnostics : List Diagnostic}
    (hd : ∀ d ∈ diagnostics, ¬d.IsStranding) :
    (diagnostics.foldl Reading.emit reading).Reports strandings := by
  induction diagnostics generalizing reading with
  | nil => exact h
  | cons d rest ih =>
    exact ih (h.emit (hd d List.mem_cons_self)) fun e he => hd e (List.mem_cons_of_mem _ he)

/-- One more member is stranded. -/
theorem strand (h : reading.Reports strandings) (d : Diagnostic) :
    (reading.emit d).Reports (strandings ++ [d]) where
  log e he := by simp [Reading.emit, h.log e he]
  filtered := h.filtered

/-- Where nothing is said, nothing more is reported. -/
theorem silent (h : reading.Reports strandings) {after : Reading} (hlog : after.log = reading.log)
    (hfiltered : after.summary.filtered = reading.summary.filtered) : after.Reports strandings where
  log d hd := by rw [hlog, h.log d hd]
  filtered := hfiltered.trans h.filtered

theorem insertCategory (h : reading.Reports strandings) (entity : Entity)
    (comment : Option Comment) : (reading.insertCategory entity comment).Reports strandings := by
  unfold Reading.insertCategory
  split
  · refine (h.emit ?_).silent rfl rfl
    exact Diagnostic.not_isStranding_of_append (s := entity.kind.name ++ " " ++ entity.name)
      (t := " has no base class") rfl (by decide) (by decide)
  · exact h.silent rfl rfl

theorem insertMember (h : reading.Reports strandings)
    (hcontainer : reading.container = slot.container)
    (comment : Option Comment) (hmember : entity.kind.isMember = true) :
    (reading.insertMember entity comment).Reports
      (strandings ++ (slot.strandingOf entity).toList) := by
  have htarget : reading.targetOf? entity = slot.targetOf? entity := by
    rw [Reading.targetOf?, Slot.targetOf?, hcontainer]
  unfold Reading.insertMember Slot.strandingOf
  rw [htarget]
  cases slot.targetOf? entity with
  | none =>
    rw [hmember]
    exact (h.strand entity.stranding).silent rfl rfl
  | some target =>
    have hentered : (reading.enterGroup entity).1.Reports strandings := by
      unfold Reading.enterGroup
      split <;> exact h.silent rfl rfl
    rw [Option.isNone_some, Bool.and_false, if_neg Bool.false_ne_true, Option.toList_none,
      List.append_nil]
    dsimp only
    split <;> exact hentered.silent rfl rfl

/-- An entity is reported exactly where it is stranded. -/
theorem insert (h : reading.Reports strandings) (hcontainer : reading.container = slot.container)
    (entity : Entity) (comment : Option Comment) :
    (reading.insert entity comment).Reports (strandings ++ (slot.strandingOf entity).toList) := by
  rw [Follows.insert_eq]
  split
  · next hmember => exact h.insertMember hcontainer comment hmember
  next hmember =>
  rw [Slot.strandingOf, Bool.eq_false_iff.2 hmember, Bool.false_and,
    if_neg Bool.false_ne_true, Option.toList_none, List.append_nil]
  split
  · exact h.insertCategory entity comment
  split
  · refine (h.emit ?_).silent rfl rfl
    exact Diagnostic.not_isStranding_of_append (s := "unknown declaration " ++ entity.name)
      (t := " skipped") rfl (by decide) (by decide)
  split <;> exact h.silent rfl rfl

/-- Warnings about a comment do not matter. -/
theorem foldl_warn (h : reading.Reports strandings) {raw : List Char} {parsed : Comment.Parsed}
    (hparsed : Comment.Reader.markup.read raw = .ok parsed) (location : Location) :
    (parsed.warnings.foldl (fun reading warning => reading.warn location warning)
      reading).Reports strandings := by
  have hremarks : ∀ warning ∈ parsed.warnings, ∃ remark : Comment.Remark,
      warning = remark.message := fun warning hw => Comment.exists_remark_of_markup hparsed hw
  generalize parsed.warnings = warnings at hremarks
  induction warnings generalizing reading with
  | nil => exact h
  | cons warning rest ih =>
    obtain ⟨remark, hremark⟩ := hremarks warning List.mem_cons_self
    exact ih (h.emit (Diagnostic.not_isStranding_of_remark hremark))
      fun other ho => hremarks other (List.mem_cons_of_mem _ ho)

/-- What is said of a readable entity's comment does not matter. -/
theorem readEntity (h : reading.Reports strandings)
    (hcontainer : reading.container = slot.container) (hentity : entity.Readable) :
    (reading.readEntity {} .markup entity).Reports
      (strandings ++ (slot.strandingOf entity).toList) := by
  unfold Reading.readEntity
  rw [if_neg (by simp [Settings.includesKind])]
  split
  · exact h.insert hcontainer entity none
  split
  · next fault hfault => exact absurd hfault (hentity fault)
  · next parsed hparsed =>
    refine (h.foldl_warn hparsed entity.location).insert ?_ entity _
    rw [container_foldl_warn, hcontainer]

/-- One step of a walk whose own warnings tell of something else. -/
theorem readStep (h : reading.Reports strandings) (hcontainer : reading.container = slot.container)
    (step : List Diagnostic × Option Entity) (hquiet : ∀ d ∈ step.1, ¬d.IsStranding)
    (hreadable : ∀ entity, step.2 = some entity → entity.Readable) :
    (reading.readStep {} .markup step).Reports
      (strandings ++ slot.strandings step.2.toList) := by
  have hwarned := h.foldl_emit hquiet
  unfold Reading.readStep
  cases hs : step.2 with
  | none =>
    rw [Option.toList_none, Slot.strandings, List.append_nil]
    exact hwarned
  | some entity =>
    rw [Option.toList_some, Slot.strandings, Slot.strandings, List.append_nil]
    exact hwarned.readEntity (by rw [container_foldl_emit, hcontainer]) (hreadable entity hs)

/-- A whole walk. -/
theorem foldl_readStep {start : Store} {accepted : List Accepted} {seen : Nat}
    (h : reading.Reports strandings) (hfollows : reading.Follows start slot accepted seen)
    {steps : List (List Diagnostic × Option Entity)}
    (hquiet : ∀ step ∈ steps, ∀ d ∈ step.1, ¬d.IsStranding)
    (hreadable : ∀ step ∈ steps, ∀ entity, step.2 = some entity → entity.Readable)
    (hflavor : ∀ step ∈ steps, ∀ entity, step.2 = some entity →
      (entity.flavor.isSome = true ↔ entity.kind = .method)) :
    (steps.foldl (Reading.readStep {} .markup) reading).Reports
      (strandings ++ slot.strandings (steps.filterMap (·.2))) := by
  induction steps generalizing reading slot strandings accepted seen with
  | nil =>
    rw [List.filterMap_nil, Slot.strandings, List.append_nil]
    exact h
  | cons step rest ih =>
    have hstep := h.readStep hfollows.container step (hquiet step List.mem_cons_self)
      (hreadable step List.mem_cons_self)
    have hnext := hfollows.readStep {} .markup step (hflavor step List.mem_cons_self)
    have hrest := ih hstep hnext (fun s hs => hquiet s (List.mem_cons_of_mem _ hs))
      (fun s hs => hreadable s (List.mem_cons_of_mem _ hs))
      fun s hs => hflavor s (List.mem_cons_of_mem _ hs)
    cases hs : step.2 with
    | none =>
      rw [hs, Option.toList_none, Slot.strandings, List.append_nil] at hrest
      rw [List.filterMap_cons_none hs]
      exact hrest
    | some entity =>
      have hentity := hreadable step List.mem_cons_self entity hs
      rw [hs, Option.toList_some, Slot.after, List.foldl_cons, List.foldl_nil,
        slot.accept_fst hentity, Slot.strandings, Slot.strandings, List.append_nil,
        List.append_assoc] at hrest
      rw [List.filterMap_cons_some hs]
      exact hrest

end Reports

end Reading

end DeclDoc
