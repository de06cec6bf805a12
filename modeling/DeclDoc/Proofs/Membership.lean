import DeclDoc.Proofs.Enclosure

/-!
# Members and their containers

The built-in scanner reads a source without settings: what is accepted of it goes to the spots of its
cursors, and exactly the stranded members are reported (`Extraction.readSource_scanned`).

`Extraction.keepsMembers_iff`: a member of a class, category or protocol is stored in exactly that
container unless a named enumeration stands before it there, and the values of a named enumeration
always are.
-/

set_option autoImplicit false

namespace DeclDoc

open Cursor (preorderAll)

/-! ## Entities of a walk -/

namespace Walk

variable {file : SourceFile} {groupFrom : Nat} {stack : List Visit} {found : Entity}

/-- A walk hands out entities of its cursors only. -/
theorem exists_visit_of_mem (h : found ∈ entitiesFrom file groupFrom stack) :
    ∃ from' visit kind, visit.cursor ∈ preorderAll (stack.map Visit.cursor) ∧
      found = entity file from' visit kind := by
  fun_induction entitiesFrom file groupFrom stack with
  | case1 => cases h
  | case2 groupFrom visit rest _ ih =>
    obtain ⟨from', found, kind, hc, heq⟩ := ih h
    exact ⟨from', found, kind, (sublist_rest.trans (List.tail_sublist _)).subset hc, heq⟩
  | case3 groupFrom visit rest _ _ ih =>
    obtain ⟨from', found, kind, hc, heq⟩ := ih h
    rw [sublist_childVisits] at hc
    exact ⟨from', found, kind, List.mem_of_mem_tail hc, heq⟩
  | case4 groupFrom visit rest _ kind _ entity ih =>
    rcases List.mem_cons.1 h with rfl | h
    · refine ⟨groupFrom, visit, kind, ?_, rfl⟩
      rw [List.map_cons, Cursor.preorderAll_cons]
      exact List.mem_cons_self
    · obtain ⟨from', found, kind, hc, heq⟩ := ih h
      exact ⟨from', found, kind,
        ((sublist_memberVisits entity).trans (List.tail_sublist _)).subset hc, heq⟩

/-- An entity's comment stands before a cursor of the walk. -/
theorem rawComment_of_mem (h : found ∈ entitiesFrom file groupFrom stack) :
    ∃ cursor ∈ preorderAll (stack.map Visit.cursor),
      found.rawComment = file.commentBefore cursor.extent := by
  obtain ⟨from', visit, kind, hc, rfl⟩ := exists_visit_of_mem h
  exact ⟨visit.cursor, hc, rfl⟩

end Walk

/-- A comment with a body can be read. -/
theorem Entity.readable_of_body {entity : Entity}
    (h : ∀ e, Comment.body entity.rawComment ≠ .error e) : entity.Readable := by
  intro fault hread
  unfold Comment.Reader.markup Comment.Dialect.reader at hread
  dsimp only at hread
  cases hr : Comment.read .markup entity.rawComment with
  | error e => exact h e (Comment.read_eq_error_iff.1 hr)
  | ok reading =>
    rw [hr] at hread
    cases hread

/-- The steps of a walk of tidy cursors, with the diagnostics of a front-end before the first. -/
theorem TranslationUnit.steps_of_tidy {unit : TranslationUnit} (file : SourceFile)
    (h : Cursor.Tidy unit.cursors) :
    (unit.steps file).filterMap (·.2) =
        Walk.entitiesFrom file 0 (unit.cursors.map fun cursor => ⟨cursor, none, false⟩) ∧
      ∀ step ∈ unit.steps file, ∀ d ∈ step.1, d ∈ unit.diagnostics := by
  have htidy : Walk.Tidy none (Walk.ofCursors unit.cursors).stack := by
    refine ⟨?_, fun _ h => by cases h⟩
    simpa [Walk.ofCursors, Function.comp_def] using h
  obtain ⟨hentities, hquiet⟩ := Walk.steps_of_tidy file (.ofCursors unit.cursors) htidy
  unfold steps
  split
  · next hsteps =>
    rw [hsteps] at hentities
    exact ⟨hentities, fun step hstep => by cases hstep⟩
  · next warnings entity rest hsteps =>
    rw [hsteps] at hentities hquiet
    refine ⟨hentities, ?_⟩
    intro step hstep d hd
    rcases List.mem_cons.1 hstep with rfl | hstep
    · have hwarnings : warnings = [] := hquiet _ List.mem_cons_self
      rwa [hwarnings, List.append_nil] at hd
    · rw [hquiet step (List.mem_cons_of_mem _ hstep)] at hd
      cases hd

/-! ## Sources -/

namespace Extraction

variable {path : String} {source : List Char}

/-- The built-in scanner takes every supported file without NUL characters. -/
theorem translate_scanner (hpath : (Language.ofPath? path).isSome = true)
    (hsource : '\x00' ∉ source) (arguments : List String) :
    FrontEnd.scanner.translate arguments path source =
      .ok ⟨(Declaration.scanText source).cursors,
        FrontEnd.scanWarnings path source (Declaration.scanText source).remarks⟩ := by
  have hnone : (Language.ofPath? path).isNone = false := by
    rw [← Option.not_isSome, hpath]
    rfl
  have hcontains : source.contains '\x00' = false := by simpa using hsource
  rw [FrontEnd.translate, hnone, if_neg Bool.false_ne_true, FrontEnd.scanner]
  dsimp only
  rw [hnone, if_neg Bool.false_ne_true, hcontains, if_neg Bool.false_ne_true]

/-- No fault of a source tells of a member without a container. -/
theorem not_isStranding_of_scanWarnings {remarks : List Declaration.Remark} {d : Diagnostic}
    (h : d ∈ FrontEnd.scanWarnings path source remarks) : ¬d.IsStranding := by
  obtain ⟨remark, -, rfl⟩ := List.mem_map.1 h
  exact Diagnostic.not_isStranding_of_fault (show _ = remark.fault.message from rfl)

/-- The comments in a source have bodies. -/
theorem body_scanned (path : String) (source : List Char) :
    ∀ entity ∈ Walk.entitiesFrom (.ofText path source) 0
      ((Declaration.scanText source).cursors.map fun cursor => ⟨cursor, none, false⟩),
      ∀ e, Comment.body entity.rawComment ≠ .error e := by
  intro entity h
  obtain ⟨cursor, hc, hraw⟩ := Walk.rawComment_of_mem h
  have hmem : cursor ∈ preorderAll (Declaration.scanText source).cursors := by
    simpa [Function.comp_def] using hc
  obtain ⟨x, hx, -, hextent⟩ := Declaration.exists_lexeme_of_scanText hmem
  rw [hraw, ← hextent]
  exact SourceFile.body_commentBefore hx

theorem readable_scanned (path : String) (source : List Char) :
    ∀ entity ∈ Walk.entitiesFrom (.ofText path source) 0
      ((Declaration.scanText source).cursors.map fun cursor => ⟨cursor, none, false⟩),
      entity.Readable :=
  fun entity h => Entity.readable_of_body (body_scanned path source entity h)

/-- A reading that has said what a file holds. -/
def begun (extraction : Extraction) (store : Store) (path : String) (unit : TranslationUnit) :
    Reading :=
  { store, log := [.note .debug (topLevelNote path extraction.frontEnd unit)] }

/-- Reading a file is going through the steps of its walk. -/
theorem readSource_eq (extraction : Extraction) (unit : TranslationUnit)
    (hpath : extraction.settings.includesPath path = true)
    (hunit : extraction.frontEnd.translate extraction.settings.compilerArguments path source =
      .ok unit) (store : Store) :
    let steps := unit.steps (.ofText path source)
    let done := steps.foldl (Reading.readStep extraction.settings extraction.dialect)
      (extraction.begun store path unit)
    extraction.entitiesOf path source = steps.filterMap (·.2) ∧
      extraction.readSource store path source = ⟨.ok done.summary, done.store,
        done.log ++ [.note .debug (summaryNote path done.summary)]⟩ := by
  constructor
  · simp only [entitiesOf, hpath, hunit, Bool.not_true, Bool.false_eq_true, if_false]
  · simp only [readSource, hpath, hunit, begun, Bool.not_true, Bool.false_eq_true, if_false]

/-- What is accepted of a walk of tidy cursors, what is said of the rest, and how many entities there
are. -/
theorem summary_of_steps {steps : List (List Diagnostic × Option Entity)} {reading : Reading}
    {start : Store} (hfollows : reading.Follows start {} [] 0)
    (hreports : reading.Reports [])
    (hquiet : ∀ step ∈ steps, ∀ d ∈ step.1, ¬d.IsStranding)
    (hreadable : ∀ step ∈ steps, ∀ entity, step.2 = some entity → entity.Readable)
    (hflavor : ∀ step ∈ steps, ∀ entity, step.2 = some entity →
      (entity.flavor.isSome = true ↔ entity.kind = .method))
    (hcount : (steps.filterMap (·.2)).length =
      (Slot.spots {} (steps.filterMap (·.2))).length +
        (Slot.strandings {} (steps.filterMap (·.2))).length) :
    let done := steps.foldl (Reading.readStep {} .markup) reading
    done.Reports (Slot.strandings {} (steps.filterMap (·.2))) ∧
      done.summary =
        { entities := (Slot.spots {} (steps.filterMap (·.2))).length
          filtered := 0
          skipped := (Slot.strandings {} (steps.filterMap (·.2))).length } := by
  intro done
  have hdone := hfollows.foldl_readStep {} .markup steps hflavor
  have hsaid := hreports.foldl_readStep hfollows hquiet hreadable hflavor
  have hall : ∀ entity ∈ steps.filterMap (·.2), entity.Readable := fun entity he => by
    obtain ⟨step, hstep, hs⟩ := List.mem_filterMap.1 he
    exact hreadable step hstep entity hs
  have hspots := congrArg List.length (Slot.spots_acceptAll {} hall)
  rw [List.length_map] at hspots
  refine ⟨hsaid, ?_⟩
  have hentities := hdone.entities
  have htotal := hdone.total
  have hfiltered := hsaid.filtered
  rw [List.nil_append] at hentities
  rw [Nat.zero_add] at htotal
  show done.summary = _
  have hsummary : done.summary = ⟨done.summary.entities, done.summary.filtered, done.summary.skipped⟩ :=
    rfl
  rw [hsummary]
  congr 1
  · exact hentities.trans hspots
  · simp only [Summary.total] at htotal
    have : done.summary.entities + done.summary.filtered + done.summary.skipped =
      (steps.filterMap (·.2)).length := htotal
    have : done.summary.filtered = 0 := hfiltered
    have : done.summary.entities = _ := hentities
    omega

/-- What is accepted of a source, what is said of the rest, and how many entities there are. -/
theorem readSource_scanned (hpath : (Language.ofPath? path).isSome = true)
    (hsource : '\x00' ∉ source) {store : Store} {before : List Accepted}
    (hstore : store.Holds before) :
    let file := SourceFile.ofText path source
    let cursors := (Declaration.scanText source).cursors
    let result := ({} : Extraction).readSource store path source
    (({} : Extraction).acceptedOf path source).map Accepted.spot =
        cursors.flatMap (Cursor.spots file) ∧
      (∀ d : Diagnostic, d.IsStranding →
        (.diagnostic d ∈ result.log ↔ d ∈ cursors.flatMap (Cursor.strandings file))) ∧
      result.outcome = .ok
        { entities := (cursors.flatMap (Cursor.spots file)).length
          filtered := 0
          skipped := (cursors.flatMap (Cursor.strandings file)).length } := by
  intro file cursors result
  let unit : TranslationUnit :=
    ⟨cursors, FrontEnd.scanWarnings path source (Declaration.scanText source).remarks⟩
  obtain ⟨hentities, hresult⟩ :=
    readSource_eq {} unit rfl (translate_scanner hpath hsource []) store
  obtain ⟨hwalk, hquiet⟩ := unit.steps_of_tidy file (Declaration.tidy_scanText source)
  obtain ⟨hspots, hstrandings, hcount⟩ :=
    Slot.spots_entitiesFrom file (Declaration.located_scanText source).shape
  have hreadable := readable_scanned path source
  have hfollows : Reading.Follows store (begun {} store path unit) {} [] 0 :=
    .begin hstore.keyed rfl rfl rfl rfl
  have hreports : Reading.Reports (begun {} store path unit) [] :=
    ⟨fun d _ => by simp [begun], rfl⟩
  obtain ⟨hsaid, hsummary⟩ := summary_of_steps hfollows hreports
    (fun step hstep d hd => not_isStranding_of_scanWarnings (hquiet step hstep d hd))
    (fun step hstep entity hs => hreadable entity (hwalk ▸ List.mem_filterMap.2 ⟨step, hstep, hs⟩))
    (fun step hstep entity => unit.flavor_of_mem_steps hstep)
    (by rw [hwalk, hspots, hstrandings]; exact hcount)
  rw [hwalk, hspots, hstrandings] at hsummary
  rw [hwalk, hstrandings] at hsaid
  refine ⟨?_, ?_, ?_⟩
  · rw [acceptedOf, hentities, hwalk, ← hspots]
    exact Slot.spots_acceptAll {} hreadable
  · intro d hd
    show .diagnostic d ∈ (readSource {} store path source).log ↔ _
    rw [hresult, ← hsaid.log d hd]
    exact (List.mem_append.trans (or_iff_left (by simp)))
  · show (readSource {} store path source).outcome = _
    rw [hresult]
    exact congrArg Except.ok hsummary

end Extraction

/-! ## Stored members -/

/-- The store has the member that a cursor declares in a container. -/
def Store.Stores (store : Store) (file : SourceFile) (container : ContainerRef) (cursor : Cursor) :
    Prop :=
  ∃ info, store.infoAt? ⟨container, [cursor.key]⟩ = some info ∧
    cursor.locationIn file ∈ info.declaredIn ∧ info.parent = some container.key

theorem Accepted.parent_of_path (a : Accepted) {container : ContainerRef} {key : NodeKey}
    (h : a.path = ⟨container, [key]⟩) : a.parent = some container.key := by
  unfold path at h
  unfold parent
  split at h
  · cases h
  · cases h
  · next hstanding =>
    cases h
    rw [hstanding]

/-- A member that is accepted for its container is stored there. -/
theorem Store.Holds.stores {store : Store} {accepted : List Accepted} (h : store.Holds accepted)
    {file : SourceFile} {container : ContainerRef} {cursor : Cursor} {a : Accepted}
    (ha : a ∈ accepted) (hspot : a.spot = cursor.spotAt file ⟨container, [cursor.key]⟩) :
    store.Stores file container cursor := by
  have hpath : a.path = ⟨container, [cursor.key]⟩ := congrArg Prod.fst hspot
  have hlocation : a.entity.location = cursor.locationIn file := congrArg Prod.snd hspot
  obtain ⟨info, hinfo⟩ :=
    Option.isSome_iff_exists.1 ((h.isSome_infoAt?_iff ⟨container, [cursor.key]⟩).2 ⟨a, ha, hpath⟩)
  have htells := h.tells ⟨container, [cursor.key]⟩
  rw [hinfo] at htells
  refine ⟨info, hinfo, ?_, ?_⟩
  · rw [← hlocation]
    exact (NodeInfo.Summarizes.declaredIn htells _).2
      ⟨a.info, mem_infosAt.2 ⟨a, ha, hpath, rfl⟩, List.mem_singleton.2 rfl⟩
  · have hparents : ∀ d ∈ infosAt accepted ⟨container, [cursor.key]⟩,
        d.parent = some container.key := by
      intro d hd
      obtain ⟨b, -, hb, rfl⟩ := mem_infosAt.1 hd
      exact b.parent_of_path hb
    rw [NodeInfo.Summarizes.parent htells]
    cases hall : infosAt accepted ⟨container, [cursor.key]⟩ with
    | nil =>
      have hmem := mem_infosAt.2 ⟨a, ha, hpath, rfl⟩
      rw [hall] at hmem
      cases hmem
    | cons d rest => rw [List.findSome?_cons, hparents d (hall ▸ List.mem_cons_self)]

/-- What is claimed of the members of a source: each is stored in its container, and none is reported
to have no container. -/
def FileResult.KeepsMembers (result : FileResult) (file : SourceFile) (cursors : List Cursor) :
    Prop :=
  (∀ c ∈ preorderAll cursors, Cursor.isContainerKind c.kind = true ∨ c.isNamedEnum = true →
    ∀ m ∈ c.children, m.isMember = true ∨ m.kind = .enumerator →
      result.store.Stores file c.ref m) ∧
  ∀ d : Diagnostic, .diagnostic d ∈ result.log → ¬d.IsStranding

namespace Extraction

variable {path : String} {source : List Char}

/-- Reading a source without settings keeps its members exactly where no container holds a member
behind a named enumeration. A member before such an enumeration, and a value of a named enumeration,
is stored in its container; a member behind one goes nowhere and is reported, and nothing else is
reported so. -/
theorem keepsMembers_iff (hpath : (Language.ofPath? path).isSome = true)
    (hsource : '\x00' ∉ source) {store : Store} {before : List Accepted}
    (hstore : store.Holds before) :
    let file := SourceFile.ofText path source
    let cursors := (Declaration.scanText source).cursors
    let result := ({} : Extraction).readSource store path source
    (result.KeepsMembers file cursors ↔
      ∀ c ∈ preorderAll cursors, Cursor.isContainerKind c.kind = true →
        Cursor.stranded c.children = []) ∧
    (∀ c ∈ preorderAll cursors, Cursor.isContainerKind c.kind = true ∨ c.isNamedEnum = true →
      ∀ front m back, c.children = front ++ m :: back → m.isMember = true ∨ m.kind = .enumerator →
        if front.any Cursor.isNamedEnum then .diagnostic (m.stranding file) ∈ result.log
        else result.store.Stores file c.ref m) ∧
    (∀ d : Diagnostic, d.IsStranding → (.diagnostic d ∈ result.log ↔
      ∃ c ∈ preorderAll cursors, Cursor.isContainerKind c.kind = true ∧
        ∃ m ∈ Cursor.stranded c.children, d = m.stranding file)) ∧
    (({} : Extraction).acceptedOf path source).map Accepted.spot =
      cursors.flatMap (Cursor.spots file) ∧
    result.outcome = .ok
      { entities := (cursors.flatMap (Cursor.spots file)).length
        filtered := 0
        skipped := (cursors.flatMap (Cursor.strandings file)).length } := by
  intro file cursors result
  obtain ⟨hspots, hlog, houtcome⟩ := readSource_scanned hpath hsource hstore
  have hshape := (Declaration.located_scanText source).shape
  have hholds : result.store.Holds (before ++ ({} : Extraction).acceptedOf path source) :=
    (readSource_holds {} hstore path source).1
  have hstores : ∀ (c : Cursor) (ref : ContainerRef),
      c.spotAt file ⟨ref, [c.key]⟩ ∈ cursors.flatMap (Cursor.spots file) →
        result.store.Stores file ref c := by
    intro c ref hc
    rw [← hspots] at hc
    obtain ⟨a, ha, hspot⟩ := List.mem_map.1 hc
    exact hholds.stores (List.mem_append_right _ ha) hspot
  have hreports : ∀ d : Diagnostic, d.IsStranding → (.diagnostic d ∈ result.log ↔
      ∃ c ∈ preorderAll cursors, Cursor.isContainerKind c.kind = true ∧
        ∃ m ∈ Cursor.stranded c.children, d = m.stranding file) := fun d hd =>
    (hlog d hd).trans (Cursor.mem_strandings_iff hshape)
  refine ⟨⟨fun h c hc hkind => ?_, fun h => ⟨fun c hc hkind m hm hmember => ?_, fun d hd hds => ?_⟩⟩,
    fun c hc hkind front m back hchildren hm => ?_, hreports, hspots, houtcome⟩
  · apply List.eq_nil_iff_forall_not_mem.2
    intro m hm
    have hstranding : (m.stranding file).IsStranding := Cursor.isStranding_stranding hm
    exact h.2 _ ((hreports _ hstranding).2 ⟨c, hc, hkind, m, hm, rfl⟩) hstranding
  · obtain ⟨front, back, hchildren⟩ := List.append_of_mem hm
    have hspot := Cursor.IsTop.spot_of_member file hshape hc hkind hchildren hmember
    split at hspot
    · rw [h c hc hspot.1] at hspot
      cases hspot.2
    · exact hstores m c.ref hspot
  · obtain ⟨c, hc, hkind, m, hm, -⟩ := (hreports d hds).1 hd
    rw [h c hc hkind] at hm
    cases hm
  · have hspot := Cursor.IsTop.spot_of_member file hshape hc hkind hchildren hm
    split at hspot
    · next hfront =>
      rw [if_pos hfront]
      exact (hreports _ (Cursor.isStranding_stranding hspot.2)).2
        ⟨c, hc, hspot.1, m, hspot.2, rfl⟩
    · next hfront =>
      rw [if_neg hfront]
      exact hstores m c.ref hspot

/-- A method behind a named enumeration. -/
def methodBehindEnum : List Char := "@interface Foo\nenum Bar { A };\n- (void)m;\n@end".toList

theorem keepsMembers_methodBehindEnum :
    (Language.ofPath? "Foo.h").isSome = true ∧ '\x00' ∉ methodBehindEnum ∧ Store.Holds {} [] ∧
      ¬(({} : Extraction).readSource {} "Foo.h" methodBehindEnum).KeepsMembers
        (.ofText "Foo.h" methodBehindEnum) (Declaration.scanText methodBehindEnum).cursors := by
  have hpath : (Language.ofPath? "Foo.h").isSome = true := by decide +kernel
  have hsource : '\x00' ∉ methodBehindEnum := by decide
  refine ⟨hpath, hsource, .empty, ?_⟩
  intro h
  have hnone := (keepsMembers_iff hpath hsource .empty).1.1 h
  have hsome : ((preorderAll (Declaration.scanText methodBehindEnum).cursors).all fun c =>
      !Cursor.isContainerKind c.kind || (Cursor.stranded c.children).isEmpty) = false := by
    decide +kernel
  rw [List.all_eq_true.2] at hsome
  · cases hsome
  · intro c hc
    by_cases hkind : Cursor.isContainerKind c.kind = true
    · rw [hnone c hc hkind, List.isEmpty_nil, Bool.or_true]
    · rw [Bool.eq_false_iff.2 hkind, Bool.not_false, Bool.true_or]

end Extraction

end DeclDoc
