import DeclDoc.Extraction
import DeclDoc.Proofs.Membership
import DeclDoc.Proofs.Positional.Comment
import DeclDoc.Proofs.Positional.Container

/-!
# Reading by positions never crashes

A source is scanned by positions, and its entities are pulled one by one with the comments before
them sliced out of it. `parse_eq`, `pull_eq`: that never crashes and comes to what the built-in
scanner and its walk come to. Comments are looked for where cursors begin; any cursors may be walked
that begin between two characters (`pull_eq_of_boundaries`), and those of a source begin at lexemes.
-/

set_option autoImplicit false

namespace DeclDoc

open Cursor (preorderAll)

namespace Positional

/-! ## Operations -/

/-- The declarations and warnings of a file. -/
def parse (path : String) (source : List Char) : Except Crash (Except FileError TranslationUnit) :=
  if (Language.ofPath? path).isNone then .ok (.error (.unsupported path))
  else if source.contains '\x00' then
    .ok (.error (.untranslatable path "input contains NUL bytes"))
  else do
    let s ← Scanner.ofSource path source
    let output ← s.scan
    pure (.ok ⟨output.cursors, output.diagnostics⟩)

namespace Comments

variable (comments : Comments) (file : SourceFile)

/-- The entity of a visit, with the comment and the group that are read at offsets. -/
def entity (groupFrom : Nat) (visit : Visit) (kind : Kind) : Except Crash Entity := do
  let group ← (if kind.isMember then comments.groupBetween groupFrom visit.cursor.extent
    else pure none)
  let rawComment ← comments.preceding visit.cursor.extent
  pure { Walk.entity file groupFrom visit kind with rawComment, group }

/-- Visits cursors until one is an entity. -/
def nextFrom (lastOffset : Option Nat) (groupFrom : Nat) : (stack : List Visit) → Except Crash Walk.Step
  | [] => .ok {}
  | visit :: rest =>
    if visit.cursor.kind = .compoundStatement then nextFrom lastOffset groupFrom rest
    else
      match visit.cursor.entityKind? visit.inUnnamedEnum with
      | none =>
        nextFrom lastOffset groupFrom
          (Walk.childVisits visit.cursor visit.parent (visit.cursor.kind == .enumeration) ++ rest)
      | some kind =>
        match Walk.skip? visit.cursor kind lastOffset with
        | some skip => do
          let step ← nextFrom lastOffset groupFrom rest
          pure (step.warn
            { severity := .warning
              location := some (visit.cursor.locationIn file)
              message := skip.message })
        | none => do
          let found ← comments.entity file groupFrom visit kind
          pure
            { next := some (found,
                { stack := Walk.memberVisits found visit.cursor ++ rest
                  lastOffset := some visit.cursor.offset
                  groupFrom :=
                    if Walk.isNestedRoot visit kind then groupFrom else visit.cursor.offset }) }
termination_by stack => Walk.size stack
decreasing_by
  · rw [Walk.size_cons, Cursor.size_eq]; omega
  · exact Walk.size_childVisits_append_lt ..
  · rw [Walk.size_cons, Cursor.size_eq]; omega

/-- All steps of a walk. One that leaves no less to visit is a crash. -/
def steps (walk : Walk) : Except Crash (List (List Diagnostic × Option Entity)) := do
  let step ← comments.nextFrom file walk.lastOffset walk.groupFrom walk.stack
  match step.next with
  | none => pure [(step.diagnostics, none)]
  | some (found, rest) =>
    if Walk.size rest.stack < Walk.size walk.stack then do
      let behind ← steps rest
      pure ((step.diagnostics, some found) :: behind)
    else .error .stuck
termination_by Walk.size walk.stack

end Comments

/-- All entities of a file; the diagnostics of its scan come before the first. -/
def pull (path : String) (source : List Char) (unit : TranslationUnit) :
    Except Crash (List (List Diagnostic × Option Entity)) := do
  let steps ← (Comments.ofSource source).steps (.ofText path source) (.ofCursors unit.cursors)
  match steps with
  | [] => pure []
  | (diagnostics, entity) :: rest => pure ((unit.diagnostics ++ diagnostics, entity) :: rest)

/-! ## Scanning -/

theorem parse_eq (arguments : List String) (path : String) (source : List Char) :
    parse path source = .ok (FrontEnd.scanner.translate arguments path source) := by
  unfold parse FrontEnd.translate FrontEnd.scanner
  dsimp only
  split
  · rfl
  · split
    · rfl
    · obtain ⟨s, hs, h, rfl, hsource⟩ := has_ofSource path source
      have hlines : s.lines = .ofText source := by rw [h.lines, hsource]
      rw [hs, ok_bind, h.scan_pos]
      have hwarnings : (Declaration.scan (Code.ofLexemes (lex source).1)).remarks.map s.ofRemark =
          FrontEnd.scanWarnings s.file source (Declaration.scanText source).remarks := by
        rw [FrontEnd.scanWarnings, ← hlines]
        rfl
      rw [ok_bind, Scanner.output, hwarnings]
      rfl

/-! ## Pulling -/

namespace Comments

variable {source : List Char} {stack : List Visit}

/-- The cursors to be visited begin between two characters of the source, or at one of its ends. -/
def AtBoundaries (source : List Char) (stack : List Visit) : Prop :=
  ∀ cursor ∈ preorderAll (stack.map Visit.cursor), Text.IsBoundary source cursor.extent

theorem entity_eq (path : String) {visit : Visit} (groupFrom : Nat) (kind : Kind)
    (h : Text.IsBoundary source visit.cursor.extent) :
    (ofSource source).entity (.ofText path source) groupFrom visit kind =
      .ok (Walk.entity (.ofText path source) groupFrom visit kind) := by
  rw [entity, groupBetween_eq path, preceding_eq path h]
  cases hmember : kind.isMember <;> simp [Walk.entity, hmember]

theorem AtBoundaries.mono {left : List Visit} (h : AtBoundaries source stack)
    (hleft : (preorderAll (left.map Visit.cursor)).Sublist (preorderAll (stack.map Visit.cursor)).tail) :
    AtBoundaries source left :=
  fun cursor hc => h cursor (List.mem_of_mem_tail (hleft.subset hc))

/-- Visiting comes to the same step, and what it leaves begins at boundaries as well. -/
theorem nextFrom_eq (path : String) (lastOffset : Option Nat) (groupFrom : Nat)
    (h : AtBoundaries source stack) :
    (ofSource source).nextFrom (.ofText path source) lastOffset groupFrom stack =
        .ok (Walk.nextFrom (.ofText path source) lastOffset groupFrom stack) ∧
      ∀ found rest, (Walk.nextFrom (.ofText path source) lastOffset groupFrom stack).next =
        some (found, rest) → AtBoundaries source rest.stack := by
  fun_induction Walk.nextFrom (.ofText path source) lastOffset groupFrom stack with
  | case1 =>
    refine ⟨by rw [nextFrom], fun found rest hnext => ?_⟩
    cases hnext
  | case2 visit rest hcompound ih =>
    rw [nextFrom, if_pos hcompound]
    exact ih (h.mono Walk.sublist_rest)
  | case3 visit rest hcompound hkind ih =>
    rw [nextFrom, if_neg hcompound, hkind]
    exact ih (h.mono (by rw [Walk.sublist_childVisits]))
  | case4 visit rest hcompound kind hkind skip hskip ih =>
    obtain ⟨hstep, hrest⟩ := ih (h.mono Walk.sublist_rest)
    rw [nextFrom, if_neg hcompound, hkind]
    dsimp only
    rw [hskip]
    dsimp only
    rw [hstep]
    exact ⟨rfl, hrest⟩
  | case5 visit rest hcompound kind hkind hskip =>
    have hfound := entity_eq path groupFrom kind
      (h visit.cursor (by simp [Cursor.preorderAll_cons]))
    rw [nextFrom, if_neg hcompound, hkind]
    dsimp only
    rw [hskip]
    dsimp only
    rw [hfound]
    refine ⟨rfl, fun found left hnext => ?_⟩
    cases hnext
    exact h.mono (Walk.sublist_memberVisits ..)

theorem steps_eq (path : String) (walk : Walk) (h : AtBoundaries source walk.stack) :
    (ofSource source).steps (.ofText path source) walk =
      .ok (walk.steps (.ofText path source)) := by
  fun_induction Walk.steps (.ofText path source) walk with
  | case1 walk hnone =>
    have hstep : _ = Except.ok (walk.next _) := (nextFrom_eq path walk.lastOffset walk.groupFrom h).1
    rw [steps, hstep, ok_bind, hnone]
    rfl
  | case2 walk found rest hsome ih =>
    obtain ⟨hstep, hrest⟩ := nextFrom_eq path walk.lastOffset walk.groupFrom h
    have hstep : _ = Except.ok (walk.next _) := hstep
    rw [steps, hstep, ok_bind, hsome]
    dsimp only
    rw [if_pos (Walk.size_next_lt hsome), ih (hrest found rest hsome)]
    rfl

end Comments

/-- Entities are pulled without a crash from any cursors that begin at boundaries of the source. -/
theorem pull_eq_of_boundaries (path : String) {source : List Char} {unit : TranslationUnit}
    (h : ∀ cursor ∈ preorderAll unit.cursors, Text.IsBoundary source cursor.extent) :
    pull path source unit = .ok (unit.steps (.ofText path source)) := by
  have hstack : Comments.AtBoundaries source (Walk.ofCursors unit.cursors).stack := by
    intro cursor hc
    exact h cursor (by simpa [Walk.ofCursors, Function.comp_def] using hc)
  rw [pull, Comments.steps_eq path _ hstack, ok_bind, TranslationUnit.steps]
  cases (Walk.ofCursors unit.cursors).steps (.ofText path source) <;> rfl

theorem pull_eq (path : String) (source : List Char) (diagnostics : List Diagnostic) :
    let unit : TranslationUnit := ⟨(Declaration.scanText source).cursors, diagnostics⟩
    pull path source unit = .ok (unit.steps (.ofText path source)) := by
  refine pull_eq_of_boundaries path fun cursor hc => ?_
  obtain ⟨x, hx, -, hstart⟩ := Declaration.exists_lexeme_of_scanText hc
  exact hstart ▸ (Comments.isBoundary_of_lex hx).1

end Positional

/-- A walk is at its end after its last step. -/
theorem Walk.exists_last_steps (file : SourceFile) (walk : Walk) :
    ∃ front diagnostics, walk.steps file = front ++ [(diagnostics, none)] := by
  fun_induction Walk.steps file walk with
  | case1 walk hnone => exact ⟨[], _, rfl⟩
  | case2 walk found rest hsome ih =>
    obtain ⟨front, diagnostics, hsteps⟩ := ih
    exact ⟨_ :: front, diagnostics, by rw [hsteps]; rfl⟩

theorem TranslationUnit.exists_last_steps (unit : TranslationUnit) (file : SourceFile) :
    ∃ front diagnostics, unit.steps file = front ++ [(diagnostics, none)] := by
  obtain ⟨front, diagnostics, hsteps⟩ := (Walk.ofCursors unit.cursors).exists_last_steps file
  rw [TranslationUnit.steps, hsteps]
  cases front with
  | nil => exact ⟨[], _, rfl⟩
  | cons first front => exact ⟨_ :: front, diagnostics, rfl⟩

namespace Positional

/-- Every supported file without NUL characters is scanned by positions, and its entities pulled to
the last, without a crash: no position is behind the tokens, no slice of the source out of bounds or
inside a character, no depth below zero, and every iteration comes further. What is read is what the
built-in scanner reads. -/
theorem scan_and_pull_ok (arguments : List String) {path : String} {source : List Char}
    (hpath : (Language.ofPath? path).isSome = true) (hsource : '\x00' ∉ source) :
    ∃ unit front diagnostics,
      parse path source = .ok (.ok unit) ∧
      FrontEnd.scanner.translate arguments path source = .ok unit ∧
      pull path source unit = .ok (front ++ [(diagnostics, none)]) ∧
      unit.steps (.ofText path source) = front ++ [(diagnostics, none)] := by
  have hunit := Extraction.translate_scanner hpath hsource arguments
  obtain ⟨front, diagnostics, hsteps⟩ := TranslationUnit.exists_last_steps
    ⟨(Declaration.scanText source).cursors,
      FrontEnd.scanWarnings path source (Declaration.scanText source).remarks⟩ (.ofText path source)
  refine ⟨_, front, diagnostics, ?_, hunit, ?_, hsteps⟩
  · rw [parse_eq arguments, hunit]
  · rw [← hsteps]
    exact pull_eq path source _

/-- A header that breaks off inside the type of a method, with brackets left open. -/
def tornHeader : List Char := "@interface Torn <A (\n/// Never closed.\n- (void".toList

theorem scan_and_pull_tornHeader :
    (Language.ofPath? "Torn.h").isSome = true ∧ '\x00' ∉ tornHeader ∧
      ∃ unit front diagnostics,
        parse "Torn.h" tornHeader = .ok (.ok unit) ∧
        FrontEnd.scanner.translate [] "Torn.h" tornHeader = .ok unit ∧
        pull "Torn.h" tornHeader unit = .ok (front ++ [(diagnostics, none)]) ∧
        unit.steps (.ofText "Torn.h" tornHeader) = front ++ [(diagnostics, none)] := by
  have hpath : (Language.ofPath? "Torn.h").isSome = true := by decide +kernel
  have hsource : '\x00' ∉ tornHeader := by decide
  exact ⟨hpath, hsource, scan_and_pull_ok [] hpath hsource⟩

end Positional

end DeclDoc
