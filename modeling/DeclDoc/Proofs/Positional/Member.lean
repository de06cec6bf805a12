import DeclDoc.Diagnostic
import DeclDoc.Proofs.Nesting
import DeclDoc.Proofs.Positional.Variable

/-!
# Members by position

What is read from a position on is its declarations and the warnings about it. `method_pos`,
`property_pos`: a method or property is read from any position with code, and reading it goes on
behind that position. What carries a selector is `Selected`: the position of its name is kept while
its parts are read, and it has one as soon as it is spelled.
-/

set_option autoImplicit false

namespace DeclDoc

open Declaration

namespace Declaration

/-- The selector that parts or, without any, the next word make. -/
def selectorOf (parts : List SelectorPart) (rest : Code) : Option Selector × Code :=
  match parts, rest with
  | first :: more, rest =>
    (some
      { spelling := String.join ((first :: more).map SelectorPart.spelling)
        start := first.start
        parameters := (first :: more).map SelectorPart.fragment }, rest)
  | [], t :: rest =>
    if t.token = .ident then (some ⟨t.word, t.start, []⟩, rest) else (none, t :: rest)
  | [], [] => (none, [])

end Declaration

namespace Positional

/-- What was read: declarations, and warnings about them. -/
structure Output where
  cursors : List Cursor := []
  diagnostics : List Diagnostic := []

def Output.add (output more : Output) : Output :=
  ⟨output.cursors ++ more.cursors, output.diagnostics ++ more.diagnostics⟩

/-- A selector while it is read: its spelling, where its name is, and its parameters. -/
structure SelectorState where
  spelling : String := ""
  name : Option Nat := none
  parameters : List Fragment := []

/-- The same with one more part, which begins at a position. -/
def SelectorState.add (state : SelectorState) (i : Nat) (part : String × Fragment) : SelectorState :=
  ⟨state.spelling ++ part.1, state.name.or (some i), state.parameters ++ [part.2]⟩

namespace Scanner

variable (s : Scanner)

/-! ## Operations -/

def warning (i : Nat) (fault : Fault) : Except Crash Output := do
  let diagnostic ← s.warn i fault.message
  pure { diagnostics := [diagnostic] }

/-- The type in parentheses at a position, and where it ends. -/
def methodType (i : Nat) : Except Crash (String × Nat) :=
  if s.token? i = some .openParen then s.parenText i else .ok ("id", i)

/-- The part of a selector whose colon stands before a position, and where it ends. -/
def methodParameter (keyword : Option String) (i : Nat) :
    Except Crash ((String × Fragment) × Nat) := do
  let (typeName, i) ← s.methodType i
  let spelling := keyword.getD "" ++ ":"
  if s.token? i = some .ident ∧ s.token? (i + 1) ≠ some .colon then do
    let name ← s.word i
    pure ((spelling, .parameter keyword typeName name), i + 1)
  else pure ((spelling, .parameter keyword typeName ""), i)

/-- Reads a part of a selector, or a whole one of one word. -/
def selectorTurn (state : SelectorState) (t : Tok) (i : Nat) :
    Except Crash (Turn SelectorState (SelectorState × Nat)) :=
  if t.token = .ident ∧ s.token? (i + 1) = some .colon then do
    let keyword ← s.word i
    let (part, next) ← s.methodParameter (some keyword) (i + 2)
    pure (.again (state.add i part) next)
  else if t.token = .colon then do
    let (part, next) ← s.methodParameter none (i + 1)
    pure (.again (state.add i part) next)
  else if t.token = .ident ∧ state.spelling = "" then do
    let word ← s.word i
    pure (.leave ({ state with spelling := word, name := some i }, i + 1))
  else .ok (.leave (state, i))

/-- The selector at a position, and where it ends. -/
def methodSelector (i : Nat) : Except Crash (SelectorState × Nat) :=
  s.eachLeft (fun state i => (state, i)) s.selectorTurn {} i

/-- The mark that a method takes further arguments. -/
def variadic (i : Nat) : List Fragment × Nat :=
  if s.token? i = some .comma ∧ s.token? (i + 1) = some .ellipsis then ([.variadic], i + 2)
  else ([], i)

/-- Past the attributes of a method and its semicolon or body. -/
def afterMethod (i : Nat) : Except Crash Nat :=
  s.eachLeft (fun _ i => i)
    (fun _ t i =>
      match t.token with
      | .semicolon => .ok (.leave (i + 1))
      | .openBrace => do pure (.leave (← s.skipBalanced i))
      | .openParen => do pure (.again () (← s.skipBalanced i))
      | .minus | .plus | .atKeyword => .ok (.leave i)
      | _ => .ok (.again () (i + 1)))
    () i

/-- The method at a position, and where the next declaration begins. -/
def method (start : Nat) : Except Crash (Output × Nat) := do
  let kind : CursorKind :=
    if s.token? start = some .plus then .classMethod else .instanceMethod
  let (result, i) ← s.methodType (start + 1)
  let (selector, i) ← s.methodSelector i
  let (variadic, i) := s.variadic i
  let after ← s.afterMethod i
  match selector.name.filter fun _ => selector.spelling ≠ "" with
  | none => do pure (← s.warning start .selectorMissing, after)
  | some name =>
    let cursor ← s.cursor kind selector.spelling name start
    let signature := .returns result :: selector.parameters ++ variadic
    pure ({ cursors := [{ cursor with detail := { signature } }] }, after)

/-- The attributes of a property in parentheses at a position, and where they end. -/
def attributesAt (i : Nat) : Except Crash (List String × Nat) :=
  if s.token? i = some .openParen then do
    let (text, after) ← s.parenText i
    pure (attributeNames text, after)
  else pure ([], i)

/-- The property at a position, and where the next declaration begins. -/
def property (start : Nat) : Except Crash (Output × Nat) := do
  let (attributes, first) ← s.attributesAt (start + 1)
  let stop ← s.endOfSpan .arguments endsProperty first
  let after := s.past .semicolon stop
  match ← s.declaratorName first stop with
  | none => do pure (← s.warning start .propertyNameMissing, after)
  | some name =>
    let typeName ← s.typeText first stop name
    let cursor ← s.cursor .property (← s.word name) name start
    pure ({ cursors := [{ cursor with detail := { attributes, typeName := some typeName } }] }, after)

/-! ## Outputs -/

def ofRemark (remark : Remark) : Diagnostic where
  severity := .warning
  location := some (.ofPosition s.file (s.lines.position remark.offset))
  message := remark.fault.message

/-- What is read where declarations and remarks are. -/
def output (cursors : List Cursor) (remarks : List Remark) : Output :=
  ⟨cursors, remarks.map s.ofRemark⟩

/-- What is read where a member begins at an offset. -/
def ofMember (start : Nat) : Except Fault Cursor → Output
  | .ok cursor => s.output [cursor] []
  | .error fault => s.output [] [⟨start, fault⟩]

variable {s} {full : Code}

/-- A selector was read as it is in the code. -/
inductive Selected (s : Scanner) (full : Code) : SelectorState → Option Selector → Prop where
  | absent : Selected s full {} none
  | present {spelling : String} {parameters : List Fragment} {start : Nat} {name : CodeToken}
    {behind : Code} (hname : name :: behind <:+ full) (hstart : start = name.start)
    (hspelled : spelling ≠ "") :
    Selected s full ⟨spelling, some (s.pos (name :: behind)), parameters⟩
      (some ⟨spelling, start, parameters⟩)

theorem Selected.add {state : SelectorState} {done : List SelectorPart} {part : SelectorPart}
    {t : CodeToken} {rest : Code} (hstate : s.Selected full state (selectorOf done []).1)
    (hcode : t :: rest <:+ full) (hstart : part.start = t.start) :
    s.Selected full (state.add (s.pos (t :: rest)) (part.spelling, part.fragment))
      (selectorOf (done ++ [part]) []).1 := by
  cases done with
  | nil =>
    cases hstate
    exact .present hcode hstart (join_spelling_ne part [])
  | cons first more =>
    have hspelled := join_spelling_ne first (more ++ [part])
    cases hstate with
    | present hname hfirst _ =>
      have hjoin : String.join ((first :: more ++ [part]).map SelectorPart.spelling) =
          String.join ((first :: more).map SelectorPart.spelling) ++ part.spelling := by
        simp [String.join, List.foldl_append]
      have hmap : (first :: more ++ [part]).map SelectorPart.fragment =
          (first :: more).map SelectorPart.fragment ++ [part.fragment] := List.map_append
      rw [← List.cons_append, hjoin] at hspelled
      rw [List.cons_append, selectorOf, ← List.cons_append, hjoin, hmap]
      exact .present hname hfirst hspelled

/-! ## Laws -/

namespace Has

variable (h : s.Has full) {t : CodeToken} {code rest : Code}

include h

theorem warning_pos (fault : Fault) (hcode : t :: rest <:+ full) :
    s.warning (s.pos (t :: rest)) fault = .ok (s.output [] [⟨t.start, fault⟩]) := by
  rw [warning, h.warn_pos hcode]
  rfl

theorem methodType_pos (hcode : code <:+ full) :
    s.methodType (s.pos code) = .ok ((readType code).1, s.pos (readType code).2) := by
  rw [methodType, h.token?_pos hcode, readType]
  cases code with
  | nil => rfl
  | cons t rest =>
    by_cases ht : t.token = .openParen
    · simp [Code.nextIs, Code.next?, ht, h.parenText_pos hcode ht]
    · simp [Code.nextIs, Code.next?, ht]

theorem methodParameter_pos (keyword : Option String) (start : Nat) (hcode : code <:+ full) :
    s.methodParameter keyword (s.pos code) =
      .ok (((SelectorPart.read keyword start code).1.spelling,
        (SelectorPart.read keyword start code).1.fragment),
        s.pos (SelectorPart.read keyword start code).2) := by
  have htype := (readType_suffix code).trans hcode
  rw [methodParameter, h.methodType_pos hcode, ok_bind, SelectorPart.read]
  dsimp only
  rw [h.token?_pos htype]
  cases hbehind : (readType code).2 with
  | nil => rfl
  | cons t rest =>
    rw [hbehind] at htype
    rw [h.pos_cons htype, h.token?_pos ((List.suffix_cons t rest).trans htype), h.word_pos htype]
    have hcolon : (!Code.nextIs rest .colon) = true ↔ Code.next? rest ≠ some .colon := by
      simp only [Code.nextIs, Bool.not_eq_true', beq_eq_false_iff_ne]
    dsimp only
    simp only [hcolon]
    by_cases hnamed : t.token = .ident ∧ Code.next? rest ≠ some .colon
    · rw [if_pos (by simpa [Code.next?] using hnamed), if_pos hnamed]
      rfl
    · rw [if_neg (by simpa [Code.next?] using hnamed), if_neg hnamed]
      rfl

theorem selectorTurn_unnamed (state : SelectorState) (hcode : t :: rest <:+ full)
    (ht : t.token = .colon) :
    let part := SelectorPart.read none t.start rest
    s.selectorTurn state (.ofCode t) (s.pos (t :: rest)) =
      .ok (.again (state.add (s.pos (t :: rest)) (part.1.spelling, part.1.fragment)) (s.pos part.2)) := by
  have hrest := (List.suffix_cons t rest).trans hcode
  simp [selectorTurn, ht, h.pos_cons hcode, h.methodParameter_pos none t.start hrest]

theorem selectorTurn_keyword (state : SelectorState) {colon : CodeToken} {args : Code}
    (hcode : t :: colon :: args <:+ full) (ht : t.token = .ident) (hcolon : colon.token = .colon) :
    let part := SelectorPart.read (some t.word) t.start args
    s.selectorTurn state (.ofCode t) (s.pos (t :: colon :: args)) =
      .ok (.again (state.add (s.pos (t :: colon :: args)) (part.1.spelling, part.1.fragment))
        (s.pos part.2)) := by
  have hrest := (List.suffix_cons t _).trans hcode
  have hargs := (List.suffix_cons colon args).trans hrest
  have htwo : s.pos (t :: colon :: args) + 2 = s.pos args := by
    have := h.pos_cons hcode
    have := h.pos_cons hrest
    omega
  simp [selectorTurn, ht, h.pos_cons hcode, h.token?_pos hrest, Code.next?, hcolon,
    h.word_pos hcode, htwo, h.methodParameter_pos (some t.word) t.start hargs]

/-- Behind all parts `done` of a selector. Without any, the selector is the next word, if there is
one. -/
theorem selectorFrom_end {state : SelectorState} {done : List SelectorPart}
    (hcode : t :: rest <:+ full) (hstate : s.Selected full state (selectorOf done []).1)
    (hcolon : t.token ≠ .colon) (hnext : ¬(t.token = .ident ∧ Code.next? rest = some .colon)) :
    ∃ state', s.eachLeft (fun state i => (state, i)) s.selectorTurn state (s.pos (t :: rest)) =
        .ok (state', s.pos (selectorOf done (t :: rest)).2) ∧
      s.Selected full state' (selectorOf done (t :: rest)).1 := by
  have hrest := (List.suffix_cons t rest).trans hcode
  cases done with
  | nil =>
    cases hstate
    rw [selectorOf]
    by_cases hident : t.token = .ident
    · have hword : t.word ≠ "" := CodeToken.word_ne (h.worded t (hcode.subset List.mem_cons_self))
      have hnot : ¬ Code.next? rest = some .colon := fun hnext' => hnext ⟨hident, hnext'⟩
      rw [if_pos hident]
      refine ⟨_, h.eachLeft_leave hcode ?_, .present hcode rfl hword⟩
      simp [selectorTurn, hident, h.pos_cons hcode, h.token?_pos hrest, hnot, h.word_pos hcode]
    · rw [if_neg hident]
      exact ⟨{}, h.eachLeft_leave hcode (by simp [selectorTurn, hident, hcolon]), .absent⟩
  | cons first more =>
    have hspelled : state.spelling ≠ "" := by
      cases hstate with
      | present _ _ hspelled => exact hspelled
    refine ⟨state, h.eachLeft_leave hcode ?_, hstate⟩
    simp only [selectorTurn, Tok.token_ofCode, h.pos_cons hcode, h.token?_pos hrest, if_neg hnext,
      if_neg hcolon, hspelled, and_false, if_false]
    rfl

/-- Where parts `done` of a selector are read, the others come to the selector of all. -/
theorem selectorFrom_pos {state : SelectorState} {done : List SelectorPart} (hcode : code <:+ full)
    (hstate : s.Selected full state (selectorOf done []).1) :
    ∃ state', s.eachLeft (fun state i => (state, i)) s.selectorTurn state (s.pos code) =
        .ok (state', s.pos (selectorOf (done ++ (selectorParts code).1) (selectorParts code).2).2) ∧
      s.Selected full state' (selectorOf (done ++ (selectorParts code).1) (selectorParts code).2).1 := by
  fun_induction selectorParts code generalizing done state with
  | case1 t rest ht =>
    rename_i ih
    have hbehind := SelectorPart.read_suffix none t.start rest
    obtain ⟨state', hread, hselected⟩ := ih (hbehind.trans ((List.suffix_cons t rest).trans hcode))
      (hstate.add hcode (SelectorPart.start_read none t.start rest))
    rw [List.append_assoc] at hread hselected
    have hturn := h.selectorTurn_unnamed state hcode ht
    exact ⟨state', (h.eachLeft_again _ hcode hbehind hturn).trans hread, hselected⟩
  | case2 t rest _ ht =>
    rename_i ih
    obtain ⟨colon, args, rfl⟩ : ∃ colon args, rest = colon :: args := by
      cases rest with
      | nil => exact absurd ht.2 (by simp [Code.nextIs, Code.next?])
      | cons colon args => exact ⟨colon, args, rfl⟩
    have hcolon : colon.token = .colon := by simpa [Code.nextIs, Code.next?] using ht.2
    have hbehind := (SelectorPart.read_suffix (some t.word) t.start args).trans
      (List.suffix_cons colon args)
    obtain ⟨state', hread, hselected⟩ := ih (hbehind.trans ((List.suffix_cons t _).trans hcode))
      (hstate.add hcode (SelectorPart.start_read (some t.word) t.start args))
    rw [List.append_assoc] at hread hselected
    have hturn := h.selectorTurn_keyword state hcode ht.1 hcolon
    exact ⟨state', (h.eachLeft_again _ hcode hbehind hturn).trans hread, hselected⟩
  | case3 t rest hcolon ht =>
    rw [List.append_nil]
    exact h.selectorFrom_end hcode hstate hcolon (by simpa [Code.nextIs] using ht)
  | case4 =>
    rw [List.append_nil]
    refine ⟨state, ?_, hstate⟩
    cases done <;> exact eachLeft_nil

theorem methodSelector_pos (hcode : code <:+ full) :
    ∃ state, s.methodSelector (s.pos code) = .ok (state, s.pos (readSelector code).2) ∧
      s.Selected full state (readSelector code).1 :=
  have hnone : s.Selected full {} (selectorOf [] []).1 := .absent
  h.selectorFrom_pos hcode hnone

theorem variadic_pos (hcode : code <:+ full) :
    s.variadic (s.pos code) = ((readVariadic code).1, s.pos (readVariadic code).2) := by
  rw [Scanner.variadic, h.token?_pos hcode]
  match code, hcode with
  | [], _ => rfl
  | [c], hcode =>
    rw [h.pos_cons hcode, h.token?_pos List.nil_suffix, if_neg (by simp [Code.next?])]
    rfl
  | c :: e :: rest, hcode =>
    have hrest := (List.suffix_cons c _).trans hcode
    have htwo : s.pos (c :: e :: rest) + 2 = s.pos rest := by
      have := h.pos_cons hcode
      have := h.pos_cons hrest
      omega
    rw [h.pos_cons hcode, h.token?_pos hrest, htwo, readVariadic]
    by_cases hmark : c.token = .comma ∧ e.token = .ellipsis <;> simp [Code.next?, hmark]

theorem afterMethod_pos (hcode : code <:+ full) :
    s.afterMethod (s.pos code) = .ok (s.pos (Declaration.afterMethod code)) := by
  unfold Scanner.afterMethod
  fun_induction Declaration.afterMethod code with
  | case1 => exact eachLeft_nil
  | case2 t rest ht => exact h.eachLeft_leave hcode (by simp [ht, h.pos_cons hcode])
  | case3 t rest ht =>
    have hskip : s.skipBalanced (s.pos (t :: rest)) = .ok (s.pos (afterBraces rest)) :=
      h.skipBalanced_pos .brace hcode ht
    exact h.eachLeft_leave hcode (by simp [ht, hskip])
  | case4 t rest ht ih =>
    have hafter := Bracket.skip_suffix .paren 1 rest
    refine (h.eachLeft_again () hcode hafter ?_).trans
      (ih ((hafter.trans (List.suffix_cons t rest)).trans hcode))
    simp [ht, h.skipBalanced_pos .paren hcode ht]
  | case5 t rest ht | case6 t rest ht | case7 t rest ht =>
    exact h.eachLeft_leave hcode (by simp [ht])
  | case8 t rest _ _ _ _ _ _ ih =>
    refine (h.eachLeft_again () hcode List.suffix_rfl ?_).trans
      (ih ((List.suffix_cons t rest).trans hcode))
    simp [h.pos_cons hcode]

theorem method_pos (hcode : t :: rest <:+ full) :
    s.method (s.pos (t :: rest)) =
      .ok (s.ofMember t.start (readMethod t rest).1, s.pos (readMethod t rest).2) := by
  have hrest := (List.suffix_cons t rest).trans hcode
  have htype := (readType_suffix rest).trans hrest
  have hselector := (readSelector_suffix _).trans htype
  have hvariadic := (readVariadic_suffix _).trans hselector
  have hplus : s.token? (s.pos (t :: rest)) = some .plus ↔ t.token = .plus := by
    rw [h.token?_pos hcode]
    exact Option.some_inj
  obtain ⟨state, hread, hselected⟩ := h.methodSelector_pos htype
  rw [method, h.pos_cons hcode, h.methodType_pos hrest, ok_bind]
  dsimp only
  rw [hread, ok_bind]
  dsimp only
  rw [h.variadic_pos hselector]
  dsimp only
  rw [h.afterMethod_pos hvariadic, ok_bind, readMethod]
  dsimp only
  simp only [hplus]
  generalize (readSelector (readType rest).2).1 = selector at hselected
  cases hselected with
  | absent =>
    rw [Option.filter_none, h.warning_pos _ hcode]
    rfl
  | present hname hstart hspelled =>
    rw [Option.filter_some, if_pos (by simpa using hspelled)]
    dsimp only
    rw [h.cursor_pos _ _ hname hcode, hstart]
    rfl

theorem attributesAt_pos (hcode : code <:+ full) :
    s.attributesAt (s.pos code) = .ok ((readAttributes code).1, s.pos (readAttributes code).2) := by
  rw [attributesAt, h.token?_pos hcode, readAttributes]
  cases code with
  | nil => rfl
  | cons t rest =>
    by_cases ht : t.token = .openParen
    · simp [Code.nextIs, Code.next?, ht, h.parenText_pos hcode ht]
    · simp [Code.nextIs, Code.next?, ht]

theorem property_pos (hcode : t :: rest <:+ full) :
    s.property (s.pos (t :: rest)) =
      .ok (s.ofMember t.start (readProperty t rest).1, s.pos (readProperty t rest).2) := by
  have hrest := (List.suffix_cons t rest).trans hcode
  have hattributes := (readAttributes_suffix rest).trans hrest
  rw [property, h.pos_cons hcode, h.attributesAt_pos hrest, ok_bind, readProperty]
  dsimp only
  rw [h.endOfSpan_pos _ _ hattributes, ok_bind]
  generalize hspan : spanTop .arguments endsProperty 0 (readAttributes rest).2 = span
  have hsplit : span.1 ++ span.2 = (readAttributes rest).2 := by
    rw [← hspan]
    exact spanTop_append ..
  rw [← hsplit] at hattributes ⊢
  have hbehind := (List.suffix_append span.1 span.2).trans hattributes
  rw [h.declaratorName_pos hattributes, ok_bind, h.past_pos _ hbehind, dropSemicolon]
  cases hfind : Declarator.find? span.1 with
  | none =>
    simp only [Option.map_none]
    rw [h.warning_pos _ hcode]
    rfl
  | some declarator =>
    obtain hpart : declarator.code = span.1 := Declarator.find?_append hfind
    rw [← hpart, Declarator.code_append] at hattributes ⊢
    have hname := (List.suffix_append declarator.before _).trans hattributes
    simp only [Option.map_some]
    rw [h.typeText_pos hattributes, ok_bind, h.word_pos hname, ok_bind, h.cursor_pos _ _ hname hcode]
    rfl

end Has

end Scanner

end Positional

end DeclDoc
