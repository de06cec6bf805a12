import DeclDoc.Proofs.Relabel

/-!
# Code that begins further on

A `Shift` moves code tokens by as many bytes for each and changes nothing else. What is scanned from
shifted code is what is scanned from the code, at places that are shifted alike (`scan_shift`): no
reader looks at where a token begins but to say where a declaration is.
-/

set_option autoImplicit false

namespace DeclDoc

/-- A change of where code tokens begin. -/
structure Shift extends Relabel where
  amount : Nat
  start : ∀ t, (apply t).start = t.start + amount
  lead : ∀ t, (apply t).lead = t.lead
  afterComment : ∀ t, (apply t).afterComment = t.afterComment

attribute [simp] Shift.start Shift.lead Shift.afterComment

/-- The shift by `n` bytes. -/
def Shift.of (n : Nat) : Shift where
  apply t := { t with start := t.start + n }
  token _ := rfl
  text _ := rfl
  amount := n
  start _ := rfl
  lead _ := rfl
  afterComment _ := rfl

namespace Cursor

mutual

/-- The cursor as it lies when its source begins `n` bytes further on. -/
def shift (n : Nat) : Cursor → Cursor
  | ⟨kind, spelling, offset, extent, location, detail, children⟩ =>
    ⟨kind, spelling, offset + n, extent + n, location, detail, shifts n children⟩

def shifts (n : Nat) : List Cursor → List Cursor
  | [] => []
  | cursor :: rest => cursor.shift n :: shifts n rest

end

theorem shifts_eq_map (n : Nat) (cursors : List Cursor) : shifts n cursors = cursors.map (shift n) := by
  induction cursors with
  | nil => rw [shifts, List.map_nil]
  | cons cursor rest ih => rw [shifts, ih, List.map_cons]

@[simp] theorem shift_mk (n : Nat) (kind : CursorKind) (spelling : String) (offset extent : Nat)
    (location : Option Location) (detail : CursorDetail) (children : List Cursor) :
    shift n ⟨kind, spelling, offset, extent, location, detail, children⟩ =
      ⟨kind, spelling, offset + n, extent + n, location, detail, children.map (shift n)⟩ := by
  rw [shift, shifts_eq_map]

theorem kind_shift (n : Nat) (cursor : Cursor) : (cursor.shift n).kind = cursor.kind := by
  cases cursor
  rw [shift_mk]

theorem extent_shift (n : Nat) (cursor : Cursor) :
    (cursor.shift n).extent = cursor.extent + n := by
  cases cursor
  rw [shift_mk]

end Cursor

variable {e : Shift}

namespace Code

@[simp] theorem trail_shift (code : Code) : trail (code.map e.apply) = code.trail := by
  simp [trail, List.flatMap_map]

@[simp] theorem text_shift (code : Code) : text (code.map e.apply) = code.text := by
  cases code <;> simp [text]

@[simp] theorem line_shift (code : Code) : line (code.map e.apply) = code.line := by
  simp [line]

theorem start_shift {code : Code} (h : code ≠ []) : start (code.map e.apply) = code.start + e.amount := by
  cases code with
  | nil => exact absurd rfl h
  | cons t rest => simp [start]

end Code

namespace Declaration

/-! ## Variables and functions -/

@[simp] theorem Declarator.typeName_shift (declarator : Declarator) :
    (declarator.relabel e.toRelabel).typeName = declarator.typeName := by
  rw [typeName, typeName, isWrapped_relabel, typeTokens_relabel]
  simp [relabel]

theorem Declarator.toVariable_shift (declarator : Declarator) (extent : Nat) (typeName : String) :
    (declarator.relabel e.toRelabel).toVariable (extent + e.amount) typeName =
      (declarator.toVariable extent typeName).shift e.amount := by
  simp [toVariable, relabel]

theorem variableOf?_shift (code : Code) :
    variableOf? (code.map e.apply) = (variableOf? code).map (Cursor.shift e.amount) := by
  cases code with
  | nil => rfl
  | cons t rest =>
    rw [variableOf?, variableOf?, variableDeclarator?_map, Code.start_shift (List.cons_ne_nil t rest)]
    cases variableDeclarator? (t :: rest) with
    | none => rfl
    | some declarator => simp [Declarator.toVariable_shift]

theorem sharedType_shift (first : Declarator) :
    sharedType (first.relabel e.toRelabel) = sharedType first := by
  simp [sharedType, ← List.map_reverse, Declarator.dropWhile_isPointerMark_map]

theorem laterVariable?_shift (shared : String) (part : Code) :
    laterVariable? shared (part.map e.apply) =
      (laterVariable? shared part).map (Cursor.shift e.amount) := by
  cases part with
  | nil => rfl
  | cons t rest =>
    rw [laterVariable?, laterVariable?, withoutInitializer_map, Declarator.find?_map,
      Code.start_shift (List.cons_ne_nil t rest)]
    cases Declarator.find? (withoutInitializer (t :: rest)) with
    | none => rfl
    | some declarator => simp [Declarator.toVariable_shift]

theorem variablesOf_shift (head : Code) :
    variablesOf (head.map e.apply) = (variablesOf head).map (Cursor.shift e.amount) := by
  have hlater : ∀ (shared : String) (parts : List Code),
      (parts.map (List.map e.apply)).filterMap (laterVariable? shared) =
        (parts.filterMap (laterVariable? shared)).map (Cursor.shift e.amount) := by
    intro shared parts
    rw [List.filterMap_map, List.map_filterMap]
    exact List.filterMap_congr fun part _ => laterVariable?_shift shared part
  rw [variablesOf, variablesOf, splitCommas_map]
  cases splitCommas .initializers head with
  | nil => rfl
  | cons first more =>
    simp only [List.map_cons, withoutInitializer_map, variableDeclarator?_map]
    cases hfirst : variableDeclarator? (withoutInitializer first) with
    | none => rfl
    | some declarator =>
      have hne : first ≠ [] := by
        rintro rfl
        cases hfirst
      simp only [Option.map_some, Code.start_shift hne, Declarator.typeName_shift,
        Declarator.toVariable_shift, sharedType_shift, hlater, List.map_cons]

theorem typedef?_shift (first : CodeToken) (more : Code) :
    typedef? (e.apply first) (more.map e.apply) =
      (typedef? first more).map (Cursor.shift e.amount) := by
  rw [typedef?, typedef?, Declarator.find?_map]
  cases Declarator.find? more with
  | none => rfl
  | some declarator =>
    have hprepend : (declarator.relabel e.toRelabel).prepend (e.apply first) =
        (declarator.prepend first).relabel e.toRelabel := rfl
    simp only [Option.map_some, hprepend, Declarator.typeName_shift]
    simp [Declarator.relabel]

@[simp] theorem parameter_shift (part : Code) : parameter (part.map e.apply) = parameter part := by
  have hnamed : canBeNamed (part.map e.apply) = canBeNamed part := by
    rw [canBeNamed, canBeNamed, List.getLast?_map, List.length_map]
    cases part.getLast? <;> simp
  have hfind := Declarator.find?_map (e := e.toRelabel) part
  match part with
  | [t] =>
    have hline := Code.line_shift (e := e) [t]
    rw [List.map_cons, List.map_nil] at hline ⊢
    rw [parameter, parameter, Relabel.token, hline]
  | [] => rfl
  | t :: u :: rest =>
    have hline := Code.line_shift (e := e) (t :: u :: rest)
    rw [List.map_cons, List.map_cons] at hnamed hfind hline ⊢
    simp only [parameter, hnamed, hfind, hline]
    cases canBeNamed (t :: u :: rest) with
    | false => rfl
    | true =>
      cases Declarator.find? (t :: u :: rest) with
      | none => rfl
      | some declarator =>
        simp only [if_true, Option.map_some, Declarator.typeName_shift]
        simp [Declarator.relabel]

theorem parameterParts_map (inside : Code) :
    parameterParts (inside.map e.apply) = (parameterParts inside).map (List.map e.apply) := by
  simp only [parameterParts, splitCommas_map, List.getLast?_map]
  cases (splitCommas .arguments inside).getLast? with
  | none => rfl
  | some last =>
    simp only [Option.map_some, Option.any_some, List.isEmpty_map]
    split
    · rw [List.map_dropLast]
    · rfl

@[simp] theorem parameters_shift (inside : Code) :
    parameters (inside.map e.apply) = parameters inside := by
  have hall : ∀ parts : List Code,
      ((parts.map (List.map e.apply)).filter fun part => !part.isEmpty).map parameter =
        (parts.filter fun part => !part.isEmpty).map parameter := by
    intro parts
    rw [List.filter_map, List.map_map]
    simp [Function.comp_def]
  rw [parameters, parameters, parameterParts_map]
  match parameterParts inside with
  | [] => rfl
  | [[]] => rfl
  | [[t]] =>
    have hone := parameter_shift (e := e) [t]
    simp only [List.map_cons, List.map_nil] at hone ⊢
    rw [Relabel.isWord, hone]
  | [t :: u :: rest] => exact hall [t :: u :: rest]
  | [] :: second :: more => exact hall ([] :: second :: more)
  | [t] :: second :: more => exact hall ([t] :: second :: more)
  | (t :: u :: first) :: second :: more => exact hall ((t :: u :: first) :: second :: more)

theorem function?_shift (head : Code) :
    function? (head.map e.apply) = (function? head).map (Cursor.shift e.amount) := by
  cases head with
  | nil => simp [function?, splitArguments?]
  | cons first more =>
    have hsplit := splitArguments?_map (e := e.toRelabel) [] (first :: more)
    rw [List.map_nil] at hsplit
    rw [function?, function?, hsplit, Code.start_shift (List.cons_ne_nil first more)]
    rcases splitArguments? [] (first :: more) with _ | ⟨_ | ⟨name, reversed⟩, after⟩
    · rfl
    · rfl
    · simp only [Option.map_some, List.map_cons, ← List.map_reverse, dropStorage_map, Relabel.token,
        Relabel.isReserved, isPointerMark_head?_map, List.isEmpty_map, Bracket.close?_map,
        Relabel.word, Shift.start, Code.line_shift]
      split
      · cases Bracket.paren.close? 1 after with
        | none => rfl
        | some group => simp [Group.relabel]
      · rfl

/-! ## Enumerations and records -/

theorem enumerators_shift (code : Code) :
    enumerators (code.map e.apply) =
      ((enumerators code).1.map (Cursor.shift e.amount), (enumerators code).2.map e.apply) := by
  fun_induction enumerators code with
  | case1 => simp [enumerators]
  | case2 t rest ht => simp [enumerators, ht]
  | case3 t rest ht more ih =>
    have henumerator : enumerator (e.apply t) = (enumerator t).shift e.amount := by simp [enumerator]
    rw [List.map_cons, enumerators]
    simp only [Relabel.token, ht, afterEnumerator_map, ih, Relabel.isAttribute, henumerator]
    split <;> rfl
  | case4 t rest hclose hident ih =>
    rw [List.map_cons, enumerators]
    simpa using ih

/-- The head of an enumeration in shifted code. -/
def EnumHead.shift (e : Shift) (head : EnumHead) : EnumHead :=
  { head with keyword := e.apply head.keyword, name := head.name.map e.apply }

theorem EnumHead.ofMacro_shift (keyword : CodeToken) (after : Code) :
    ofMacro (e.apply keyword) (after.map e.apply) = (ofMacro keyword after).shift e := by
  cases after with
  | nil => rfl
  | cons p args =>
    simp only [List.map_cons, ofMacro, Relabel.token, Bracket.close?_map]
    split
    · cases Bracket.paren.close? 1 args with
      | none => rfl
      | some group =>
        simp only [Option.map_some, Group.relabel, shift, ← List.map_reverse, List.find?_map,
          List.any_map, Function.comp_def, Relabel.token, Code.before_map, Code.line_shift]
    · rfl

theorem EnumHead.typeAfterColon?_shift (code : Code) :
    typeAfterColon? (code.map e.apply) = typeAfterColon? code := by
  cases code <;> simp [typeAfterColon?]

theorem EnumHead.ofKeyword_shift (keyword : CodeToken) (after : Code) :
    ofKeyword (e.apply keyword) (after.map e.apply) = (ofKeyword keyword after).shift e := by
  rw [ofKeyword, ofKeyword, dropClass_map]
  cases if after.head?.any (·.isWordOf ["class", "struct"]) then after.tail else after with
  | nil => rfl
  | cons t rest =>
    have htype := typeAfterColon?_shift (e := e) (t :: rest)
    rw [List.map_cons] at htype ⊢
    simp only [Relabel.token, htype, typeAfterColon?_shift]
    split <;> rfl

theorem enumeration_shift (head : EnumHead) (isTypedef : Bool) (extent : Nat) (code : Code) :
    enumeration (head.shift e) isTypedef (extent + e.amount) (code.map e.apply) =
      ((enumeration head isTypedef extent code).1.shift e.amount,
        (enumeration head isTypedef extent code).2.map e.apply) := by
  simp only [enumeration, enumerators_shift, readTail_map, EnumHead.shift, Cursor.shift_mk]
  cases (readTail isTypedef (enumerators code).2).1 with
  | none => cases head.name <;> simp
  | some name => simp

theorem record_shift (keyword : CodeToken) (after : Code) (isTypedef : Bool) (extent : Nat)
    (code : Code) :
    record (e.apply keyword) (after.map e.apply) isTypedef (extent + e.amount) (code.map e.apply) =
      ((record keyword after isTypedef extent code).1.map (Cursor.shift e.amount),
        (record keyword after isTypedef extent code).2.map e.apply) := by
  simp only [record, afterBraces_map, readTail_map, recordTag?_map, recordKind_apply]
  cases (readTail isTypedef (afterBraces code)).1 with
  | none => cases recordTag? after <;> simp
  | some name => simp

/-! ## Plain declarations -/

theorem lastRestart?_shift (code : Code) :
    lastRestart? (code.map e.apply) = (lastRestart? code).map (List.map e.apply) := by
  induction code with
  | nil => rfl
  | cons t rest ih =>
    rw [List.map_cons, lastRestart?, lastRestart?, ih, Relabel.token, Shift.afterComment]
    split
    · rfl
    · cases lastRestart? rest <;> cases t.afterComment <;> rfl

theorem restart_shift (head : Code) : restart (head.map e.apply) = (restart head).map e.apply := by
  rw [restart, restart, ← List.map_tail, lastRestart?_shift]
  cases lastRestart? head.tail <;> rfl

theorem terminated_shift (head : Code) :
    terminated (head.map e.apply) = (terminated head).map (Cursor.shift e.amount) := by
  cases head with
  | nil => rfl
  | cons first more =>
    have hforward := isForward_map (e := e.toRelabel) (first :: more)
    have hfunction := function?_shift (e := e) (first :: more)
    have hvariables := variablesOf_shift (e := e) (first :: more)
    rw [List.map_cons] at hforward hfunction hvariables ⊢
    simp only [terminated, Relabel.isWord, Relabel.isWordOf, hforward]
    split
    · rw [typedef?_shift, Option.toList_map]
    split
    · rfl
    · rw [hfunction]
      cases function? (first :: more) with
      | none => exact hvariables
      | some cursor => rfl

theorem findWord?_ne_nil {words : List String} {head : Code} {found : CodeToken × Code}
    (h : findWord? words head = some found) : head ≠ [] := by
  rintro rfl
  cases h

theorem braced_shift (head code : Code) :
    braced (head.map e.apply) (code.map e.apply) =
      ((braced head code).1.map (Cursor.shift e.amount), (braced head code).2.map e.apply) := by
  simp only [braced, isWord_head?_map, any_token_map, withoutInitializer_map, variableOf?_shift,
    afterBraces_map, afterStatement_map, findWord?_map, function?_shift, isTransparent_map]
  split
  · cases variableOf? (withoutInitializer head) <;> rfl
  cases hmacro : findWord? enumMacros head with
  | some found =>
    simp only [Option.map_some, Code.start_shift (findWord?_ne_nil hmacro), readEnumeration,
      EnumHead.ofMacro_shift, enumeration_shift, List.map_cons, List.map_nil]
  | none =>
    dsimp only [Option.map_none]
    cases function? head with
    | some cursor => rfl
    | none =>
      dsimp only [Option.map_none]
      cases henum : findWord? ["enum"] head with
      | some found =>
        simp only [Option.map_some, Code.start_shift (findWord?_ne_nil henum), readEnumeration,
          EnumHead.ofKeyword_shift, enumeration_shift, List.map_cons, List.map_nil]
      | none =>
        dsimp only [Option.map_none]
        cases hrecord : findWord? recordWords head with
        | some found =>
          simp only [Option.map_some, Code.start_shift (findWord?_ne_nil hrecord), readRecord,
            record_shift]
          cases (record found.1 found.2 (head.head?.any (·.isWord "typedef")) head.start code).1 <;>
            rfl
        | none =>
          dsimp only [Option.map_none]
          split <;> rfl

theorem readPlain_shift (code : Code) :
    readPlain (code.map e.apply) =
      ((readPlain code).1.map (Cursor.shift e.amount), (readPlain code).2.map e.apply) := by
  unfold readPlain
  rw [spanHead_map]
  cases (spanHead code).2 with
  | nil => rfl
  | cons t rest =>
    simp only [List.map_cons, Relabel.token, List.isEmpty_map, restart_shift]
    split
    · rw [terminated_shift]
    · rw [braced_shift]
    · split <;> rfl

/-! ## Members -/

theorem readParenText_shift (code : Code) :
    readParenText (code.map e.apply) =
      ((readParenText code).1, (readParenText code).2.map e.apply) := by
  rw [readParenText, readParenText, Bracket.close?_map]
  cases Bracket.paren.close? 1 code with
  | some group => simp [Group.relabel]
  | none =>
    have hlast : (code.map e.apply).getLast?.any (·.token == .closeParen) =
        code.getLast?.any (·.token == .closeParen) := by
      rw [List.getLast?_map]
      cases code.getLast? <;> simp
    simp only [Option.map_none, hlast, ← List.map_dropLast]
    split <;> rw [Code.line_shift, List.map_nil]

theorem readType_shift (code : Code) :
    readType (code.map e.apply) = ((readType code).1, (readType code).2.map e.apply) := by
  rw [readType, readType, Code.nextIs_map]
  split
  · rw [← List.map_tail, readParenText_shift]
  · rfl

namespace SelectorPart

/-- A part of a selector in shifted code. -/
def shift (n : Nat) (part : SelectorPart) : SelectorPart := { part with start := part.start + n }

theorem read_shift (keyword : Option String) (start : Nat) (code : Code) :
    read keyword (start + e.amount) (code.map e.apply) =
      ((read keyword start code).1.shift e.amount, (read keyword start code).2.map e.apply) := by
  rw [read, read, readType_shift]
  cases (readType code).2 with
  | nil => rfl
  | cons t rest =>
    simp only [List.map_cons, Relabel.token, Code.nextIs_map, Relabel.word]
    split <;> rfl

end SelectorPart

theorem selectorParts_shift (code : Code) :
    selectorParts (code.map e.apply) =
      ((selectorParts code).1.map (SelectorPart.shift e.amount),
        (selectorParts code).2.map e.apply) := by
  fun_induction selectorParts code with
  | case1 t rest ht part more ih =>
    rw [List.map_cons, selectorParts, Relabel.token, if_pos ht]
    simp only [Shift.start, SelectorPart.read_shift, List.map_cons]
    exact congrArg (fun read => (part.1.shift e.amount :: read.1, read.2)) ih
  | case2 t rest ht hword part more ih =>
    rw [List.map_cons, selectorParts, Relabel.token, if_neg ht, Code.nextIs_map, if_pos hword]
    simp only [Shift.start, Relabel.word, ← List.map_tail, SelectorPart.read_shift, List.map_cons]
    exact congrArg (fun read => (part.1.shift e.amount :: read.1, read.2)) ih
  | case3 t rest ht hword =>
    rw [List.map_cons, selectorParts]
    simp [ht, hword]
  | case4 => simp [selectorParts]

/-- A selector in shifted code. -/
def Selector.shift (n : Nat) (selector : Selector) : Selector :=
  { selector with start := selector.start + n }

theorem readSelector_shift (code : Code) :
    readSelector (code.map e.apply) =
      ((readSelector code).1.map (Selector.shift e.amount), (readSelector code).2.map e.apply) := by
  have hspelling : SelectorPart.spelling ∘ SelectorPart.shift e.amount = SelectorPart.spelling := rfl
  have hfragment : SelectorPart.fragment ∘ SelectorPart.shift e.amount = SelectorPart.fragment := rfl
  unfold readSelector
  rw [selectorParts_shift]
  dsimp only
  cases (selectorParts code).1 with
  | cons first more =>
    simp only [List.map_cons, List.map_map, hspelling, hfragment]
    rfl
  | nil =>
    cases (selectorParts code).2 with
    | nil => rfl
    | cons t rest =>
      simp only [List.map_cons, List.map_nil, Relabel.token, Relabel.word, Shift.start]
      split <;> rfl

theorem readMethod_shift (sign : CodeToken) (code : Code) :
    readMethod (e.apply sign) (code.map e.apply) =
      ((readMethod sign code).1.map (Cursor.shift e.amount), (readMethod sign code).2.map e.apply) := by
  simp only [readMethod, readType_shift, readSelector_shift, readVariadic_map, afterMethod_map,
    Relabel.token, Shift.start]
  cases (readSelector (readType code).2).1 with
  | none => rfl
  | some selector => simp [Except.map, Selector.shift]

theorem readAttributes_shift (code : Code) :
    readAttributes (code.map e.apply) =
      ((readAttributes code).1, (readAttributes code).2.map e.apply) := by
  rw [readAttributes, readAttributes, Code.nextIs_map, ← List.map_tail, readParenText_shift]
  split <;> rfl

theorem readProperty_shift (keyword : CodeToken) (code : Code) :
    readProperty (e.apply keyword) (code.map e.apply) =
      ((readProperty keyword code).1.map (Cursor.shift e.amount),
        (readProperty keyword code).2.map e.apply) := by
  simp only [readProperty, readAttributes_shift, spanTop_map, dropSemicolon_map,
    Declarator.find?_map]
  cases Declarator.find? (spanTop .arguments endsProperty 0 (readAttributes code).2).1 with
  | none => rfl
  | some declarator =>
    simp only [Option.map_some, Declarator.typeName_shift]
    simp [Except.map, Declarator.relabel]

/-! ## Heads of containers -/

theorem macroDefinition?_shift (directive : CodeToken) :
    macroDefinition? (e.apply directive) =
      (macroDefinition? directive).map (Cursor.shift e.amount) := by
  simp only [macroDefinition?, Relabel.text, Shift.start]
  split
  · rfl
  · split
    · simp [Nat.add_right_comm]
    · rfl

/-- The name of a category in shifted code. -/
def CategoryName.shift (n : Nat) (category : CategoryName) : CategoryName :=
  { category with offset := category.offset + n }

theorem readCategory_shift (owner : CodeToken) (code : Code) :
    readCategory (e.apply owner) (code.map e.apply) =
      ((readCategory owner code).1.map (CategoryName.shift e.amount),
        (readCategory owner code).2.map e.apply) := by
  rw [readCategory, readCategory, Code.nextIs_map]
  split
  · refine Prod.ext ?_ ?_
    · match code with
      | [] => simp [CategoryName.shift]
      | [_] => simp [CategoryName.shift]
      | p :: t :: rest =>
        by_cases ht : t.token = .ident <;> simp [ht, Option.filter, CategoryName.shift]
    · simp [← List.map_tail, List.dropWhile_map, Function.comp_def]
  · rfl

theorem readHead_shift (isImplementation : Bool) (extent : Nat) (name : CodeToken) (code : Code) :
    readHead isImplementation (extent + e.amount) (e.apply name) (code.map e.apply) =
      ((readHead isImplementation extent name code).1.shift e.amount,
        (readHead isImplementation extent name code).2.map e.apply) := by
  simp only [readHead, readNames_map, readCategory_shift, readSuperclass_map, afterVariables_map,
    Code.nextIs_map, Relabel.word, Shift.start]
  cases (readCategory name (readNames code).2).1 <;> simp [CategoryName.shift]

/-! ## Containers and sources -/

def Remark.shift (n : Nat) (remark : Remark) : Remark := { remark with offset := remark.offset + n }

/-- What is scanned in shifted code. -/
def Scanned.shift (e : Shift) (scanned : Scanned) : Scanned :=
  ⟨scanned.cursors.map (Cursor.shift e.amount), scanned.remarks.map (Remark.shift e.amount),
    scanned.rest.map e.apply⟩

namespace Scanned

theorem shift_prepend (cursors : List Cursor) (scanned : Scanned) :
    (scanned.prepend cursors).shift e =
      (scanned.shift e).prepend (cursors.map (Cursor.shift e.amount)) := by
  simp [prepend, shift]

theorem shift_prependMember (start : Nat) (member : Except Fault Cursor) (scanned : Scanned) :
    (scanned.prependMember start member).shift e =
      (scanned.shift e).prependMember (start + e.amount) (member.map (Cursor.shift e.amount)) := by
  cases member with
  | ok cursor => exact shift_prepend [cursor] scanned
  | error fault => rfl

theorem shift_withMembers (cursor : Cursor) (members : Scanned) (h : cursor.children = []) :
    (withMembers cursor members).shift e =
      withMembers (cursor.shift e.amount) (members.shift e) := by
  cases cursor
  simp [withMembers, shift]

end Scanned

theorem readMembers_shift (opener : Nat) (code : Code) :
    readMembers (opener + e.amount) (code.map e.apply) = (readMembers opener code).shift e := by
  induction code using readMembers_induction with
  | nil => simp [readMembers_nil, Scanned.shift, Remark.shift]
  | close t rest ht hword =>
    rw [List.map_cons, readMembers_end (by rwa [e.token]) (by rwa [e.word]), readMembers_end ht hword]
    rfl
  | property t rest ht hword ih =>
    rw [List.map_cons, readMembers_property (by rwa [e.token]) (by rwa [e.word]),
      readMembers_property ht hword, Scanned.shift_prependMember, ← ih, readProperty_shift, Shift.start]
  | opens t rest ht hword =>
    rw [List.map_cons, readMembers_opens (by rwa [e.token]) (by rwa [e.word]),
      readMembers_opens ht hword]
    rfl
  | statement t rest ht hword ih =>
    rw [List.map_cons, readMembers_statement (by rwa [e.token]) (by rwa [e.word]),
      readMembers_statement ht hword, afterStatement_map, ih]
  | keyword t rest ht hword ih =>
    rw [List.map_cons, readMembers_keyword (by rwa [e.token]) (by rwa [e.word]),
      readMembers_keyword ht hword, ih]
  | method t rest ht ih =>
    rw [List.map_cons, readMembers_method (by rwa [e.token]), readMembers_method ht,
      Scanned.shift_prependMember, ← ih, readMethod_shift, Shift.start]
  | braces t rest ht ih =>
    rw [List.map_cons, readMembers_braces (by rwa [e.token]), readMembers_braces ht, afterBraces_map,
      ih]
  | directive t rest ht ih =>
    rw [List.map_cons, readMembers_directive (by rwa [e.token]), readMembers_directive ht,
      Scanned.shift_prepend, ← ih, macroDefinition?_shift, Option.toList_map]
  | separator t rest ht ih =>
    rw [List.map_cons, readMembers_separator (by rwa [e.token]), readMembers_separator ht, ih]
  | plain t rest ht ih =>
    rw [List.map_cons, readMembers_readPlain (by rwa [e.token]), readMembers_readPlain ht,
      ← List.map_cons, readPlain_shift, Scanned.shift_prepend, ← ih]

theorem readContainer_shift (keyword : CodeToken) (code : Code) :
    readContainer (e.apply keyword) (code.map e.apply) = (readContainer keyword code).shift e := by
  have hmissing : ∀ code : Code,
      (⟨[], [⟨keyword.start + e.amount, .classNameMissing keyword.word⟩], code.map e.apply⟩ : Scanned) =
        Scanned.shift e ⟨[], [⟨keyword.start, .classNameMissing keyword.word⟩], code⟩ := fun _ => rfl
  cases code with
  | nil => simp [readContainer, Scanned.shift, Remark.shift]
  | cons name rest =>
    have hchildren : (readHead (keyword.word == "@implementation") keyword.start name rest).1.children =
        [] := by
      unfold readHead
      dsimp only
      split <;> rfl
    simp only [readContainer, List.map_cons, Relabel.token, Relabel.word, Shift.start, readHead_shift,
      readMembers_shift]
    split
    · rw [Scanned.shift_withMembers _ _ hchildren]
    · exact hmissing (name :: rest)

theorem readProtocol_shift (keyword : CodeToken) (code : Code) :
    readProtocol (e.apply keyword) (code.map e.apply) = (readProtocol keyword code).shift e := by
  cases code with
  | nil => simp [readProtocol, Scanned.shift, Remark.shift]
  | cons name rest =>
    simp only [readProtocol, List.map_cons, Relabel.token, Relabel.word, Shift.start, Code.nextIs_map,
      readNames_map, afterStatement_map, readMembers_shift]
    split
    · split
      · rfl
      · rw [Scanned.shift_withMembers _ _ rfl]
        simp
    · rfl

theorem readAtKeyword_shift (keyword : CodeToken) (code : Code) :
    readAtKeyword (e.apply keyword) (code.map e.apply) = (readAtKeyword keyword code).shift e := by
  unfold readAtKeyword
  rw [Relabel.word]
  split
  · exact readContainer_shift keyword code
  · exact readContainer_shift keyword code
  · exact readProtocol_shift keyword code
  · simp [Scanned.shift]
  · simp [Scanned.shift]
  · simp [Scanned.shift]
  · simp [Scanned.shift, Remark.shift]
  · rfl

/-- What is scanned in a source that begins `n` bytes further on. -/
def Outcome.shift (n : Nat) (outcome : Outcome) : Outcome :=
  ⟨outcome.cursors.map (Cursor.shift n), outcome.remarks.map (Remark.shift n)⟩

theorem Outcome.shift_after (n : Nat) (outcome : Outcome) (cursors : List Cursor)
    (remarks : List Remark) :
    (outcome.after cursors remarks).shift n =
      (outcome.shift n).after (cursors.map (Cursor.shift n)) (remarks.map (Remark.shift n)) := by
  simp [after, shift]

/-- Shifted code declares the same, shifted alike. -/
theorem scan_shift (code : Code) : scan (code.map e.apply) = (scan code).shift e.amount := by
  induction code using scan_induction with
  | nil => simp [scan_nil, Outcome.shift]
  | directive t rest ht ih =>
    rw [List.map_cons, scan_directive (by rwa [e.token]), scan_directive ht, Outcome.shift_after, ← ih,
      macroDefinition?_shift, Option.toList_map, List.map_nil]
  | atKeyword t rest ht ih =>
    rw [List.map_cons, scan_atKeyword (by rwa [e.token]), scan_atKeyword ht, Outcome.shift_after, ← ih,
      readAtKeyword_shift]
    rfl
  | separator t rest ht ih =>
    rw [List.map_cons, scan_separator (by rwa [e.token]), scan_separator ht, ih]
  | plain t rest ht ih =>
    rw [List.map_cons, scan_readPlain (by rwa [e.token]), scan_readPlain ht, ← List.map_cons,
      readPlain_shift, Outcome.shift_after, ← ih]
    rfl

end Declaration

end DeclDoc
