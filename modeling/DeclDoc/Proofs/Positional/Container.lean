import DeclDoc.FrontEnd
import DeclDoc.Proofs.Positional.Member
import DeclDoc.Proofs.Positional.Plain

/-!
# Containers and whole sources by position

`membersFrom_pos`, `scan_pos`: reading the members of a container or a whole source goes from
declaration to declaration until the table ends, and comes to the declarations and remarks of the
code.
-/

set_option autoImplicit false

namespace DeclDoc

open Declaration

namespace Positional

@[simp] theorem Output.add_empty (output : Output) : output.add {} = output := by
  simp [Output.add]

@[simp] theorem Output.empty_add (output : Output) : Output.add {} output = output := rfl

theorem Output.add_assoc (a b c : Output) : (a.add b).add c = a.add (b.add c) := by
  simp [Output.add]

namespace Scanner

variable (s : Scanner)

/-! ## Operations -/

/-- The macro that a directive defines. -/
def directive (i : Nat) : Except Crash Output := do
  let text ← s.text i
  let t ← s.tok i
  match macroDefinition? ⟨t.token, text, t.start, [], t.afterComment⟩ with
  | none => pure {}
  | some cursor =>
    let _ ← s.location cursor.offset
    pure { cursors := [cursor] }

/-- Behind the next closing parenthesis. -/
def categoryEnd (i : Nat) : Except Crash Nat :=
  s.eachLeft (fun _ i => i)
    (fun _ t i => .ok (if t.token = .closeParen then .leave (i + 1) else .again () (i + 1))) () i

/-- What the category at a position is called and where, and where it ends. -/
def category (owner i : Nat) : Except Crash (Option (String × Nat) × Nat) :=
  if s.token? i = some .openParen then do
    let after ← s.categoryEnd (i + 1)
    if s.token? (i + 1) = some .ident then do pure (some (← s.word (i + 1), i + 1), after)
    else pure (some ("", owner), after)
  else pure (none, i)

/-- The names in angle brackets at a position, and where they end. -/
def names (i : Nat) : Except Crash (List String × Nat) :=
  if s.token? i = some .less then s.nameList i else .ok ([], i)

/-- The superclass behind a colon at a position, and where it ends. -/
def superclass (i : Nat) : Except Crash (Option String × Nat) :=
  if s.token? i = some .colon then
    if s.token? (i + 1) = some .ident then do pure (some (← s.word (i + 1)), i + 2)
    else .ok (none, i + 1)
  else .ok (none, i)

/-- Behind the instance variables at a position. -/
def afterVariables (i : Nat) : Except Crash Nat :=
  if s.token? i = some .openBrace then s.skipBalanced i else pure i

/-- A container without its members, and where its head ends. -/
def containerHead (isImplementation : Bool) (start : Nat) : Except Crash (Cursor × Nat) := do
  let className ← s.word (start + 1)
  let (generic, i) ← s.names (start + 2)
  let protocols :=
    if s.token? i = some .colon ∨ s.token? i = some .openParen then [] else generic
  let (category, i) ← s.category (start + 1) i
  let (superclass, i) ← s.superclass i
  let (more, i) ← s.names i
  let after ← s.afterVariables i
  let detail : CursorDetail := { superclass, protocols := protocols ++ more }
  match category with
  | some (spelling, name) =>
    let kind := if isImplementation then .categoryImplementation else .category
    let cursor ← s.cursor kind spelling name start
    pure ({ cursor with detail := { detail with baseClass := some className } }, after)
  | none =>
    let kind := if isImplementation then .implementation else .interface
    let cursor ← s.cursor kind className (start + 1) start
    pure ({ cursor with detail }, after)

/-- Reads a member or what stands among the members, or ends them with or without their `@end`. -/
def memberTurn (output : Output) (t : Tok) (i : Nat) :
    Except Crash (Turn Output (Output × Bool × Nat)) := do
  match t.token with
  | .atKeyword =>
    let word ← s.word i
    if word = "@end" then pure (.leave (output, true, i + 1))
    else if word = "@property" then do
      let (read, after) ← s.property i
      pure (.again (output.add read) after)
    else if word ∈ ["@interface", "@implementation", "@protocol"] then
      pure (.leave (output, false, i))
    else if word ∈ ["@synthesize", "@dynamic", "@class", "@import"] then do
      pure (.again output (← s.skipStatement (i + 1)))
    else pure (.again output (i + 1))
  | .minus | .plus => do
    let (read, after) ← s.method i
    pure (.again (output.add read) after)
  | .openBrace => do pure (.again output (← s.skipBalanced i))
  | .directive => do pure (.again (output.add (← s.directive i)) (i + 1))
  | .semicolon | .closeBrace => pure (.again output (i + 1))
  | _ => do
    let (cursors, after) ← s.plainDeclaration i
    pure (.again (output.add { cursors }) after)

/-- The members from a position on of the container at `start`, after what was read before. -/
def membersFrom (start : Nat) (output : Output) (i : Nat) : Except Crash (Output × Nat) := do
  let (output, isClosed, after) ←
    s.eachLeft (fun output i => (output, false, i)) s.memberTurn output i
  if isClosed then pure (output, after)
  else do pure (output.add (← s.warning start .endMissing), after)

/-- A container with the members from a position on. -/
def withMembers (start : Nat) (cursor : Cursor) (i : Nat) : Except Crash (Output × Nat) := do
  let (members, after) ← s.membersFrom start {} i
  pure ({ members with cursors := [{ cursor with children := members.cursors }] }, after)

/-- The class or category at a position, and where it ends. -/
def container (start : Nat) : Except Crash (Output × Nat) := do
  let keyword ← s.word start
  if s.token? (start + 1) = some .ident then do
    let (cursor, i) ← s.containerHead (keyword == "@implementation") start
    s.withMembers start cursor i
  else do pure (← s.warning start (.classNameMissing keyword), start + 1)

/-- The protocol at a position, and where it ends. -/
def protocol (start : Nat) : Except Crash (Output × Nat) := do
  if s.token? (start + 1) = some .ident then
    if s.token? (start + 2) = some .semicolon ∨ s.token? (start + 2) = some .comma then do
      pure ({}, ← s.skipStatement (start + 2))
    else do
      let name ← s.word (start + 1)
      let (protocols, i) ← s.names (start + 2)
      let cursor ← s.cursor .protocol name (start + 1) start
      s.withMembers start { cursor with detail := { protocols } } i
  else do pure (← s.warning start .protocolNameMissing, start + 1)

/-- What an `@`-keyword at a position begins, and where it ends. -/
def atDeclaration (start : Nat) : Except Crash (Output × Nat) := do
  match ← s.word start with
  | "@interface" | "@implementation" => s.container start
  | "@protocol" => s.protocol start
  | "@class" | "@import" | "@compatibility_alias" => do pure ({}, ← s.skipStatement (start + 1))
  | "@end" => do pure (← s.warning start .strayEnd, start + 1)
  | _ => pure ({}, start + 1)

/-- Reads a declaration outside of all containers. -/
def scanTurn (output : Output) (t : Tok) (i : Nat) : Except Crash (Turn Output Output) := do
  match t.token with
  | .directive => do pure (.again (output.add (← s.directive i)) (i + 1))
  | .atKeyword => do
    let (read, after) ← s.atDeclaration i
    pure (.again (output.add read) after)
  | .semicolon | .closeBrace => pure (.again output (i + 1))
  | _ => do
    let (cursors, after) ← s.plainDeclaration i
    pure (.again (output.add { cursors }) after)

/-- What the source declares. -/
def scan : Except Crash Output := s.eachLeft (fun output _ => output) s.scanTurn {} 0

/-! ## Outputs -/

/-- What is read where the code has some declarations and remarks. -/
def ofScanned (scanned : Scanned) : Output := s.output scanned.cursors scanned.remarks

variable {s} {full : Code}

theorem output_add (cursors more : List Cursor) (remarks later : List Remark) :
    (s.output cursors remarks).add (s.output more later) =
      s.output (cursors ++ more) (remarks ++ later) := by
  simp [output, Output.add]

theorem ofScanned_prepend (cursors : List Cursor) (scanned : Scanned) :
    s.ofScanned (scanned.prepend cursors) = (s.output cursors []).add (s.ofScanned scanned) := by
  rw [ofScanned, ofScanned, output_add]
  rfl

theorem ofScanned_prependMember (start : Nat) (member : Except Fault Cursor) (scanned : Scanned) :
    s.ofScanned (scanned.prependMember start member) =
      (s.ofMember start member).add (s.ofScanned scanned) := by
  rw [ofScanned, ofScanned]
  cases member <;> rw [ofMember, output_add] <;> rfl

/-! ## Laws -/

namespace Has

variable (h : s.Has full) {t : CodeToken} {code rest : Code}

include h

theorem directive_pos (hcode : t :: rest <:+ full) :
    s.directive (s.pos (t :: rest)) = .ok (s.output (macroDefinition? t).toList []) := by
  have hsame : macroDefinition? ⟨t.token, t.text, t.start, [], t.afterComment⟩ =
      macroDefinition? t := rfl
  rw [directive, h.text_pos hcode, ok_bind, h.tok_pos hcode, ok_bind]
  simp only [Tok.token_ofCode, Tok.start_ofCode, Tok.afterComment_ofCode, hsame]
  cases macroDefinition? t with
  | none => rfl
  | some cursor =>
    dsimp only
    rw [h.location_eq]
    rfl

/-! ### Heads -/

theorem categoryEnd_pos (hcode : code <:+ full) :
    s.categoryEnd (s.pos code) =
      .ok (s.pos (code.dropWhile (·.token != .closeParen)).tail) := by
  unfold categoryEnd
  induction code with
  | nil => exact eachLeft_nil
  | cons t rest ih =>
    have hrest := (List.suffix_cons t rest).trans hcode
    by_cases ht : t.token = .closeParen
    · rw [List.dropWhile_cons_of_neg (by simp [ht])]
      exact h.eachLeft_leave hcode (by simp [ht, h.pos_cons hcode])
    · rw [List.dropWhile_cons_of_pos (by simp [ht])]
      exact (h.eachLeft_again () hcode List.suffix_rfl (by simp [ht, h.pos_cons hcode])).trans (ih hrest)

theorem category_pos {owner : CodeToken} {behind : Code} (howner : owner :: behind <:+ full)
    (hcode : code <:+ full) :
    ∃ found, s.category (s.pos (owner :: behind)) (s.pos code) =
        .ok (found, s.pos (readCategory owner code).2) ∧
      Option.Rel (fun (spelling, i) name => spelling = name.spelling ∧
        ∃ t rest, t :: rest <:+ full ∧ i = s.pos (t :: rest) ∧ t.start = name.offset)
          found (readCategory owner code).1 := by
  rw [category, h.token?_pos hcode, readCategory]
  cases code with
  | nil => exact ⟨none, rfl, .none⟩
  | cons t rest =>
    have hrest := (List.suffix_cons t rest).trans hcode
    rw [h.pos_cons hcode, h.categoryEnd_pos hrest, h.token?_pos hrest]
    by_cases hparen : Code.next? (t :: rest) = some .openParen
    · rw [if_pos hparen, if_pos (Code.nextIs_iff.2 hparen), List.tail_cons, ok_bind]
      cases rest with
      | nil => exact ⟨_, rfl, .some ⟨rfl, owner, behind, howner, rfl, rfl⟩⟩
      | cons name rest =>
        by_cases hname : name.token = .ident
        · refine ⟨some (name.word, s.pos (name :: rest)), ?_, ?_⟩
          · simp [Code.next?, hname, h.word_pos hrest]
          · rw [List.head?_cons, Option.filter_some, if_pos (by simpa using hname)]
            exact .some ⟨rfl, name, rest, hrest, rfl, rfl⟩
        · refine ⟨some ("", s.pos (owner :: behind)), ?_, ?_⟩
          · simp [Code.next?, hname]
          · rw [List.head?_cons, Option.filter_some, if_neg (by simpa using hname)]
            exact .some ⟨rfl, owner, behind, howner, rfl, rfl⟩
    · rw [if_neg hparen, if_neg (mt Code.nextIs_iff.1 hparen)]
      exact ⟨none, rfl, .none⟩

theorem names_pos (hcode : code <:+ full) :
    s.names (s.pos code) = .ok ((readNames code).1, s.pos (readNames code).2) := by
  rw [Scanner.names, h.token?_pos hcode, readNames]
  cases code with
  | nil => rfl
  | cons t rest =>
    by_cases ht : t.token = .less
    · simp [Code.nextIs, Code.next?, ht, h.nameList_pos hcode ht]
    · simp [Code.nextIs, Code.next?, ht]

theorem superclass_pos (hcode : code <:+ full) :
    s.superclass (s.pos code) = .ok ((readSuperclass code).1, s.pos (readSuperclass code).2) := by
  rw [Scanner.superclass, h.token?_pos hcode]
  match code, hcode with
  | [], _ => rfl
  | [colon], hcode =>
    rw [h.pos_cons hcode, h.token?_pos List.nil_suffix, readSuperclass]
    by_cases hcolon : colon.token = .colon <;> simp [Code.next?, hcolon]
  | colon :: t :: rest, hcode =>
    have hrest := (List.suffix_cons colon _).trans hcode
    have htwo : s.pos (colon :: t :: rest) + 2 = s.pos rest := by
      have := h.pos_cons hcode
      have := h.pos_cons hrest
      omega
    rw [h.pos_cons hcode, h.token?_pos hrest, htwo, readSuperclass]
    by_cases hcolon : colon.token = .colon <;> by_cases ht : t.token = .ident <;>
      simp [Code.next?, hcolon, ht, h.word_pos hrest]

theorem afterVariables_pos (hcode : code <:+ full) :
    s.afterVariables (s.pos code) = .ok (s.pos (Declaration.afterVariables code)) := by
  rw [Scanner.afterVariables, h.token?_pos hcode, Declaration.afterVariables]
  cases code with
  | nil => rfl
  | cons t rest =>
    by_cases ht : t.token = .openBrace
    · have hskip : s.skipBalanced (s.pos (t :: rest)) = .ok (s.pos (afterBraces rest)) :=
        h.skipBalanced_pos .brace hcode ht
      simp [Code.nextIs, Code.next?, ht, hskip]
    · simp [Code.nextIs, Code.next?, ht]

theorem containerHead_pos (isImplementation : Bool) {name : CodeToken}
    (hcode : t :: name :: rest <:+ full) :
    s.containerHead isImplementation (s.pos (t :: name :: rest)) =
      .ok ((readHead isImplementation t.start name rest).1,
        s.pos (readHead isImplementation t.start name rest).2) := by
  have hname := (List.suffix_cons t _).trans hcode
  have hrest := (List.suffix_cons name rest).trans hname
  have hgeneric := (readNames_suffix rest).trans hrest
  have hcategory := (readCategory_suffix name _).trans hgeneric
  have hsuperclass := (readSuperclass_suffix _).trans hcategory
  have hprotocols := (readNames_suffix _).trans hsuperclass
  have htwo : s.pos (t :: name :: rest) + 2 = s.pos rest := by
    have := h.pos_cons hcode
    have := h.pos_cons hname
    omega
  obtain ⟨found, hread, hfound⟩ := h.category_pos hname hgeneric
  rw [containerHead, h.pos_cons hcode, h.word_pos hname, ok_bind, htwo, h.names_pos hrest, ok_bind]
  dsimp only
  rw [hread, ok_bind]
  dsimp only
  rw [h.superclass_pos hcategory, ok_bind]
  dsimp only
  rw [h.names_pos hsuperclass, ok_bind]
  dsimp only
  rw [h.afterVariables_pos hprotocols, ok_bind, h.token?_pos hgeneric, readHead]
  dsimp only
  generalize (readCategory name (readNames rest).2).1 = category at hfound
  cases hfound with
  | none =>
    dsimp only
    rw [h.cursor_pos _ _ hname hcode]
    simp [Code.nextIs]
  | @some found category hfound =>
    obtain ⟨spelling, i⟩ := found
    obtain ⟨rfl, at_, behind, hat, rfl, hoffset⟩ := hfound
    dsimp only
    rw [h.cursor_pos _ _ hat hcode, hoffset]
    simp [Code.nextIs]

/-! ### Members -/

theorem membersFrom_again {start : Nat} {output : Output} (next : Output) {behind : Code}
    (hcode : t :: rest <:+ full) (hbehind : behind <:+ rest)
    (hturn : s.memberTurn output (.ofCode t) (s.pos (t :: rest)) = .ok (.again next (s.pos behind))) :
    s.membersFrom start output (s.pos (t :: rest)) = s.membersFrom start next (s.pos behind) := by
  rw [membersFrom, membersFrom, h.eachLeft_again next hcode hbehind hturn]

theorem membersFrom_leave {start : Nat} {output : Output} (isClosed : Bool) {after : Nat}
    (hcode : t :: rest <:+ full)
    (hturn : s.memberTurn output (.ofCode t) (s.pos (t :: rest)) =
      .ok (.leave (output, isClosed, after))) :
    s.membersFrom start output (s.pos (t :: rest)) =
      if isClosed then .ok (output, after)
      else (do pure (output.add (← s.warning start .endMissing), after)) := by
  rw [membersFrom, h.eachLeft_leave hcode hturn]
  rfl

theorem membersFrom_pos {opener : CodeToken} {more : Code} (hopener : opener :: more <:+ full)
    (output : Output) (hcode : code <:+ full) :
    s.membersFrom (s.pos (opener :: more)) output (s.pos code) =
      .ok (output.add (s.ofScanned (readMembers opener.start code)),
        s.pos (readMembers opener.start code).rest) := by
  have hmissing := h.warning_pos .endMissing hopener
  fun_induction readMembers opener.start code generalizing output with
  | case1 =>
    rw [membersFrom, eachLeft_nil, ok_bind]
    dsimp only
    rw [hmissing]
    rfl
  | case2 t rest ht hend =>
    rw [h.membersFrom_leave true hcode
      (by simp [memberTurn, ht, h.word_pos hcode, hend, h.pos_cons hcode]; rfl)]
    exact congrArg (fun read => Except.ok (read, s.pos rest)) output.add_empty.symm
  | case3 t rest ht hend hproperty property ih =>
    have hbehind : property.2 <:+ rest := readProperty_suffix t rest
    have hrest := (List.suffix_cons t rest).trans hcode
    rw [h.membersFrom_again (output.add (s.ofMember t.start property.1)) hcode hbehind ?_,
      ih _ (hbehind.trans hrest), Output.add_assoc, ← ofScanned_prependMember, Scanned.rest_prependMember]
    simp [memberTurn, ht, h.word_pos hcode, hproperty, h.property_pos hcode, property]
  | case4 t rest ht hend hproperty hopens =>
    rw [h.membersFrom_leave false hcode
      (by simp only [memberTurn, Tok.token_ofCode, ht, h.word_pos hcode, ok_bind, if_neg hend,
            if_neg hproperty, if_pos hopens]; rfl), hmissing]
    rfl
  | case5 t rest ht hend hproperty hopens hskips ih =>
    have hbehind := afterStatement_suffix rest
    have hrest := (List.suffix_cons t rest).trans hcode
    rw [h.membersFrom_again output hcode hbehind ?_, ih _ (hbehind.trans hrest)]
    simp only [memberTurn, Tok.token_ofCode, ht, h.word_pos hcode, ok_bind, if_neg hend,
      if_neg hproperty, if_neg hopens, if_pos hskips, h.pos_cons hcode, h.skipStatement_pos hrest]
    rfl
  | case6 t rest ht hend hproperty hopens hskips ih =>
    rw [h.membersFrom_again output hcode List.suffix_rfl ?_,
      ih _ ((List.suffix_cons t rest).trans hcode)]
    simp only [memberTurn, Tok.token_ofCode, ht, h.word_pos hcode, ok_bind, if_neg hend,
      if_neg hproperty, if_neg hopens, if_neg hskips, h.pos_cons hcode]
    rfl
  | case7 t rest ht method ih | case8 t rest ht method ih =>
    have hbehind : method.2 <:+ rest := readMethod_suffix t rest
    rw [h.membersFrom_again (output.add (s.ofMember t.start method.1)) hcode hbehind ?_,
      ih _ (hbehind.trans ((List.suffix_cons t rest).trans hcode)), Output.add_assoc,
      ← ofScanned_prependMember, Scanned.rest_prependMember]
    simp [memberTurn, ht, h.method_pos hcode, method]
  | case9 t rest ht ih =>
    have hbehind : afterBraces rest <:+ rest := Bracket.skip_suffix ..
    have hskip : s.skipBalanced (s.pos (t :: rest)) = .ok (s.pos (afterBraces rest)) :=
      h.skipBalanced_pos .brace hcode ht
    rw [h.membersFrom_again output hcode hbehind ?_,
      ih _ (hbehind.trans ((List.suffix_cons t rest).trans hcode))]
    simp [memberTurn, ht, hskip]
  | case10 t rest ht ih =>
    rw [h.membersFrom_again (output.add (s.output (macroDefinition? t).toList [])) hcode
      List.suffix_rfl ?_, ih _ ((List.suffix_cons t rest).trans hcode), Output.add_assoc,
      ← ofScanned_prepend, Scanned.rest_prepend]
    simp [memberTurn, ht, h.directive_pos hcode, h.pos_cons hcode]
  | case11 t rest ht ih | case12 t rest ht ih =>
    rw [h.membersFrom_again output hcode List.suffix_rfl ?_,
      ih _ ((List.suffix_cons t rest).trans hcode)]
    simp [memberTurn, ht, h.pos_cons hcode]
  | case13 t rest _ _ _ _ _ _ _ _ ih =>
    have hbehind := readPlain_cons_suffix t rest
    rw [h.membersFrom_again (output.add (s.output (readPlain (t :: rest)).1 [])) hcode hbehind ?_,
      ih _ (hbehind.trans ((List.suffix_cons t rest).trans hcode)), Output.add_assoc,
      ← ofScanned_prepend, Scanned.rest_prepend]
    simp [memberTurn, h.plainDeclaration_pos hcode]
    rfl

/-! ### Containers -/

theorem withMembers_pos {opener : CodeToken} {more : Code} (hopener : opener :: more <:+ full)
    (cursor : Cursor) (hcode : code <:+ full) :
    s.withMembers (s.pos (opener :: more)) cursor (s.pos code) =
      .ok (s.ofScanned (Declaration.withMembers cursor (readMembers opener.start code)),
        s.pos (Declaration.withMembers cursor (readMembers opener.start code)).rest) := by
  rw [Scanner.withMembers, h.membersFrom_pos hopener _ hcode]
  rfl

theorem container_pos (hcode : t :: rest <:+ full) :
    s.container (s.pos (t :: rest)) =
      .ok (s.ofScanned (readContainer t rest), s.pos (readContainer t rest).rest) := by
  have hrest := (List.suffix_cons t rest).trans hcode
  have hmissing := h.warning_pos (.classNameMissing t.word) hcode
  rw [container, h.word_pos hcode, ok_bind, h.pos_cons hcode, h.token?_pos hrest, hmissing]
  cases rest with
  | nil => rfl
  | cons name rest =>
    simp only [Code.next?_cons, Option.some.injEq, readContainer]
    by_cases hname : name.token = .ident
    · have hhead := (readHead_suffix (t.word == "@implementation") t.start name rest).trans
        ((List.suffix_cons name rest).trans hrest)
      rw [if_pos hname, if_pos hname, h.containerHead_pos _ hcode, ok_bind]
      exact h.withMembers_pos hcode _ hhead
    · rw [if_neg hname, if_neg hname]
      rfl

theorem protocol_pos (hcode : t :: rest <:+ full) :
    s.protocol (s.pos (t :: rest)) =
      .ok (s.ofScanned (readProtocol t rest), s.pos (readProtocol t rest).rest) := by
  have hrest := (List.suffix_cons t rest).trans hcode
  have hmissing := h.warning_pos .protocolNameMissing hcode
  rw [protocol, h.pos_cons hcode, h.token?_pos hrest, hmissing]
  cases rest with
  | nil => rfl
  | cons name rest =>
    simp only [Code.next?_cons, Option.some.injEq, readProtocol]
    by_cases hname : name.token = .ident
    · have hmore := (List.suffix_cons name rest).trans hrest
      have htwo : s.pos (t :: name :: rest) + 2 = s.pos rest := by
        have := h.pos_cons hcode
        have := h.pos_cons hrest
        omega
      rw [if_pos hname, if_pos hname, htwo, h.token?_pos hmore,
        h.skipStatement_pos hmore, h.word_pos hrest, h.names_pos hmore]
      simp only [Bool.or_eq_true, Code.nextIs_iff]
      by_cases hforward : Code.next? rest = some .semicolon ∨ Code.next? rest = some .comma
      · rw [if_pos hforward, if_pos hforward]
        rfl
      · rw [if_neg hforward, if_neg hforward, ok_bind, ok_bind]
        dsimp only
        rw [h.cursor_pos _ _ hrest hcode]
        exact h.withMembers_pos hcode _ ((readNames_suffix rest).trans hmore)
    · rw [if_neg hname, if_neg hname]
      rfl

theorem atDeclaration_pos (hcode : t :: rest <:+ full) :
    s.atDeclaration (s.pos (t :: rest)) =
      .ok (s.ofScanned (readAtKeyword t rest), s.pos (readAtKeyword t rest).rest) := by
  have hrest := (List.suffix_cons t rest).trans hcode
  rw [atDeclaration, h.word_pos hcode, ok_bind, h.container_pos hcode, h.protocol_pos hcode,
    h.pos_cons hcode, h.skipStatement_pos hrest, h.warning_pos _ hcode, readAtKeyword]
  generalize t.word = word
  split
  case h_8 =>
    -- Any other word begins nothing.
    simp [*]
    rfl
  all_goals rfl

/-! ### Sources -/

theorem scanFrom_pos (output : Output) (hcode : code <:+ full) :
    s.eachLeft (fun output _ => output) s.scanTurn output (s.pos code) =
      .ok (output.add (s.output (Declaration.scan code).cursors (Declaration.scan code).remarks)) := by
  fun_induction Declaration.scan code generalizing output with
  | case1 => exact eachLeft_nil.trans (congrArg Except.ok output.add_empty.symm)
  | case2 t rest ht ih =>
    refine (h.eachLeft_again (output.add (s.output (macroDefinition? t).toList [])) hcode
      List.suffix_rfl ?_).trans ((ih _ ((List.suffix_cons t rest).trans hcode)).trans ?_)
    · simp [scanTurn, ht, h.directive_pos hcode, h.pos_cons hcode]
    · rw [Output.add_assoc, output_add]
      rfl
  | case3 t rest ht read ih =>
    have hbehind : read.rest <:+ rest := readAtKeyword_suffix t rest
    refine (h.eachLeft_again (output.add (s.ofScanned read)) hcode hbehind ?_).trans
      ((ih _ (hbehind.trans ((List.suffix_cons t rest).trans hcode))).trans ?_)
    · simp [scanTurn, ht, h.atDeclaration_pos hcode, read]
    · rw [Output.add_assoc, ofScanned, output_add]
      rfl
  | case4 t rest ht ih | case5 t rest ht ih =>
    refine (h.eachLeft_again output hcode List.suffix_rfl ?_).trans
      (ih _ ((List.suffix_cons t rest).trans hcode))
    simp [scanTurn, ht, h.pos_cons hcode]
  | case6 t rest _ _ _ _ _ ih =>
    have hbehind := readPlain_cons_suffix t rest
    refine (h.eachLeft_again (output.add (s.output (readPlain (t :: rest)).1 [])) hcode hbehind ?_).trans
      ((ih _ (hbehind.trans ((List.suffix_cons t rest).trans hcode))).trans ?_)
    · simp [scanTurn, h.plainDeclaration_pos hcode]
      rfl
    · rw [Output.add_assoc, output_add]
      rfl

theorem scan_pos :
    s.scan = .ok (s.output (Declaration.scan full).cursors (Declaration.scan full).remarks) := by
  have hstart : s.pos full = 0 := by rw [pos, h.length_eq, Nat.sub_self]
  have hscan := h.scanFrom_pos {} (List.suffix_refl full)
  rwa [hstart] at hscan

end Has

end Scanner

end Positional

end DeclDoc
