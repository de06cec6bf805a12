import DeclDoc.Proofs.Positional.Enumeration
import DeclDoc.Proofs.Positional.Function

/-!
# Plain declarations by position

`plainDeclaration_pos`: a plain declaration is read from any position with code, and reading it goes
on behind that position. Whether a head is empty or one word long shows in the token behind it, which
is a semicolon or a brace and therefore no word (`isWordOf_head`).
-/

set_option autoImplicit false

namespace DeclDoc

open Declaration

theorem Declaration.findWord?_token {words : List String} {code after : Code} {keyword : CodeToken}
    (h : findWord? words code = some (keyword, after)) : keyword.token = .ident := by
  induction code with
  | nil => cases h
  | cons t rest ih =>
    rw [findWord?] at h
    split at h
    · next ht =>
      cases h
      simp only [CodeToken.isWordOf, Bool.and_eq_true, beq_iff_eq] at ht
      exact ht.1
    · exact ih h

/-- A head in which a word is found begins with a token, and the word is an end of it. -/
theorem Declaration.exists_start_of_findWord? {words : List String} {head after : Code}
    {keyword : CodeToken} (hfound : findWord? words head = some (keyword, after)) (rest : Code) :
    ∃ first more, head ++ rest = first :: more ∧ head.start = first.start ∧
      keyword.token = .ident ∧ keyword :: (after ++ rest) <:+ head ++ rest := by
  obtain ⟨front, happend⟩ := findWord?_append hfound
  have hsuffix : keyword :: (after ++ rest) <:+ head ++ rest := by
    refine ⟨front, ?_⟩
    rw [← happend]
    simp
  cases head with
  | nil => cases hfound
  | cons first more => exact ⟨first, more ++ rest, rfl, rfl, findWord?_token hfound, hsuffix⟩

theorem Declaration.readPlain_cons_suffix (t : CodeToken) (rest : Code) :
    (readPlain (t :: rest)).2 <:+ rest := by
  refine (List.suffix_cons_iff.1 (readPlain_suffix (t :: rest))).resolve_left fun hsame => ?_
  exact absurd (readPlain_length (List.cons_ne_nil t rest)) (by rw [hsame]; exact Nat.lt_irrefl _)

namespace Positional.Scanner

variable (s : Scanner)

/-! ## Operations -/

/-- The declaration at a position has further declarations in its braces. -/
def isTransparentAt (start : Nat) : Except Crash Bool := do
  if ← s.isWordOf start ["namespace"] then pure true
  else if ← s.isWordOf start ["extern"] then pure (s.token? (start + 1) = some .stringLiteral)
  else pure false

/-- The declaration of a head before an opening brace. -/
def bracedDeclaration (start brace : Nat) : Except Crash (List Cursor × Nat) := do
  let isTypedef ← s.isWordOf start ["typedef"]
  let enumMacro ← s.findWord enumMacros start brace
  let enumKeyword ← s.findWord ["enum"] start brace
  let recordKeyword ← s.findWord recordWords start brace
  match ← s.findToken .equals start brace with
  | some equals =>
    let cursor ← s.variableAt start equals
    pure (cursor.toList, ← s.skipStatement (← s.skipBalanced brace))
  | none =>
    if enumMacro.isSome then
      let (cursor, after) ← s.enumDeclaration start brace isTypedef enumMacro enumKeyword
      pure ([cursor], after)
    else
      match ← s.functionAt start brace with
      | some cursor => pure ([cursor], ← s.skipBalanced brace)
      | none =>
        if enumKeyword.isSome then
          let (cursor, after) ← s.enumDeclaration start brace isTypedef none enumKeyword
          pure ([cursor], after)
        else
          match recordKeyword with
          | some keyword =>
            let (cursor, after) ← s.recordDeclaration start brace keyword isTypedef
            pure (cursor.toList, after)
          | none =>
            if ← s.isTransparentAt start then pure ([], brace + 1)
            else pure ([], ← s.skipBalanced brace)

/-- The type name of a `typedef`. -/
def typedefAt (start stop : Nat) : Except Crash (Option Cursor) := do
  match ← s.declaratorName (start + 1) stop with
  | some name =>
    let cursor ← s.cursor .typedef (← s.word name) name start
    let typeName ← s.typeText start stop name
    pure (some { cursor with detail := { typeName := some typeName } })
  | none => pure none

/-- The declarations of a head before a semicolon. -/
def terminatedDeclaration (start stop : Nat) : Except Crash (List Cursor) := do
  let isTypedef ← s.isWordOf start ["typedef"]
  let enumKeyword ← s.findWord ["enum"] start stop
  let recordKeyword ← s.findWord recordWords start stop
  let length ← minus stop start
  if isTypedef then do pure (← s.typedefAt start stop).toList
  else if length = 2 ∧ (recordKeyword = some start ∨ enumKeyword = some start) then pure []
  else if (← s.findWord statementWords start (start + 1)).isSome then pure []
  else
    match ← s.functionAt start stop with
    | some cursor => pure [cursor]
    | none => s.variablesIn start stop

/-- The declaration at a position, and where the next one begins. -/
def plainDeclaration (start : Nat) : Except Crash (List Cursor × Nat) := do
  let (stop, terminator) ← s.declarationExtent start
  match terminator with
  | none => pure ([], max stop (start + 1))
  | some terminator =>
    let first ← s.declarationStart start stop
    if terminator = .openBrace then s.bracedDeclaration first stop
    else do pure (← s.terminatedDeclaration first stop, stop + 1)

/-! ## Laws -/

namespace Has

variable {s} {full : Code} (h : s.Has full) {t stop : CodeToken} {head rest : Code}

include h

theorem isWordOf_head (hhead : head ++ stop :: rest <:+ full) (hstop : stop.token ≠ .ident)
    (words : List String) :
    s.isWordOf (s.pos (head ++ stop :: rest)) words = .ok (head.head?.any (·.isWordOf words)) := by
  rw [h.isWordOf_pos hhead]
  cases head with
  | nil => simp [CodeToken.isWordOf, hstop]
  | cons t more => rfl

/-- The first word is found where a range begins exactly if the range begins with it. -/
theorem findWord_start (words : List String) (hhead : head ++ rest <:+ full) :
    ((findWord? words head).map fun (t, after) => s.pos (t :: (after ++ rest))) =
        some (s.pos (head ++ rest)) ↔
      head.head?.any (·.isWordOf words) = true := by
  cases head with
  | nil => simp [findWord?]
  | cons t more =>
    rw [List.cons_append] at hhead ⊢
    rw [findWord?]
    by_cases ht : t.isWordOf words
    · simp [ht]
    · suffices ∀ found, findWord? words more = some found →
          s.pos (found.1 :: (found.2 ++ rest)) ≠ s.pos (t :: (more ++ rest)) by simpa [ht] using this
      rintro ⟨keyword, after⟩ hfound
      obtain ⟨_, _, -, -, -, hsuffix⟩ := exists_start_of_findWord? hfound rest
      exact (h.pos_lt hhead hsuffix).ne'

theorem findWord_one (words : List String) (hcode : t :: rest <:+ full) :
    s.findWord words (s.pos (t :: rest)) (s.pos (t :: rest) + 1) =
      .ok (if t.isWordOf words then some (s.pos (t :: rest)) else none) := by
  have hone : [t] ++ rest <:+ full := hcode
  rw [h.pos_cons hcode]
  refine (h.findWord_pos words hone).trans ?_
  by_cases ht : t.isWordOf words <;> simp [findWord?, ht]

theorem isForward_iff (hhead : head ++ rest <:+ full) :
    (head.length = 2 ∧
      (((findWord? recordWords head).map fun (t, after) => s.pos (t :: (after ++ rest))) =
          some (s.pos (head ++ rest)) ∨
        ((findWord? ["enum"] head).map fun (t, after) => s.pos (t :: (after ++ rest))) =
          some (s.pos (head ++ rest)))) ↔
      isForward head = true := by
  rw [h.findWord_start _ hhead, h.findWord_start _ hhead]
  cases head with
  | nil => simp [isForward]
  | cons t more =>
    have hword : t.isWordOf ("enum" :: recordWords) =
        (t.isWordOf recordWords || t.isWordOf ["enum"]) := by
      simp only [CodeToken.isWordOf, List.contains_cons, List.contains_nil, Bool.or_false]
      rw [← Bool.and_or_distrib_left, Bool.or_comm]
    simp [isForward, hword]

theorem isTransparentAt_pos (hhead : head ++ stop :: rest <:+ full) (hstop : stop.token = .openBrace) :
    s.isTransparentAt (s.pos (head ++ stop :: rest)) = .ok (isTransparent head) := by
  have hident : stop.token ≠ .ident := by simp [hstop]
  rw [isTransparentAt, h.isWordOf_head hhead hident, ok_bind, h.isWordOf_head hhead hident, ok_bind]
  cases head with
  | nil => rfl
  | cons t more =>
    rw [List.cons_append] at hhead ⊢
    rw [h.pos_cons hhead, h.token?_pos ((List.suffix_cons t _).trans hhead), isTransparent]
    have hbehind : decide (Code.next? (more ++ stop :: rest) = some .stringLiteral) =
        Code.nextIs more .stringLiteral := by
      cases more <;> simp [Code.nextIs, Code.next?, hstop, beq_eq_decide]
    cases hnamespace : t.isWordOf ["namespace"] <;> cases hextern : t.isWordOf ["extern"] <;>
      simp [CodeToken.isWord, hnamespace, hextern, hbehind]

theorem typedefAt_pos (hhead : t :: (head ++ rest) <:+ full) :
    s.typedefAt (s.pos (t :: (head ++ rest))) (s.pos rest) = .ok (typedef? t head) := by
  have hmore := (List.suffix_cons t _).trans hhead
  rw [typedefAt, h.pos_cons hhead, h.declaratorName_pos hmore, ok_bind, typedef?]
  cases hfind : Declarator.find? head with
  | none => rfl
  | some declarator =>
    obtain rfl : declarator.code = head := Declarator.find?_append hfind
    rw [Declarator.code_append] at hhead hmore ⊢
    have hname := (List.suffix_append declarator.before _).trans hmore
    have htype : s.typeText (s.pos (t :: (declarator.before ++
        declarator.name :: (declarator.after ++ rest)))) (s.pos rest)
          (s.pos (declarator.name :: (declarator.after ++ rest))) =
        .ok (declarator.prepend t).typeName :=
      have hhead : (declarator.prepend t).before ++
        (declarator.prepend t).name :: ((declarator.prepend t).after ++ rest) <:+ full := hhead
      h.typeText_pos hhead
    simp only [Option.map_some]
    rw [h.word_pos hname, ok_bind, h.cursor_pos _ _ hname hhead, ok_bind, htype]
    rfl

theorem terminatedDeclaration_pos (hhead : head ++ stop :: rest <:+ full)
    (hstop : stop.token ≠ .ident) :
    s.terminatedDeclaration (s.pos (head ++ stop :: rest)) (s.pos (stop :: rest)) =
      .ok (terminated head) := by
  have hlength := h.pos_append hhead
  have hminus : minus (s.pos (stop :: rest)) (s.pos (head ++ stop :: rest)) = .ok head.length := by
    rw [minus_of_le (by omega), ← hlength, Nat.add_sub_cancel_left]
  rw [terminatedDeclaration, h.isWordOf_head hhead hstop, ok_bind, h.findWord_pos _ hhead, ok_bind,
    h.findWord_pos _ hhead, ok_bind, hminus, ok_bind]
  simp only [h.isForward_iff hhead, h.functionAt_pos hhead, h.variablesIn_pos hhead, ok_bind]
  cases head with
  | nil =>
    rw [List.nil_append, h.findWord_one _ hhead]
    have hnone : function? [] = none := by simp [function?, splitArguments?]
    have hnil : Declaration.variablesOf [] = [] := by
      rw [Declaration.variablesOf, splitCommas]
      rfl
    simp [isForward, CodeToken.isWordOf, hstop, hnone, hnil, terminated]
  | cons t more =>
    rw [List.cons_append] at hhead ⊢
    rw [h.findWord_one _ hhead, h.typedefAt_pos hhead, terminated]
    cases htypedef : t.isWordOf ["typedef"] <;> cases isForward (t :: more) <;>
      cases t.isWordOf statementWords <;> cases function? (t :: more) <;>
        simp [CodeToken.isWord, htypedef]

/-- What is found in a head before a brace. -/
theorem bracedDeclaration_pos (hhead : head ++ stop :: rest <:+ full)
    (hstop : stop.token = .openBrace) :
    s.bracedDeclaration (s.pos (head ++ stop :: rest)) (s.pos (stop :: rest)) =
      .ok ((braced head rest).1, s.pos (braced head rest).2) := by
  have hident : stop.token ≠ .ident := by simp [hstop]
  have hbrace := (List.suffix_append head _).trans hhead
  have hrest := (List.suffix_cons stop rest).trans hbrace
  have hskip : s.skipBalanced (s.pos (stop :: rest)) = .ok (s.pos (afterBraces rest)) :=
    h.skipBalanced_pos .brace hbrace hstop
  have hmembers : afterBraces rest <:+ rest := Bracket.skip_suffix ..
  rw [bracedDeclaration, h.isWordOf_head hhead hident, ok_bind, h.findWord_pos _ hhead, ok_bind,
    h.findWord_pos _ hhead, ok_bind, h.findWord_pos _ hhead, ok_bind, h.findToken_pos _ hhead, ok_bind,
    h.functionAt_pos hhead, hskip, h.isTransparentAt_pos hhead hstop, braced]
  dsimp only
  cases hequals : head.any (·.token == .equals) with
  | true =>
    have hsplit : head ++ stop :: rest =
        withoutInitializer head ++ (head.dropWhile (·.token != .equals) ++ stop :: rest) := by
      rw [← List.append_assoc, withoutInitializer, Code.before, List.takeWhile_append_dropWhile]
    rw [hsplit] at hhead ⊢
    simp only [if_true]
    rw [h.variableAt_pos hhead, ok_bind, ok_bind, h.skipStatement_pos (hmembers.trans hrest)]
    rfl
  | false =>
    simp only [Bool.false_eq_true, if_false]
    cases hmacro : findWord? enumMacros head with
    | some found =>
      obtain ⟨keyword, after⟩ := found
      obtain ⟨first, more, hfirst, hstart, -, hkeyword⟩ := exists_start_of_findWord? hmacro (stop :: rest)
      have hkeyword := hkeyword.trans hhead
      rw [hfirst] at hhead ⊢
      rw [hstart]
      simp only [Option.map_some, Option.isSome_some, if_true]
      rw [h.enumDeclaration_macro _ _ hkeyword hhead]
      rfl
    | none =>
      simp only [Option.map_none, Option.isSome_none, Bool.false_eq_true, if_false, ok_bind]
      cases hfunction : function? head with
      | some cursor => rfl
      | none =>
        dsimp only
        cases henum : findWord? ["enum"] head with
        | some found =>
          obtain ⟨keyword, after⟩ := found
          obtain ⟨first, more, hfirst, hstart, -, hkeyword⟩ :=
            exists_start_of_findWord? henum (stop :: rest)
          have hkeyword := hkeyword.trans hhead
          rw [hfirst] at hhead ⊢
          rw [hstart]
          simp only [Option.map_some, Option.isSome_some, if_true]
          rw [h.enumDeclaration_keyword _ hkeyword hstop hhead]
          rfl
        | none =>
          simp only [Option.map_none, Option.isSome_none, Bool.false_eq_true, if_false]
          cases hrecord : findWord? recordWords head with
          | some found =>
            obtain ⟨keyword, after⟩ := found
            obtain ⟨first, more, hfirst, hstart, hident, hkeyword⟩ :=
              exists_start_of_findWord? hrecord (stop :: rest)
            have hkeyword := hkeyword.trans hhead
            rw [hfirst] at hhead ⊢
            rw [hstart]
            simp only [Option.map_some]
            rw [h.recordDeclaration_pos _ hkeyword hstop hident hhead]
            rfl
          | none =>
            cases isTransparent head <;> simp [h.pos_cons hbrace]

theorem plainDeclaration_pos (hcode : t :: rest <:+ full) :
    s.plainDeclaration (s.pos (t :: rest)) =
      .ok ((readPlain (t :: rest)).1, s.pos (readPlain (t :: rest)).2) := by
  have hpos := h.pos_cons hcode
  have hsplit : (spanHead (t :: rest)).1 ++ (spanHead (t :: rest)).2 = t :: rest := spanTop_append ..
  have hextent := h.declarationExtent_pos hcode
  rw [readPlain]
  generalize (spanHead (t :: rest)).1 = head at hsplit ⊢
  cases hbehind : (spanHead (t :: rest)).2 with
  | nil =>
    rw [hbehind] at hextent
    have hlast : s.pos (t :: rest) + 1 ≤ s.toks.length := hpos ▸ s.pos_le_length rest
    simp only [plainDeclaration, hextent, ok_bind, Code.next?, List.head?_nil, Option.map_none,
      Option.filter_none, pure_eq_ok, s.pos_nil, Nat.max_eq_left hlast]
  | cons stop more =>
    rw [hbehind] at hsplit hextent
    have hhead : head ++ stop :: more <:+ full := hsplit.symm ▸ hcode
    have hstop := (List.suffix_append head _).trans hhead
    have hfirst : s.declarationStart (s.pos (t :: rest)) (s.pos (stop :: more)) =
        .ok (s.pos (restart head ++ stop :: more)) := hsplit ▸ h.declarationStart_pos hhead
    have hrestart := (Code.suffix_append_right (restart_suffix head) (stop :: more)).trans hhead
    have hnext : Code.next? (stop :: more) = some stop.token := rfl
    rw [hnext] at hextent
    dsimp only
    split
    · next hsemicolon =>
      have hdeclares := h.terminatedDeclaration_pos hrestart (by simp [hsemicolon])
      simp [plainDeclaration, hextent, Option.filter_some, hsemicolon, hfirst, hdeclares,
        h.pos_cons hstop]
    · next hbrace =>
      simp [plainDeclaration, hextent, Option.filter_some, hbrace, hfirst,
        h.bracedDeclaration_pos hrestart hbrace]
    · next hsemicolon hbrace =>
      -- An interrupted head is skipped, or the token that interrupts if it is all there is.
      have hafter : max (s.pos (stop :: more)) (s.pos (t :: rest) + 1) =
          s.pos (if head.isEmpty then more else stop :: more) := by
        have hlength := h.pos_append hhead
        have := h.pos_cons hstop
        rw [hsplit] at hlength
        cases head with
        | nil =>
          simp only [List.length_nil, List.isEmpty_nil, if_true] at hlength ⊢
          omega
        | cons first head =>
          simp only [List.length_cons, List.isEmpty_cons, Bool.false_eq_true, if_false] at hlength ⊢
          omega
      have hnone : ¬ (stop.token = .semicolon ∨ stop.token = .openBrace) :=
        fun hor => hor.elim hsemicolon hbrace
      simp [plainDeclaration, hextent, Option.filter_some, hnone, hafter]

end Has

end Positional.Scanner

end DeclDoc
