import DeclDoc.Declaration.Function
import DeclDoc.Proofs.Positional.Variable

/-!
# Functions by position

A function's name stands right before the first parenthesis that opens no arguments of an attribute
word, and its parameters are the ranges between commas up to the closing one.
`argumentsOpenFrom_pos`, `parametersIn_pos` and `functionAt_pos`: they are what a head declares as code.
The token behind that parenthesis may stand behind the head, but then nothing closes there.
-/

set_option autoImplicit false

namespace DeclDoc

open Declaration

/-- The word `void` is all there is between parentheses. -/
def Declaration.isVoid : List Code → Bool
  | [[t]] => t.isWord "void"
  | _ => false

theorem Declaration.parameters_eq (inside : Code) :
    parameters inside =
      if isVoid (parameterParts inside) then []
      else ((parameterParts inside).filter fun part => !part.isEmpty).map parameter := by
  rw [parameters]
  split
  · next t hparts => simp [isVoid, hparts]
  · next hparts =>
    have hvoid : isVoid (parameterParts inside) = false := by
      unfold isVoid
      split
      · next t hpart => exact (hparts t hpart).elim
      · rfl
    rw [hvoid]
    rfl

/-- A pointer mark behind the parenthesis: where it stands behind the head, nothing closes in it. -/
theorem close?_eq_none_of_mark {after rest : Code}
    (hmark : (after ++ rest).next? = some .star ∨ (after ++ rest).next? = some .caret) :
    after.head?.any isPointerMark = true ∨ Bracket.paren.close? 1 after = none := by
  cases after with
  | nil => exact .inr rfl
  | cons t more => exact .inl (by simpa [Code.next?, isPointerMark] using hmark)

namespace Positional.Scanner

variable (s : Scanner)

/-! ## Operations -/

/-- The token before a position in a range is an attribute word. -/
def isAttributeBefore (start i : Nat) : Except Crash Bool :=
  if start < i then do s.isAttributeAt (← minus i 1)
  else pure false

/-- Looks for a parenthesis, past the arguments of attribute words. -/
def argumentsOpenTurn (start stop : Nat) (t : Tok) (i : Nat) :
    Except Crash (Turn Unit (Option Nat)) :=
  if t.token = .openParen then do
    if ← s.isAttributeBefore start i then
      match ← s.matchingClose i stop with
      | none => pure (.leave none)
      | some close => pure (.again () (close + 1))
    else pure (.leave (some i))
  else .ok (.again () (i + 1))

/-- The first parenthesis of a range that opens no arguments of an attribute word. -/
def argumentsOpen (start stop : Nat) : Except Crash (Option Nat) :=
  s.each stop (fun _ _ => none) (fun _ t i => s.argumentsOpenTurn start stop t i) () start

/-- More than one token in a range, and the last one can end a name. -/
def canBeNamedIn (range : Nat × Nat) : Except Crash Bool :=
  if 1 < range.2 - range.1 then do
    let last := s.token? (← minus range.2 1)
    pure (last == some .ident || last == some .closeBracket || last == some .closeParen)
  else pure false

/-- A parameter with its name, if the range can have one and does. -/
def namedParameterIn (range : Nat × Nat) : Except Crash Fragment := do
  let canBeNamed ← s.canBeNamedIn range
  match (← s.declaratorName range.1 range.2).filter fun _ => canBeNamed with
  | some name =>
    let typeName ← s.typeText range.1 range.2 name
    pure (.parameter none typeName (← s.word name))
  | none => pure (.parameter none (← s.textBetween range.1 range.2) "")

/-- The parameter of a range. -/
def parameterIn (range : Nat × Nat) : Except Crash Fragment := do
  let first ← s.tok range.1
  if range.2 - range.1 = 1 ∧ first.token = .ellipsis then pure .variadic
  else s.namedParameterIn range

/-- The word `void` is all there is in a list of ranges. -/
def isVoidIn : List (Nat × Nat) → Except Crash Bool
  | [range] => if range.2 - range.1 = 1 then s.isWordOf range.1 ["void"] else pure false
  | _ => pure false

/-- The parameters of a range. -/
def parametersIn (start stop : Nat) : Except Crash (List Fragment) := do
  let (done, last) ← s.segments .arguments start stop
  let parts := if last < stop then done ++ [(last, stop)] else done
  if ← s.isVoidIn parts then pure []
  else (parts.filter fun range => range.1 < range.2).mapM s.parameterIn

/-- The function of a range whose arguments open at a position. -/
def functionBefore (start stop opening : Nat) : Except Crash (Option Cursor) := do
  let name ← minus opening 1
  let behind := s.token? (opening + 1)
  if s.token? name ≠ some .ident ∨ behind = some .star ∨ behind = some .caret then pure none
  else do
    let word ← s.word name
    let first ← s.skipStorage start name
    if reservedWords.contains word ∨ name ≤ first then pure none
    else
      match ← s.matchingClose opening stop with
      | none => pure none
      | some close =>
        let result ← s.textBetween first name
        let parameters ← s.parametersIn (opening + 1) close
        let cursor ← s.cursor .function word name start
        pure (some { cursor with detail := { signature := .returns result :: parameters } })

/-- The function of a range. -/
def functionAt (start stop : Nat) : Except Crash (Option Cursor) := do
  match ← s.argumentsOpen start stop with
  | none => pure none
  | some opening => if opening = start then pure none else s.functionBefore start stop opening

/-! ## Parameters -/

namespace Has

variable {s} {full : Code} (h : s.Has full) {t : CodeToken} {rest : Code}

include h

theorem length_spans {range : Nat × Nat} {part : Code} (hrange : s.Spans full range part) :
    range.2 - range.1 = part.length := by
  obtain ⟨behind, hcode, rfl⟩ := hrange
  have := h.pos_append hcode
  dsimp only
  omega

theorem canBeNamedIn_spans {range : Nat × Nat} {part : Code} (hrange : s.Spans full range part) :
    s.canBeNamedIn range = .ok (canBeNamed part) := by
  unfold canBeNamedIn canBeNamed
  rw [h.length_spans hrange]
  obtain ⟨behind, hcode, rfl⟩ := hrange
  by_cases hlength : 1 < part.length
  · cases hlast : part.getLast? with
    | none =>
      obtain rfl := List.getLast?_eq_none_iff.1 hlast
      simp at hlength
    | some last =>
      obtain ⟨hminus, -⟩ := h.tok_getLast hcode hlast
      obtain ⟨first, rfl⟩ := List.getLast?_eq_some_iff.1 hlast
      have hsuffix : last :: behind <:+ full := by
        rw [List.append_assoc] at hcode
        exact (List.suffix_append first _).trans hcode
      have htoken : s.token? (s.pos (last :: behind)) = some last.token := h.token?_pos hsuffix
      have hfirst : 0 < first.length := by simpa using hlength
      rw [if_pos hlength, hminus, ok_bind, htoken]
      simp [hfirst]
  · simp [hlength]

theorem namedParameterIn_spans {range : Nat × Nat} {part : Code}
    (hrange : s.Spans full range part) : s.namedParameterIn range =
      .ok (match if canBeNamed part then Declarator.find? part else none with
        | some declarator => .parameter none declarator.typeName declarator.name.word
        | none => .parameter none (Code.line part) "") := by
  rw [namedParameterIn, h.canBeNamedIn_spans hrange, ok_bind]
  obtain ⟨behind, hcode, rfl⟩ := hrange
  have htext := h.textBetween_pos hcode
  rw [h.declaratorName_pos hcode, ok_bind]
  cases canBeNamed part with
  | false => cases Declarator.find? part <;> simp [Option.filter, htext]
  | true =>
    cases hfind : Declarator.find? part with
    | none => simp [htext]
    | some declarator =>
      obtain rfl : declarator.code = part := Declarator.find?_append hfind
      rw [Declarator.code_append] at hcode ⊢
      have hname := (List.suffix_append declarator.before _).trans hcode
      simp [Option.filter, h.typeText_pos hcode, h.word_pos hname]

theorem parameterIn_spans {range : Nat × Nat} {part : Code} (hrange : s.Spans full range part)
    (hne : part ≠ []) : s.parameterIn range = .ok (parameter part) := by
  have hlength := h.length_spans hrange
  have hnamed := h.namedParameterIn_spans hrange
  obtain ⟨behind, hcode, rfl⟩ := hrange
  obtain ⟨t, more, rfl⟩ := List.exists_cons_of_ne_nil hne
  have hfirst : s.tok (s.pos (t :: more ++ behind)) = .ok (.ofCode t) := h.tok_pos hcode
  rw [parameterIn, hfirst, ok_bind, hlength]
  cases more with
  | nil =>
    by_cases hellipsis : t.token = .ellipsis
    · simp [parameter, hellipsis]
    · rw [if_neg (by simp [hellipsis]), hnamed]
      simp [parameter, canBeNamed, hellipsis]
  | cons u more =>
    rw [if_neg (by simp), hnamed]
    rfl

/-- The last range between commas counts unless it is empty. -/
theorem exists_parameterParts {mid : Code} (hmid : mid ++ rest <:+ full) :
    ∃ done last,
      s.segments .arguments (s.pos (mid ++ rest)) (s.pos rest) = .ok (done, last) ∧
      List.Forall₂ (s.Spans full)
        (if last < s.pos rest then done ++ [(last, s.pos rest)] else done) (parameterParts mid) := by
  obtain ⟨done, last, hsegments, hspans, -⟩ := h.exists_segments .arguments hmid
  refine ⟨done, last, hsegments, ?_⟩
  unfold parameterParts
  generalize splitCommas .arguments mid = parts at hspans
  rw [← List.forall₂_reverse_iff, List.reverse_append] at hspans
  generalize hreversed : parts.reverse = reversed at hspans
  cases hspans with
  | @cons _ part _ init hlast hdone =>
    obtain rfl : parts = init.reverse ++ [part] := by simpa using congrArg List.reverse hreversed
    have hdone : List.Forall₂ (s.Spans full) done init.reverse := by
      simpa using List.forall₂_reverse_iff.2 hdone
    obtain ⟨behind, hcode, hrange⟩ := hlast
    obtain ⟨rfl, hstop⟩ := Prod.mk.inj hrange
    have hempty := h.pos_le_iff hcode
    rw [← hstop] at hempty
    by_cases hpart : part = []
    · rw [if_neg (by have := hempty.2 hpart; omega)]
      simpa [hpart] using hdone
    · rw [if_pos (by have := mt hempty.1 hpart; omega), hstop]
      simpa [hpart] using List.rel_append hdone (.cons ⟨behind, hcode, rfl⟩ .nil)

theorem isVoidIn_spans {ranges : List (Nat × Nat)} {parts : List Code}
    (hspans : List.Forall₂ (s.Spans full) ranges parts) :
    s.isVoidIn ranges = .ok (isVoid parts) := by
  cases hspans with
  | nil => rfl
  | @cons range part _ _ hrange hmore =>
    cases hmore with
    | cons _ _ =>
      match part with
      | [] => rfl
      | [_] => rfl
      | _ :: _ :: _ => rfl
    | nil =>
      rw [isVoidIn, h.length_spans hrange]
      obtain ⟨behind, hcode, rfl⟩ := hrange
      match part with
      | [] => rfl
      | [t] => exact (h.isWordOf_pos hcode ["void"])
      | _ :: _ :: _ => exact if_neg (by simp)

theorem mapM_parameterIn {ranges : List (Nat × Nat)} {parts : List Code}
    (hspans : List.Forall₂ (s.Spans full) ranges parts) :
    (ranges.filter fun range => range.1 < range.2).mapM s.parameterIn =
      .ok ((parts.filter fun part => !part.isEmpty).map parameter) := by
  induction hspans with
  | nil => rfl
  | @cons range part ranges parts hrange _ ih =>
    have hparameter := h.parameterIn_spans hrange
    obtain ⟨behind, hcode, rfl⟩ := hrange
    have hempty := h.pos_le_iff hcode
    by_cases hpart : part = []
    · have hle := hempty.2 hpart
      rw [List.filter_cons_of_neg (by simpa using hle), List.filter_cons_of_neg (by simp [hpart]), ih]
    · have hlt := mt hempty.1 hpart
      rw [List.filter_cons_of_pos (by simpa using hlt), List.filter_cons_of_pos (by simp [hpart]),
        List.mapM_cons, hparameter hpart, ok_bind, ih]
      rfl

theorem parametersIn_pos {mid : Code} (hmid : mid ++ rest <:+ full) :
    s.parametersIn (s.pos (mid ++ rest)) (s.pos rest) = .ok (parameters mid) := by
  obtain ⟨done, last, hsegments, hspans⟩ := h.exists_parameterParts hmid
  rw [parametersIn, hsegments, ok_bind]
  dsimp only
  rw [h.isVoidIn_spans hspans, ok_bind, h.mapM_parameterIn hspans, parameters_eq]
  cases isVoid (parameterParts mid) <;> rfl

/-- The parameters in a group of parentheses. -/
theorem parametersIn_group {after : Code} {group : Group} (hafter : after ++ rest <:+ full)
    (hgroup : Bracket.paren.close? 1 after = some group) :
    s.parametersIn (s.pos (after ++ rest)) (s.pos (group.close :: (group.after ++ rest))) =
      .ok (parameters group.inside) := by
  have hinside : after ++ rest = group.inside ++ group.close :: (group.after ++ rest) := by
    rw [Bracket.close?_append hgroup]
    simp
  rw [hinside] at hafter ⊢
  exact h.parametersIn_pos hafter

/-! ## Heads -/

theorem isAttributeBefore_pos {reversed code : Code} (hcode : reversed.reverse ++ code <:+ full) :
    s.isAttributeBefore (s.pos (reversed.reverse ++ code)) (s.pos code) =
      .ok (reversed.head?.any isAttribute) := by
  cases reversed with
  | nil => exact if_neg (Nat.lt_irrefl _)
  | cons t more =>
    have hmove : (t :: more).reverse ++ code = more.reverse ++ t :: code := by simp
    rw [hmove] at hcode ⊢
    have hsuffix := List.suffix_append more.reverse (t :: code)
    have hle := s.pos_le hsuffix
    have hpos := h.pos_cons (hsuffix.trans hcode)
    have hminus : minus (s.pos code) 1 = .ok (s.pos (t :: code)) := by
      rw [minus_of_le (by omega), ← hpos, Nat.add_sub_cancel]
    rw [isAttributeBefore, if_pos (by omega), hminus, ok_bind,
      h.isAttributeAt_pos (hsuffix.trans hcode)]
    rfl

theorem argumentsOpenFrom_pos (reversed mid : Code)
    (hcode : reversed.reverse ++ (mid ++ rest) <:+ full) :
    s.each (s.pos rest) (fun _ _ => none)
      (fun _ t i =>
        s.argumentsOpenTurn (s.pos (reversed.reverse ++ (mid ++ rest))) (s.pos rest) t i)
      () (s.pos (mid ++ rest)) =
        .ok ((splitArguments? reversed mid).map fun (_, after) => s.pos (after ++ rest) - 1) := by
  fun_induction splitArguments? reversed mid with
  | case1 => exact each_limit (Nat.le_refl _)
  | case2 reversed t mid ht hattr group hclose ih =>
    have hmid : t :: (mid ++ rest) <:+ full := (List.suffix_append _ _).trans hcode
    have hbefore := h.isAttributeBefore_pos hcode
    have hclosed : group.close :: (group.after ++ rest) <:+ mid ++ rest := by
      refine ⟨group.inside, ?_⟩
      rw [Bracket.close?_append hclose]
      simp
    have hafter := (List.suffix_cons group.close _).trans hclosed
    have hpos := h.pos_cons (hclosed.trans ((List.suffix_cons t _).trans hmid))
    have hmove : reversed.reverse ++ (t :: mid ++ rest) =
        (group.close :: group.inside.reverse ++ t :: reversed).reverse ++ (group.after ++ rest) := by
      rw [Bracket.close?_append hclose]
      simp
    refine (h.each_again () hmid (h.pos_lt_append hmid) hafter ?_).trans ?_
    · rw [argumentsOpenTurn, Tok.token_ofCode, if_pos ht]
      rw [List.cons_append] at hbefore
      simp [hbefore, hattr, h.matchingClose_pos .paren hmid ht, hclose, hpos]
    · rw [hmove] at hcode ⊢
      exact ih hcode
  | case3 reversed t mid ht hattr hclose =>
    have hmid : t :: (mid ++ rest) <:+ full := (List.suffix_append _ _).trans hcode
    have hbefore := h.isAttributeBefore_pos hcode
    refine h.each_leave hmid (h.pos_lt_append hmid) ?_
    rw [argumentsOpenTurn, Tok.token_ofCode, if_pos ht]
    rw [List.cons_append] at hbefore
    simp [hbefore, hattr, h.matchingClose_pos .paren hmid ht, hclose]
  | case4 reversed t mid ht hattr =>
    have hmid : t :: (mid ++ rest) <:+ full := (List.suffix_append _ _).trans hcode
    have hbefore := h.isAttributeBefore_pos hcode
    refine h.each_leave hmid (h.pos_lt_append hmid) ?_
    rw [argumentsOpenTurn, Tok.token_ofCode, if_pos ht]
    rw [List.cons_append] at hbefore
    simp [hbefore, hattr, ← h.pos_cons hmid]
  | case5 reversed t mid ht ih =>
    have hmid : t :: (mid ++ rest) <:+ full := (List.suffix_append _ _).trans hcode
    have hmove : reversed.reverse ++ (t :: mid ++ rest) =
        (t :: reversed).reverse ++ (mid ++ rest) := by simp
    refine (h.each_again () hmid (h.pos_lt_append hmid) List.suffix_rfl ?_).trans ?_
    · rw [argumentsOpenTurn, Tok.token_ofCode, if_neg ht, h.pos_cons hmid]
    · rw [hmove] at hcode ⊢
      exact ih hcode

/-- What a head declares with a name before the parenthesis of its parameters. -/
theorem functionBefore_pos {declarator : Declarator} {paren : CodeToken} {after : Code}
    (hbehind : declarator.after = paren :: after) (hparen : paren.token = .openParen)
    (hcode : declarator.before ++ declarator.name :: paren :: (after ++ rest) <:+ full) :
    s.functionBefore
      (s.pos (declarator.before ++ declarator.name :: paren :: (after ++ rest))) (s.pos rest)
      (s.pos (paren :: (after ++ rest))) =
        .ok (if declarator.name.token = .ident ∧ !isReserved declarator.name ∧
            !after.head?.any isPointerMark ∧ !declarator.typeTokens.isEmpty then
          (Bracket.paren.close? 1 after).map fun group =>
            { kind := .function
              spelling := declarator.name.word
              offset := declarator.name.start
              extent := declarator.code.start
              detail :=
                { signature := .returns (Code.line declarator.typeTokens) :: parameters group.inside } }
        else none) := by
  have hname := (List.suffix_append declarator.before _).trans hcode
  have hopen := (List.suffix_cons declarator.name _).trans hname
  have hafter := (List.suffix_cons paren _).trans hopen
  have hminus : minus (s.pos (paren :: (after ++ rest))) 1 =
      .ok (s.pos (declarator.name :: paren :: (after ++ rest))) := by
    rw [minus_of_le (by have := h.pos_cons hname; omega), ← h.pos_cons hname, Nat.add_sub_cancel]
  have htoken : s.token? (s.pos (declarator.name :: paren :: (after ++ rest))) =
      some declarator.name.token := h.token?_pos hname
  obtain ⟨hstart, htype⟩ := h.typeStart_pos hcode
  have hempty := h.pos_le_iff htype
  have hclose := h.matchingClose_pos .paren hopen hparen
  have hword := h.word_pos hname
  rw [functionBefore, hminus, ok_bind, h.pos_cons hopen, h.token?_pos hafter, htoken]
  by_cases hpointer : (after ++ rest).next? = some .star ∨ (after ++ rest).next? = some .caret
  · rw [if_pos (.inr hpointer)]
    rcases close?_eq_none_of_mark hpointer with hmark | hnone
    · simp [hmark]
    · simp [hnone]
  by_cases hident : declarator.name.token = .ident
  · have hmark : ¬ after.head?.any isPointerMark := by
      cases after with
      | nil => simp
      | cons t more => simpa [Code.next?, isPointerMark] using hpointer
    have hreserved : isReserved declarator.name = reservedWords.contains declarator.name.word := by
      simp [isReserved, CodeToken.isWordOf, hident]
    rw [if_neg (by simpa [hident] using hpointer), hword, ok_bind, hstart, ok_bind, hclose]
    simp only [hempty, hreserved]
    by_cases hskip : reservedWords.contains declarator.name.word = true ∨ declarator.typeTokens = []
    · rw [if_pos hskip, if_neg ?_]
      · rfl
      · rintro ⟨-, hword, -, htokens⟩
        rcases hskip with hskip | hskip
        · rw [hskip] at hword
          cases hword
        · simp [hskip] at htokens
    · obtain ⟨hname, htokens⟩ := not_or.1 hskip
      rw [if_neg hskip, if_pos ⟨hident, by simpa using hname, by simpa using hmark,
        by simpa using htokens⟩]
      cases hgroup : Bracket.paren.close? 1 after with
      | none => rfl
      | some group =>
        have hcursor : s.cursor .function declarator.name.word
            (s.pos (declarator.name :: paren :: (after ++ rest)))
            (s.pos (declarator.before ++ declarator.name :: paren :: (after ++ rest))) =
              .ok { kind := .function, spelling := declarator.name.word,
                    offset := declarator.name.start, extent := declarator.code.start } := by
          have happend : paren :: (after ++ rest) = declarator.after ++ rest := by rw [hbehind]; rfl
          rw [happend] at hcode ⊢
          exact h.cursor_declarator .function _ hcode
        simp [h.textBetween_pos htype, h.parametersIn_group hafter hgroup, hcursor]
  · simp [hident]

theorem functionAt_pos {head : Code} (hhead : head ++ rest <:+ full) :
    s.functionAt (s.pos (head ++ rest)) (s.pos rest) = .ok (function? head) := by
  have hopen : s.argumentsOpen (s.pos (head ++ rest)) (s.pos rest) = _ :=
    h.argumentsOpenFrom_pos [] head hhead
  rw [functionAt, hopen, ok_bind, function?]
  cases hsplit : splitArguments? [] head with
  | none => rfl
  | some split =>
    obtain ⟨before, after⟩ := split
    obtain ⟨paren, hparen, rfl⟩ := splitArguments?_eq hsplit
    rw [List.append_assoc, List.cons_append] at hhead ⊢
    have hopening := h.pos_cons ((List.suffix_append before.reverse _).trans hhead)
    have hposition : s.pos (after ++ rest) - 1 = s.pos (paren :: (after ++ rest)) := by omega
    simp only [Option.map_some, hposition]
    cases before with
    | nil => exact if_pos rfl
    | cons name reversed =>
      have hmove : (name :: reversed).reverse ++ paren :: (after ++ rest) =
          reversed.reverse ++ name :: paren :: (after ++ rest) := by simp
      rw [hmove] at hhead ⊢
      let declarator : Declarator := ⟨reversed.reverse, name, paren :: after⟩
      have hfunction := h.functionBefore_pos (show declarator.after = paren :: after from rfl) hparen
        hhead
      have hhead' : declarator.code = (name :: reversed).reverse ++ paren :: after := by
        simp [declarator, Declarator.code]
      have := h.pos_append hhead
      have := h.pos_cons ((List.suffix_append reversed.reverse _).trans hhead)
      rw [if_neg (by omega), hfunction, hhead']
      rfl

end Has

end Positional.Scanner

end DeclDoc
