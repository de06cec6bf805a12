import DeclDoc.Declaration.Container
import DeclDoc.Proofs.Positional.Loop

/-!
# Groups and spans by position

Groups, statements and names in angle brackets are skipped, and spans of code ended, at positions.
Depths are counted down without a check: a group is entered at its opening token, so a closing one
never comes at depth zero. That needs no more of a table than what kinds of tokens it `Lists`
(`matchingClose_eq`, `skipBalanced_eq`). Each operation comes to where the reading of the code does
(`skipBalanced_pos`, `skipStatement_pos`, `matchingClose_pos`, `parenText_pos`, `nameList_pos`,
`endOfSpan_pos`).
-/

set_option autoImplicit false

namespace DeclDoc

open Declaration

namespace Declaration.Bracket

/-- Past a group is behind the bracket that closes it. -/
theorem skip_eq (bracket : Bracket) (depth : Nat) (code : Code) :
    bracket.skip depth code = ((bracket.close? depth code).map Group.after).getD [] := by
  induction code generalizing depth with
  | nil => rfl
  | cons t rest ih =>
    simp only [skip, close?]
    split
    · rw [ih, Option.map_map]
      rfl
    · split
      · split
        · rfl
        · rw [ih, Option.map_map]
          rfl
      · rw [ih, Option.map_map]
        rfl

theorem eq_opening_of_ofOpening? {bracket : Bracket} {token : Token}
    (h : ofOpening? token = some bracket) : token = bracket.opening := by
  cases token <;> cases h <;> rfl

theorem token_of_close? {bracket : Bracket} {depth : Nat} {code : Code} {group : Group}
    (h : bracket.close? depth code = some group) : group.close.token = bracket.closing := by
  induction code generalizing depth group with
  | nil => cases h
  | cons t rest ih =>
    simp only [close?] at h
    split at h
    · obtain ⟨g, hg, rfl⟩ := Option.map_eq_some_iff.1 h
      exact @ih _ g hg
    · split at h
      · next hclose =>
        split at h
        · cases h
          exact hclose
        · obtain ⟨g, hg, rfl⟩ := Option.map_eq_some_iff.1 h
          exact @ih _ g hg
      · obtain ⟨g, hg, rfl⟩ := Option.map_eq_some_iff.1 h
        exact @ih _ g hg

/-- Where a group closes, an end of the code begins. -/
theorem close_suffix {bracket : Bracket} {depth : Nat} {code : Code} {group : Group}
    (h : bracket.close? depth code = some group) (rest : Code) :
    group.close :: (group.after ++ rest) <:+ code ++ rest := by
  refine ⟨group.inside, ?_⟩
  rw [close?_append h]
  simp

end Declaration.Bracket

namespace Positional

/-! ## Operations -/

/-- What a token does to the depth of a group. -/
def groupTurn {ρ : Type} (opening closing token : Token) (depth : Nat) (closed : ρ) (i : Nat) :
    Except Crash (Turn Nat ρ) :=
  if token = opening then .ok (.again (depth + 1) (i + 1))
  else if token = closing then do
    let depth ← minus depth 1
    pure (if depth = 0 then .leave closed else .again depth (i + 1))
  else .ok (.again depth (i + 1))

/-- The token that closes a group, by the one that opens it. -/
def closing? : Token → Option Token
  | .openBrace => some .closeBrace
  | .openParen => some .closeParen
  | .openBracket => some .closeBracket
  | .less => some .greater
  | _ => none

namespace Scanner

variable (s : Scanner)

/-- Past the group that opens at a position. -/
def skipBalanced (i : Nat) : Except Crash Nat :=
  match s.token? i with
  | none => .ok i
  | some opening =>
    match closing? opening with
    | none => .ok (i + 1)
    | some closing =>
      s.eachLeft (fun _ i => i)
        (fun depth t i => groupTurn opening closing t.token depth (i + 1) i) 0 i

/-- Through the next semicolon, or up to what comes before it. -/
def skipStatement (i : Nat) : Except Crash Nat :=
  s.eachLeft (fun _ i => i)
    (fun _ t i =>
      match t.token with
      | .semicolon => .ok (.leave (i + 1))
      | .openBrace | .openParen | .openBracket => do
        let after ← s.skipBalanced i
        pure (.again () after)
      | .atKeyword | .directive | .closeBrace => .ok (.leave i)
      | _ => .ok (.again () (i + 1)))
    () i

/-- Where the group closes below `limit` that opens at a position. -/
def matchingClose (opening limit : Nat) : Except Crash (Option Nat) :=
  match (s.token? opening).bind Bracket.ofOpening? with
  | none => .ok none
  | some bracket =>
    s.each (min limit s.toks.length) (fun _ _ => none)
      (fun depth t i => groupTurn bracket.opening bracket.closing t.token depth (some i) i) 0 opening

/-- The text in the parentheses that open at a position, and where they end. -/
def parenText (opening : Nat) : Except Crash (String × Nat) := do
  let after ← s.skipBalanced opening
  let inner ←
    if opening + 1 < after then do
      let last ← minus after 1
      pure (if s.token? last = some .closeParen then last else after)
    else pure after
  let text ← s.textBetween (opening + 1) inner
  pure (text, after)

/-- What a token does to the names read at some depth of angle brackets. -/
def nameTurn (state : List String × Nat) (t : Tok) (i : Nat) :
    Except Crash (Turn (List String × Nat) (List String × Nat)) :=
  let (names, depth) := state
  match t.token with
  | .less => .ok (.again (names, depth + 1) (i + 1))
  | .greater => do
    let depth ← minus depth 1
    pure (if depth = 0 then .leave (names, i + 1) else .again (names, depth) (i + 1))
  | .semicolon | .openBrace | .atKeyword => .ok (.leave (names, i))
  | .ident =>
    if depth = 1 then do
      let name ← s.word i
      pure (.again (names ++ [name], depth) (i + 1))
    else .ok (.again (names, depth) (i + 1))
  | _ => .ok (.again (names, depth) (i + 1))

/-- The names in the angle brackets that open at a position, and where they end. -/
def nameList (i : Nat) : Except Crash (List String × Nat) :=
  s.eachLeft (fun (names, _) i => (names, i)) s.nameTurn ([], 0) i

/-- Past a token if it is of a kind. -/
def past (token : Token) (i : Nat) : Nat := if s.token? i = some token then i + 1 else i

/-- Where a span ends that goes on at a depth of brackets. -/
def endOfSpanFrom (nesting : Nesting) (stop : Token → Bool) (depth start : Nat) : Except Crash Nat :=
  s.eachLeft (fun _ i => i)
    (fun depth t i =>
      .ok (if depth = 0 ∧ stop t.token then .leave i
        else .again (nesting.depthAfter depth t.token) (i + 1)))
    depth start

def endOfSpan (nesting : Nesting) (stop : Token → Bool) (start : Nat) : Except Crash Nat :=
  s.endOfSpanFrom nesting stop 0 start

/-- Where the head of a declaration ends, and the semicolon or brace there. -/
def declarationExtent (start : Nat) : Except Crash (Nat × Option Token) := do
  let stop ← s.endOfSpan .arguments endsHead start
  pure (stop, (s.token? stop).filter fun token => token == .semicolon || token == .openBrace)

/-- The last position below a comment, `first` where there is none before a bracket or equals sign. -/
def lastRestart (first start stop : Nat) : Except Crash Nat :=
  s.each stop (fun first _ => first)
    (fun first t i =>
      .ok (if t.token = .openParen ∨ t.token = .openBracket ∨ t.token = .equals then .leave first
        else .again (if t.afterComment then i else first) (i + 1)))
    first start

/-- Where the head of a declaration begins again, behind the last comment in it. -/
def declarationStart (start stop : Nat) : Except Crash Nat := s.lastRestart start (start + 1) stop

/-! ## Groups of any tokens -/

/-- The table has tokens of the same kinds as some code, whatever their text. -/
def Lists (code : Code) : Prop := s.toks.map Tok.token = code.map CodeToken.token

section

variable {s} {code front mid rest : Code} {t : CodeToken} {bracket : Bracket}

theorem Lists.length_eq (hs : s.Lists code) : s.toks.length = code.length := by
  simpa using congrArg List.length hs

theorem Lists.token? (hs : s.Lists code) (i : Nat) :
    s.token? i = code[i]?.map CodeToken.token := by
  rw [Scanner.token?, ← List.getElem?_map, hs, List.getElem?_map]

/-- The token of a position, in the code around it. -/
theorem Lists.exists_split {i : Nat} {token : Token} (hs : s.Lists code)
    (h : s.token? i = some token) :
    ∃ front t rest, code = front ++ t :: rest ∧ front.length = i ∧ t.token = token := by
  rw [hs.token?] at h
  obtain ⟨t, ht, hkind⟩ := Option.map_eq_some_iff.1 h
  obtain ⟨hi, hget⟩ := List.getElem?_eq_some_iff.1 ht
  refine ⟨code.take i, t, code.drop (i + 1), ?_, List.length_take_of_le (Nat.le_of_lt hi), hkind⟩
  rw [← hget, ← List.drop_eq_getElem_cons hi, List.take_append_drop]

theorem Lists.token?_length (hs : s.Lists (front ++ t :: rest)) :
    s.token? front.length = some t.token := by
  rw [hs.token?]
  simp

theorem exists_tok {i : Nat} {token : Token} (h : s.token? i = some token) :
    ∃ tok, s.tok i = .ok tok ∧ tok.token = token := by
  obtain ⟨tok, htok, hkind⟩ := Option.map_eq_some_iff.1 h
  exact ⟨tok, by rw [Scanner.tok, htok]; rfl, hkind⟩

/-- A group is left where it closes. -/
theorem each_group {ρ : Type} (bracket : Bracket) (closed atEnd : Nat → ρ) (front mid : Code)
    {depth : Nat} (hdepth : 0 < depth) (hs : s.Lists (front ++ (mid ++ rest))) :
    s.each (front.length + mid.length) (fun _ i => atEnd i)
      (fun depth t i => groupTurn bracket.opening bracket.closing t.token depth (closed i) i)
      depth front.length =
        .ok (match bracket.close? depth mid with
          | some group => closed (front.length + group.inside.length)
          | none => atEnd (front.length + mid.length)) := by
  induction mid generalizing front depth with
  | nil => exact each_limit (Nat.le_refl _)
  | cons t mid ih =>
    obtain ⟨tok, htok, hkind⟩ := exists_tok hs.token?_length
    have hfront : (front ++ [t]).length = front.length + 1 := List.length_append
    have hlimit : front.length + 1 + mid.length = front.length + (t :: mid).length := by
      rw [List.length_cons]
      omega
    have hlt : front.length < front.length + (t :: mid).length := by simp
    have hnext := Nat.lt_succ_self front.length
    have hbehind {depth : Nat} (hdepth : 0 < depth) :
        s.each (front.length + (t :: mid).length) (fun _ i => atEnd i)
          (fun depth t i => groupTurn bracket.opening bracket.closing t.token depth (closed i) i)
          depth (front.length + 1) =
            .ok (match (bracket.close? depth mid).map fun group =>
                { group with inside := t :: group.inside } with
              | some group => closed (front.length + group.inside.length)
              | none => atEnd (front.length + (t :: mid).length)) := by
      have hmid := ih (front ++ [t]) hdepth (by simpa using hs)
      rw [hfront, hlimit] at hmid
      rw [hmid]
      cases bracket.close? depth mid with
      | none => rfl
      | some group => exact congrArg (Except.ok ∘ closed) (Nat.add_right_comm ..)
    simp only [Bracket.close?]
    by_cases hopen : t.token = bracket.opening
    · rw [if_pos hopen]
      refine (each_again_of_tok (depth + 1) htok hlt hnext ?_).trans (hbehind (Nat.succ_pos _))
      simp [groupTurn, hkind, hopen]
    · rw [if_neg hopen]
      by_cases hclose : t.token = bracket.closing
      · rw [if_pos hclose]
        by_cases hone : depth ≤ 1
        · rw [if_pos hone]
          refine each_leave_of_tok htok hlt ?_
          obtain rfl : depth = 1 := by omega
          simp [groupTurn, hkind, hclose ▸ hopen, hclose, minus]
        · rw [if_neg hone]
          refine (each_again_of_tok (depth - 1) htok hlt hnext ?_).trans (hbehind (by omega))
          have : depth - 1 ≠ 0 := by omega
          simp [groupTurn, hkind, hclose ▸ hopen, hclose, minus_of_le hdepth, this]
      · rw [if_neg hclose]
        refine (each_again_of_tok depth htok hlt hnext ?_).trans (hbehind hdepth)
        simp [groupTurn, hkind, hopen, hclose]

/-- A group is entered at its opening bracket. -/
theorem each_open {ρ : Type} (closed atEnd : Nat → ρ) (hs : s.Lists (front ++ t :: (mid ++ rest)))
    (ht : t.token = bracket.opening) :
    s.each (front.length + 1 + mid.length) (fun _ i => atEnd i)
      (fun depth t i => groupTurn bracket.opening bracket.closing t.token depth (closed i) i)
      0 front.length =
        .ok (match bracket.close? 1 mid with
          | some group => closed (front.length + 1 + group.inside.length)
          | none => atEnd (front.length + 1 + mid.length)) := by
  obtain ⟨tok, htok, hkind⟩ := exists_tok hs.token?_length
  have hgroup := each_group bracket closed atEnd (front ++ [t]) mid Nat.one_pos (by simpa using hs)
  rw [List.length_append, List.length_singleton] at hgroup
  refine (each_again_of_tok 1 htok (by omega) (Nat.lt_succ_self _) ?_).trans hgroup
  simp [groupTurn, hkind, ht]

/-- Nothing closes at the end of a range or behind. -/
theorem matchingClose_limit {opening limit : Nat} (hlimit : limit ≤ opening) :
    s.matchingClose opening limit = .ok none := by
  unfold matchingClose
  split
  · rfl
  · exact each_limit (by omega)

theorem matchingClose_eq (hs : s.Lists (front ++ t :: rest)) (ht : t.token = bracket.opening)
    (limit : Nat) :
    s.matchingClose front.length limit =
      .ok ((bracket.close? 1 (rest.take (limit - (front.length + 1)))).map fun group =>
        front.length + 1 + group.inside.length) := by
  by_cases hlimit : limit ≤ front.length
  · rw [matchingClose_limit hlimit, Nat.sub_eq_zero_of_le (Nat.le_succ_of_le hlimit), List.take_zero]
    rfl
  · have hopening : s.token? front.length = some bracket.opening := ht ▸ hs.token?_length
    have hbracket : Bracket.ofOpening? bracket.opening = some bracket := by cases bracket <;> rfl
    have hlength : min limit s.toks.length =
        front.length + 1 + (rest.take (limit - (front.length + 1))).length := by
      rw [hs.length_eq]
      simp only [List.length_append, List.length_cons, List.length_take]
      omega
    rw [← List.take_append_drop (limit - (front.length + 1)) rest] at hs
    simp only [matchingClose, hopening, Option.bind_some, hbracket, hlength]
    rw [each_open some (fun _ => none) hs ht]
    cases bracket.close? 1 (rest.take (limit - (front.length + 1))) <;> rfl

theorem skipBalanced_eq (hs : s.Lists (front ++ t :: rest)) (ht : t.token = bracket.opening) :
    s.skipBalanced front.length =
      .ok (((bracket.close? 1 rest).map fun group => front.length + 1 + group.inside.length + 1).getD
        s.toks.length) := by
  have hopening : s.token? front.length = some bracket.opening := ht ▸ hs.token?_length
  have hclosing : closing? bracket.opening = some bracket.closing := by cases bracket <;> rfl
  have hlength : s.toks.length = front.length + 1 + rest.length := by
    rw [hs.length_eq, List.length_append, List.length_cons]
    omega
  rw [← List.append_nil rest] at hs
  have hopen := each_open (· + 1) id hs ht
  simp only [skipBalanced, hopening, hclosing, eachLeft, hlength]
  refine hopen.trans ?_
  cases bracket.close? 1 rest <;> rfl

end

/-! ## Groups -/

namespace Has

variable {s} {full : Code} (h : s.Has full) {t : CodeToken} {code rest : Code}

include h

theorem lists : s.Lists full := by
  rw [Lists, h.toks, List.map_map]
  rfl

theorem skipBalanced_pos (bracket : Bracket) (hcode : t :: rest <:+ full)
    (ht : t.token = bracket.opening) :
    s.skipBalanced (s.pos (t :: rest)) = .ok (s.pos (bracket.skip 1 rest)) := by
  obtain ⟨front, hfull⟩ := hcode
  rw [h.pos_eq_length hfull, skipBalanced_eq (hfull ▸ h.lists) ht, Bracket.skip_eq]
  cases hclose : bracket.close? 1 rest with
  | none => rfl
  | some group =>
    have hafter : front ++ t :: (group.inside ++ [group.close]) ++ group.after = full := by
      rw [← hfull, Bracket.close?_append hclose]
      simp
    have hpos := h.pos_eq_length hafter
    simp only [List.length_append, List.length_cons, List.length_nil] at hpos
    simp only [Option.map_some, Option.getD_some, Except.ok.injEq]
    omega

theorem matchingClose_pos (bracket : Bracket) {mid : Code} (hmid : t :: (mid ++ rest) <:+ full)
    (ht : t.token = bracket.opening) :
    s.matchingClose (s.pos (t :: (mid ++ rest))) (s.pos rest) =
      .ok ((bracket.close? 1 mid).map fun group => s.pos (group.close :: (group.after ++ rest))) := by
  obtain ⟨front, hfull⟩ := hmid
  have hstop : s.pos rest = front.length + 1 + mid.length := by
    have hsplit : front ++ t :: mid ++ rest = full := by simpa using hfull
    have hpos := h.pos_eq_length hsplit
    simp only [List.length_append, List.length_cons] at hpos
    omega
  rw [h.pos_eq_length hfull, hstop, matchingClose_eq (hfull ▸ h.lists) ht, Nat.add_sub_cancel_left,
    List.take_left]
  cases hclose : bracket.close? 1 mid with
  | none => rfl
  | some group =>
    have hat : front ++ t :: group.inside ++ (group.close :: (group.after ++ rest)) = full := by
      rw [← hfull, Bracket.close?_append hclose]
      simp
    have hpos := h.pos_eq_length hat
    simp only [List.length_append, List.length_cons] at hpos
    simp only [Option.map_some, Except.ok.injEq, Option.some.injEq]
    omega

theorem parenText_pos (hcode : t :: rest <:+ full) (ht : t.token = .openParen) :
    s.parenText (s.pos (t :: rest)) = .ok ((readParenText rest).1, s.pos (readParenText rest).2) := by
  have hrest : rest <:+ full := (List.suffix_cons t rest).trans hcode
  have hskip := h.skipBalanced_pos .paren hcode ht
  rw [Bracket.skip_eq] at hskip
  rw [parenText, hskip, ok_bind, h.pos_cons hcode, readParenText]
  cases hclose : Bracket.paren.close? 1 rest with
  | some group =>
    have happend := Bracket.close?_append hclose
    have hafter : group.close :: group.after <:+ full := .trans ⟨_, happend.symm⟩ hrest
    have hclosing : s.token? (s.pos (group.close :: group.after)) = some .closeParen := by
      rw [h.token?_pos hafter]
      exact congrArg some (Bracket.token_of_close? hclose)
    have htext : s.textBetween (s.pos rest) (s.pos (group.close :: group.after)) =
        .ok (Code.line group.inside) := by
      rw [happend] at hrest ⊢
      exact h.textBetween_pos hrest
    have hle : s.pos rest ≤ s.pos (group.close :: group.after) := s.pos_le ⟨_, happend.symm⟩
    have hpos := h.pos_cons hafter
    have hlt : s.pos rest < s.pos group.after := by omega
    have hminus : minus (s.pos group.after) 1 = .ok (s.pos (group.close :: group.after)) := by
      rw [minus_of_le (by omega), ← hpos, Nat.add_sub_cancel]
    simp [hlt, hminus, hclosing, htext]
  | none =>
    have hrest' : rest ++ [] <:+ full := by rwa [List.append_nil]
    have hwhole : s.textBetween (s.pos rest) (s.pos []) = .ok (Code.line rest) := by
      have := h.textBetween_pos hrest'
      rwa [List.append_nil] at this
    cases hlast : rest.getLast? with
    | none =>
      obtain rfl := List.getLast?_eq_none_iff.1 hlast
      simp [hwhole]
    | some last =>
      obtain ⟨hminus, -⟩ := h.tok_getLast hrest' hlast
      obtain ⟨first, rfl⟩ := List.getLast?_eq_some_iff.1 hlast
      have hend : [last] <:+ full := (List.suffix_append ..).trans hrest
      have htoken : s.token? (s.pos [last]) = some last.token := h.token?_pos hend
      have hlt : s.pos (first ++ [last]) < s.pos [] := by
        have := s.pos_le (List.suffix_append first [last])
        have := h.pos_cons hend
        omega
      by_cases hparen : last.token = .closeParen
      · simp [hlt, hminus, htoken, hparen, h.textBetween_pos hrest]
      · simp [hlt, hminus, htoken, hparen, hwhole]

theorem skipStatement_pos (hcode : code <:+ full) :
    s.skipStatement (s.pos code) = .ok (s.pos (afterStatement code)) := by
  unfold skipStatement
  fun_induction afterStatement code with
  | case1 => exact eachLeft_nil
  | case2 t rest ht => exact h.eachLeft_leave hcode (by simp [ht, h.pos_cons hcode])
  | case3 t rest ht | case4 t rest ht | case5 t rest ht =>
    exact h.eachLeft_leave hcode (by simp [ht])
  | case6 t rest bracket _ _ _ _ hopen ih =>
    have hafter := bracket.skip_suffix 1 rest
    refine (h.eachLeft_again () hcode hafter ?_).trans
      (ih ((hafter.trans (List.suffix_cons t rest)).trans hcode))
    have ht := Bracket.eq_opening_of_ofOpening? hopen
    have hskip := h.skipBalanced_pos bracket hcode ht
    cases bracket <;> simp [ht, Bracket.opening, hskip]
  | case7 t rest _ _ _ _ hnone ih =>
    refine (h.eachLeft_again () hcode List.suffix_rfl ?_).trans
      (ih ((List.suffix_cons t rest).trans hcode))
    have hopening (bracket : Bracket) : t.token ≠ bracket.opening := by
      intro ht
      rw [ht] at hnone
      cases bracket <;> cases hnone
    have hparen : t.token ≠ .openParen := hopening .paren
    have hsquare : t.token ≠ .openBracket := hopening .square
    have hbrace : t.token ≠ .openBrace := hopening .brace
    simp [h.pos_cons hcode]

/-! ## Names -/

theorem namesFrom_pos (names : List String) {depth : Nat} (hdepth : 0 < depth) (hcode : code <:+ full) :
    s.eachLeft (fun (names, _) i => (names, i)) s.nameTurn (names, depth) (s.pos code) =
      .ok (names ++ (Declaration.nameList depth code).1,
        s.pos (Declaration.nameList depth code).2) := by
  fun_induction Declaration.nameList depth code generalizing names with
  | case1 depth => simpa using eachLeft_nil
  | case2 depth t rest ht ih =>
    refine (h.eachLeft_again (names, depth + 1) hcode List.suffix_rfl ?_).trans
      (ih _ (Nat.succ_pos _) ((List.suffix_cons t rest).trans hcode))
    simp [nameTurn, ht, h.pos_cons hcode]
  | case3 depth t rest ht hone =>
    obtain rfl : depth = 1 := by omega
    refine h.eachLeft_leave hcode ?_
    simp [nameTurn, ht, minus, h.pos_cons hcode]
  | case4 depth t rest ht hone ih =>
    refine (h.eachLeft_again (names, depth - 1) hcode List.suffix_rfl ?_).trans
      (ih _ (by omega) ((List.suffix_cons t rest).trans hcode))
    have : depth - 1 ≠ 0 := by omega
    simp [nameTurn, ht, minus_of_le hdepth, this, h.pos_cons hcode]
  | case5 depth t rest ht | case6 depth t rest ht | case7 depth t rest ht =>
    exact h.eachLeft_leave hcode (by simp [nameTurn, ht])
  | case8 depth t rest ht more ih =>
    refine (h.eachLeft_again (if depth = 1 then names ++ [t.word] else names, depth) hcode
      List.suffix_rfl ?_).trans ((ih _ hdepth ((List.suffix_cons t rest).trans hcode)).trans ?_)
    · by_cases hone : depth = 1 <;>
        simp [nameTurn, ht, hone, h.word_pos hcode, h.pos_cons hcode]
    · by_cases hone : depth = 1 <;> simp [hone, more]
  | case9 depth t rest h1 h2 h3 h4 h5 h6 ih =>
    refine (h.eachLeft_again (names, depth) hcode List.suffix_rfl ?_).trans
      (ih _ hdepth ((List.suffix_cons t rest).trans hcode))
    simp [nameTurn, h.pos_cons hcode]

theorem nameList_pos (hcode : t :: rest <:+ full) (ht : t.token = .less) :
    s.nameList (s.pos (t :: rest)) =
      .ok ((Declaration.nameList 0 (t :: rest)).1, s.pos (Declaration.nameList 0 (t :: rest)).2) := by
  have hnames : Declaration.nameList 0 (t :: rest) = Declaration.nameList 1 rest := by
    rw [Declaration.nameList]
    simp [ht]
  rw [hnames]
  refine (h.eachLeft_again ([], 1) hcode List.suffix_rfl ?_).trans
    (h.namesFrom_pos [] Nat.one_pos ((List.suffix_cons t rest).trans hcode))
  simp [nameTurn, ht, h.pos_cons hcode]

/-! ## Spans -/

theorem past_pos (token : Token) (hcode : code <:+ full) :
    s.past token (s.pos code) = s.pos (if code.nextIs token then code.tail else code) := by
  rw [past, h.token?_pos hcode]
  cases code with
  | nil => rfl
  | cons t rest =>
    by_cases ht : t.token = token <;> simp [Code.next?, Code.nextIs, ht, h.pos_cons hcode]

theorem endOfSpanFrom_pos (nesting : Nesting) (stop : Token → Bool) (depth : Nat)
    (hcode : code <:+ full) :
    s.endOfSpanFrom nesting stop depth (s.pos code) =
      .ok (s.pos (spanTop nesting stop depth code).2) := by
  induction code generalizing depth with
  | nil => exact eachLeft_nil
  | cons t rest ih =>
    rw [spanTop]
    by_cases hstop : depth = 0 ∧ stop t.token
    · rw [if_pos hstop]
      refine h.eachLeft_leave hcode ?_
      simp [hstop]
    · rw [if_neg hstop]
      refine (h.eachLeft_again (nesting.depthAfter depth t.token) hcode List.suffix_rfl ?_).trans
        (ih _ ((List.suffix_cons t rest).trans hcode))
      simp [hstop, h.pos_cons hcode]

theorem endOfSpan_pos (nesting : Nesting) (stop : Token → Bool) (hcode : code <:+ full) :
    s.endOfSpan nesting stop (s.pos code) = .ok (s.pos (spanTop nesting stop 0 code).2) :=
  h.endOfSpanFrom_pos nesting stop 0 hcode

theorem declarationExtent_pos (hcode : code <:+ full) :
    s.declarationExtent (s.pos code) =
      .ok (s.pos (spanHead code).2,
        (spanHead code).2.next?.filter fun token => token == .semicolon || token == .openBrace) := by
  have hstop : (spanHead code).2 <:+ full := (spanTop_suffix ..).trans hcode
  rw [declarationExtent, h.endOfSpan_pos _ _ hcode, ok_bind, ← spanHead, h.token?_pos hstop]
  rfl

theorem lastRestart_pos (first : Nat) {mid : Code} (hmid : mid ++ rest <:+ full) :
    s.lastRestart first (s.pos (mid ++ rest)) (s.pos rest) =
      .ok (((lastRestart? mid).map fun found => s.pos (found ++ rest)).getD first) := by
  induction mid generalizing first with
  | nil => exact each_limit (Nat.le_refl _)
  | cons t mid ih =>
    rw [List.cons_append] at hmid ⊢
    have hlimit := h.pos_lt_append hmid
    rw [lastRestart?]
    by_cases hstop : t.token = .openParen ∨ t.token = .openBracket ∨ t.token = .equals
    · rw [if_pos hstop]
      refine h.each_leave hmid hlimit ?_
      simp [hstop]
    · rw [if_neg hstop]
      refine (h.each_again (if t.afterComment then s.pos (t :: (mid ++ rest)) else first) hmid hlimit
        List.suffix_rfl ?_).trans ((ih _ ((List.suffix_cons t _).trans hmid)).trans ?_)
      · simp only [Tok.token_ofCode, Tok.afterComment_ofCode, if_neg hstop, h.pos_cons hmid]
        rfl
      · cases lastRestart? mid <;> cases t.afterComment <;> rfl

theorem declarationStart_pos {head : Code} (hhead : head ++ rest <:+ full) :
    s.declarationStart (s.pos (head ++ rest)) (s.pos rest) = .ok (s.pos (restart head ++ rest)) := by
  unfold declarationStart restart
  cases head with
  | nil => exact each_limit (Nat.le_succ _)
  | cons t more =>
    rw [List.cons_append] at hhead ⊢
    rw [h.pos_cons hhead, h.lastRestart_pos _ ((List.suffix_cons t _).trans hhead)]
    rw [List.tail_cons]
    cases lastRestart? more <;> rfl

end Has

end Scanner

end Positional

end DeclDoc
