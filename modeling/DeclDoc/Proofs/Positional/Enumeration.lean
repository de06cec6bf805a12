import DeclDoc.Proofs.Located
import DeclDoc.Proofs.Positional.Declarator
import Mathlib.Data.List.Induction

/-!
# Enumerations and records by position

The name of an enumeration or record is a position before its opening brace or behind its closing
one, and is told apart by comparing it with the brace (`Scanner.Names`). `enumerators_pos`: every
enumerator takes at least its own token. `enumDeclaration_keyword`, `enumDeclaration_macro`,
`recordDeclaration_pos`: what is read is the enumeration or record of the code.
-/

set_option autoImplicit false

namespace DeclDoc

open Declaration

/-- The head that a keyword makes with what follows it and `class` or `struct`. -/
def Declaration.EnumHead.ofNamed (keyword : CodeToken) (after : Code) : EnumHead :=
  match after with
  | t :: rest =>
    if t.token = .ident then { keyword, name := some t, typeName := typeAfterColon? rest }
    else { keyword, typeName := typeAfterColon? after }
  | [] => { keyword }

theorem Declaration.EnumHead.ofKeyword_eq (keyword : CodeToken) (after : Code) :
    ofKeyword keyword after =
      ofNamed keyword
        (if after.head?.any (·.isWordOf ["class", "struct"]) then after.tail else after) := rfl

/-- What a declaration is located at that a name behind its brace, one in its head or none names. -/
def Declaration.locatedAt (behind head : Option CodeToken) (keyword : CodeToken) : CodeToken :=
  if behind.isNone then head.getD keyword else keyword

theorem Declaration.locatedAt_start (behind head : Option CodeToken) (keyword : CodeToken) :
    (locatedAt behind head keyword).start =
      match behind, head with
      | none, some name => name.start
      | _, _ => keyword.start := by
  cases behind <;> cases head <;> rfl

theorem Declaration.record_eq (keyword : CodeToken) (after : Code) (isTypedef : Bool) (extent : Nat)
    (code : Code) :
    record keyword after isTypedef extent code =
      let tail := readTail isTypedef (afterBraces code)
      ((tail.1.or (recordTag? after)).map fun name =>
        { kind := recordKind keyword
          spelling := name.word
          offset := (locatedAt tail.1 (recordTag? after) keyword).start
          extent }, tail.2) := by
  dsimp only
  rw [locatedAt_start]
  rfl

namespace Positional.Scanner

variable (s : Scanner)

/-! ## Operations -/

/-- The enumerator at a position, unless it is an attribute word. -/
def enumeratorAt (i : Nat) : Except Crash (List Cursor) := do
  if ← s.isAttributeAt i then pure []
  else do pure [← s.cursor .enumerator (← s.word i) i i]

/-- Past the value of an enumerator and the comma behind it. -/
def enumeratorEnd (i : Nat) : Except Crash Nat := do
  let stop ← s.endOfSpan .initializers endsEnumerator i
  pure (s.past .comma stop)

/-- Reads an enumerator or closes the list. -/
def enumeratorTurn (values : List Cursor) (t : Tok) (i : Nat) :
    Except Crash (Turn (List Cursor) (List Cursor × Nat)) :=
  match t.token with
  | .closeBrace => .ok (.leave (values, i + 1))
  | .ident => do
    let value ← s.enumeratorAt i
    let next ← s.enumeratorEnd (i + 1)
    pure (.again (values ++ value) next)
  | _ => .ok (.again values (i + 1))

/-- The enumerators behind a brace, and where they end. -/
def enumerators (brace : Nat) : Except Crash (List Cursor × Nat) :=
  s.eachLeft (fun values i => (values, i)) s.enumeratorTurn [] (brace + 1)

/-- The last identifier of a range. -/
def lastIdent (start stop : Nat) : Except Crash (Option Nat) :=
  s.eachBack start (fun _ _ => none)
    (fun _ t i => .ok (if t.token = .ident then .inr (some i) else .inl ())) () stop

/-- The text of a range up to its first comma, if there is one. -/
def textBeforeComma (start stop : Nat) : Except Crash (Option String) := do
  match ← s.findToken .comma start stop with
  | some comma => pure (some (← s.textBetween start comma))
  | none => pure none

/-- Name and type in the arguments of a macro. -/
def macroHead (keyword brace : Nat) : Except Crash (Option Nat × Option String) :=
  if s.token? (keyword + 1) = some .openParen then do
    match ← s.matchingClose (keyword + 1) brace with
    | none => pure (none, none)
    | some close =>
      let name ← s.lastIdent (keyword + 2) close
      let typeName ← s.textBeforeComma (keyword + 2) close
      pure (name, typeName)
  else pure (none, none)

/-- The type behind a colon at a position before the brace. -/
def typeAfterColon (brace i : Nat) : Except Crash (Option String) := do
  if ← s.isTokenBelow brace i .colon then pure (some (← s.textBetween (i + 1) brace))
  else pure none

/-- Name and type from a position behind the keyword on. -/
def nameAndType (brace i : Nat) : Except Crash (Option Nat × Option String) := do
  if ← s.isTokenBelow brace i .ident then pure (some i, ← s.typeAfterColon brace (i + 1))
  else pure (none, ← s.typeAfterColon brace i)

/-- Name and type behind the keyword, with `class` or `struct` after it perhaps. -/
def keywordHead (keyword brace : Nat) : Except Crash (Option Nat × Option String) := do
  if ← s.isWordOf (keyword + 1) ["class", "struct"] then s.nameAndType brace (keyword + 2)
  else s.nameAndType brace (keyword + 1)

/-- The name of a `typedef` behind a closing brace, and where the declaration ends. -/
def tail (isTypedef : Bool) (start : Nat) : Except Crash (Option Nat × Nat) := do
  let (stop, terminator) ← s.declarationExtent start
  let after := if terminator = some .semicolon then stop + 1 else stop
  if isTypedef ∧ start < stop then do pure (← s.declaratorName start stop, after)
  else pure (none, after)

/-- What a name is spelled like and where it is located: `anchor` for one behind the brace. -/
def nameBefore (brace anchor : Nat) : Option Nat → Except Crash (String × Nat)
  | some name => do pure (← s.word name, if name < brace then name else anchor)
  | none => pure ("", anchor)

/-- The enumeration with a head before its brace. -/
def enumBody (head : Option Nat × Option String) (start brace anchor : Nat) (isTypedef : Bool) :
    Except Crash (Cursor × Nat) := do
  let (values, behind) ← s.enumerators brace
  let (tailName, after) ← s.tail isTypedef behind
  let (spelling, located) ← s.nameBefore brace anchor (tailName.or head.1)
  let cursor ← s.cursor .enumeration spelling located start
  pure ({ cursor with detail := { typeName := head.2 }, children := values }, after)

/-- The enumeration of a macro or of a keyword. -/
def enumDeclaration (start brace : Nat) (isTypedef : Bool) (byMacro keyword : Option Nat) :
    Except Crash (Cursor × Nat) := do
  let anchor := (byMacro.or keyword).getD start
  match byMacro, keyword with
  | some keyword, _ => s.enumBody (← s.macroHead keyword brace) start brace anchor isTypedef
  | none, some keyword => s.enumBody (← s.keywordHead keyword brace) start brace anchor isTypedef
  | none, none => s.enumBody (none, none) start brace anchor isTypedef

/-- Looks for a tag, past attributes and their arguments. -/
def recordTagTurn (brace : Nat) (t : Tok) (i : Nat) : Except Crash (Turn Unit (Option Nat)) :=
  match t.token with
  | .ident => do
    if ← s.isAttributeAt i then pure (.again () (i + 1))
    else pure (.leave (some i))
  | .openParen => do
    match ← s.matchingClose i brace with
    | some close => pure (.again () (close + 1))
    | none => pure (.leave none)
  | _ => .ok (.leave none)

/-- The tag of a record. -/
def recordTag (keyword brace : Nat) : Except Crash (Option Nat) :=
  s.each brace (fun _ _ => none) (fun _ t i => s.recordTagTurn brace t i) () (keyword + 1)

/-- The record of a keyword, if it is named. -/
def recordDeclaration (start brace keyword : Nat) (isTypedef : Bool) :
    Except Crash (Option Cursor × Nat) := do
  let word ← s.word keyword
  let kind : CursorKind :=
    if word = "struct" then .struct else if word = "union" then .union else .classDeclaration
  let tag ← s.recordTag keyword brace
  let behind ← s.skipBalanced brace
  let (tailName, after) ← s.tail isTypedef behind
  match tailName.or tag with
  | none => pure (none, after)
  | some name =>
    let (spelling, located) ← s.nameBefore brace keyword (some name)
    let cursor ← s.cursor kind spelling located start
    pure (some cursor, after)

/-! ## Names -/

variable {s} {full : Code}

/-- Where a name stands, at a position that `p` holds of. -/
def Names (s : Scanner) (full : Code) (p : Nat → Prop) (i : Nat) (name : CodeToken) : Prop :=
  p i ∧ ∃ behind, name :: behind <:+ full ∧ i = s.pos (name :: behind)

theorem Names.mono {p q : Nat → Prop} (hpq : ∀ {j}, p j → q j) {i : Option Nat}
    {name : Option CodeToken} (hname : Option.Rel (s.Names full p) i name) :
    Option.Rel (s.Names full q) i name := by
  cases hname with
  | none => exact .none
  | some hname => exact .some ⟨hpq hname.1, hname.2⟩

theorem Names.or {p q : Nat → Prop} {i j : Option Nat} {name other : Option CodeToken}
    (hname : Option.Rel (s.Names full p) i name) (hother : Option.Rel (s.Names full q) j other) :
    Option.Rel (s.Names full fun _ => True) (i.or j) (name.or other) := by
  cases hname with
  | none => exact Names.mono (fun _ => trivial) hother
  | some hname => exact .some ⟨trivial, hname.2⟩

namespace Has

variable (h : s.Has full) {t : CodeToken} {code rest : Code}

include h

/-! ## Enumerators -/

theorem enumeratorAt_pos (hcode : t :: rest <:+ full) :
    s.enumeratorAt (s.pos (t :: rest)) = .ok (if isAttribute t then [] else [enumerator t]) := by
  rw [enumeratorAt, h.isAttributeAt_pos hcode, ok_bind, h.word_pos hcode, ok_bind,
    h.cursor_pos _ _ hcode hcode]
  cases hattr : isAttribute t <;> simp [hattr, enumerator]

theorem enumeratorEnd_pos (hcode : code <:+ full) :
    s.enumeratorEnd (s.pos code) = .ok (s.pos (afterEnumerator code)) := by
  rw [enumeratorEnd, h.endOfSpan_pos _ _ hcode, ok_bind,
    h.past_pos _ ((spanTop_suffix ..).trans hcode)]
  rfl

theorem enumeratorsFrom_pos (values : List Cursor) (hcode : code <:+ full) :
    s.eachLeft (fun values i => (values, i)) s.enumeratorTurn values (s.pos code) =
      .ok (values ++ (Declaration.enumerators code).1, s.pos (Declaration.enumerators code).2) := by
  fun_induction Declaration.enumerators code generalizing values with
  | case1 => simpa using eachLeft_nil
  | case2 t rest ht => exact h.eachLeft_leave hcode (by simp [enumeratorTurn, ht, h.pos_cons hcode])
  | case3 t rest ht more ih =>
    have hrest := (List.suffix_cons t rest).trans hcode
    have hafter := afterEnumerator_suffix rest
    refine (h.eachLeft_again (values ++ if isAttribute t then [] else [enumerator t]) hcode hafter
      ?_).trans ((ih _ (hafter.trans hrest)).trans ?_)
    · simp [enumeratorTurn, ht, h.enumeratorAt_pos hcode, h.pos_cons hcode, h.enumeratorEnd_pos hrest]
    · cases isAttribute t <;> simp [more]
  | case4 t rest _ _ ih =>
    refine (h.eachLeft_again values hcode List.suffix_rfl ?_).trans
      (ih _ ((List.suffix_cons t rest).trans hcode))
    simp [enumeratorTurn, h.pos_cons hcode]

theorem enumerators_pos (hcode : t :: rest <:+ full) :
    s.enumerators (s.pos (t :: rest)) =
      .ok ((Declaration.enumerators rest).1, s.pos (Declaration.enumerators rest).2) := by
  rw [Scanner.enumerators, h.pos_cons hcode]
  exact h.enumeratorsFrom_pos [] ((List.suffix_cons t rest).trans hcode)

/-! ## Heads -/

/-- A name found in a part of the code stands before its end. -/
theorem lastIdent_pos {stop : Nat} {mid : Code} (hmid : mid ++ rest <:+ full)
    (hstop : s.pos rest ≤ stop) :
    ∃ i, s.lastIdent (s.pos (mid ++ rest)) (s.pos rest) = .ok i ∧
      Option.Rel (s.Names full (· < stop)) i (mid.reverse.find? (·.token == .ident)) := by
  induction mid using List.reverseRecOn generalizing rest with
  | nil => exact ⟨none, eachBack_first (Nat.le_refl _), .none⟩
  | append_singleton first t ih =>
    rw [List.append_assoc, List.singleton_append] at hmid ⊢
    have hsuffix := List.suffix_append first (t :: rest)
    have hpos := h.pos_cons (hsuffix.trans hmid)
    rw [List.reverse_append, List.reverse_singleton, List.singleton_append, List.find?_cons]
    by_cases ht : t.token = .ident
    · refine ⟨some (s.pos (t :: rest)), ?_, ?_⟩
      · exact h.eachBack_leave (hsuffix.trans hmid) (s.pos_le hsuffix) (by simp [ht])
      · simpa [ht] using Option.Rel.some ⟨by omega, rest, hsuffix.trans hmid, rfl⟩
    · obtain ⟨i, hi, hname⟩ := ih hmid (by omega)
      have hnot : (t.token == .ident) = false := by simpa using ht
      rw [hnot]
      refine ⟨i, ?_, hname⟩
      exact (h.eachBack_again () (hsuffix.trans hmid) (s.pos_le hsuffix) (by simp [ht])).trans hi

theorem textBeforeComma_pos {mid : Code} (hmid : mid ++ rest <:+ full) :
    s.textBeforeComma (s.pos (mid ++ rest)) (s.pos rest) =
      .ok (if mid.any (·.token == .comma) then some (Code.line (mid.before .comma)) else none) := by
  have hsplit : mid.before .comma ++ mid.dropWhile (·.token != .comma) = mid :=
    List.takeWhile_append_dropWhile
  have htext : s.textBetween (s.pos (mid ++ rest))
      (s.pos (mid.dropWhile (·.token != .comma) ++ rest)) = .ok (Code.line (mid.before .comma)) := by
    rw [← hsplit, List.append_assoc] at hmid
    have := h.textBetween_pos hmid
    rwa [← List.append_assoc, hsplit] at this
  rw [textBeforeComma, h.findToken_pos .comma hmid, ok_bind]
  cases mid.any (·.token == .comma) <;> simp [htext]

theorem macroHead_pos {after : Code} (hcode : t :: (after ++ rest) <:+ full) :
    ∃ i, s.macroHead (s.pos (t :: (after ++ rest))) (s.pos rest) =
        .ok (i, (EnumHead.ofMacro t after).typeName) ∧
      Option.Rel (s.Names full (· < s.pos rest)) i (EnumHead.ofMacro t after).name := by
  have hafter := (List.suffix_cons t _).trans hcode
  rw [macroHead, h.pos_cons hcode]
  unfold EnumHead.ofMacro
  cases after with
  | nil =>
    -- The parenthesis would stand behind the head, and nothing closes there.
    rw [List.nil_append, matchingClose_limit (Nat.le_refl _)]
    refine ⟨none, ?_, .none⟩
    split <;> rfl
  | cons p args =>
    rw [List.cons_append] at hcode hafter ⊢
    have htoken : s.token? (s.pos (p :: (args ++ rest))) = some p.token := h.token?_pos hafter
    rw [htoken]
    by_cases hp : p.token = .openParen
    · rw [if_pos (congrArg some hp)]
      dsimp only
      rw [if_pos hp]
      have hargs := (List.suffix_cons p _).trans hafter
      rw [h.matchingClose_pos .paren hafter hp]
      cases hclose : Bracket.paren.close? 1 args with
      | none => exact ⟨none, rfl, .none⟩
      | some group =>
        have hinside : args ++ rest = group.inside ++ group.close :: (group.after ++ rest) := by
          rw [Bracket.close?_append hclose]
          simp
        rw [hinside] at hargs
        have hrest : rest <:+ group.close :: (group.after ++ rest) :=
          (List.suffix_append group.after rest).trans (List.suffix_cons _ _)
        obtain ⟨i, hi, hname⟩ := h.lastIdent_pos hargs (s.pos_le hrest)
        refine ⟨i, ?_, hname⟩
        have htwo : s.pos (t :: p :: (args ++ rest)) + 2 = s.pos (args ++ rest) := by
          have := h.pos_cons hcode
          have := h.pos_cons hafter
          omega
        rw [htwo, hinside]
        simp [hi, h.textBeforeComma_pos hargs]
    · rw [if_neg (fun heq => hp (Option.some.inj heq))]
      dsimp only
      rw [if_neg hp]
      exact ⟨none, rfl, .none⟩

theorem typeAfterColon_pos {mid : Code} (hmid : mid ++ rest <:+ full) :
    s.typeAfterColon (s.pos rest) (s.pos (mid ++ rest)) = .ok (EnumHead.typeAfterColon? mid) := by
  rw [typeAfterColon, h.isTokenBelow_pos _ hmid, ok_bind]
  cases mid with
  | nil => rfl
  | cons t more =>
    rw [List.cons_append] at hmid ⊢
    rw [h.pos_cons hmid, h.textBetween_pos ((List.suffix_cons t _).trans hmid)]
    by_cases ht : t.token = .colon <;> simp [Code.nextIs, Code.next?, EnumHead.typeAfterColon?, ht]

theorem nameAndType_pos (keyword : CodeToken) {mid : Code} (hmid : mid ++ rest <:+ full) :
    ∃ i, s.nameAndType (s.pos rest) (s.pos (mid ++ rest)) =
        .ok (i, (EnumHead.ofNamed keyword mid).typeName) ∧
      Option.Rel (s.Names full (· < s.pos rest)) i (EnumHead.ofNamed keyword mid).name := by
  have htype := h.typeAfterColon_pos hmid
  rw [nameAndType, h.isTokenBelow_pos _ hmid, ok_bind, htype]
  cases mid with
  | nil => exact ⟨none, rfl, .none⟩
  | cons t more =>
    rw [List.cons_append] at hmid ⊢
    have hmore := h.typeAfterColon_pos ((List.suffix_cons t _).trans hmid)
    rw [h.pos_cons hmid, hmore]
    by_cases ht : t.token = .ident
    · refine ⟨some (s.pos (t :: (more ++ rest))), ?_, ?_⟩
      · simp [Code.nextIs, Code.next?, EnumHead.ofNamed, ht]
      · simpa [EnumHead.ofNamed, ht] using
          Option.Rel.some ⟨h.pos_lt_append hmid, _, hmid, rfl⟩
    · refine ⟨none, ?_, ?_⟩
      · simp [Code.nextIs, Code.next?, EnumHead.ofNamed, ht]
      · simp [EnumHead.ofNamed, ht]

theorem keywordHead_pos {after : Code} {brace : CodeToken} (hbrace : brace.token = .openBrace)
    (hcode : t :: (after ++ brace :: rest) <:+ full) :
    ∃ i, s.keywordHead (s.pos (t :: (after ++ brace :: rest))) (s.pos (brace :: rest)) =
        .ok (i, (EnumHead.ofKeyword t after).typeName) ∧
      Option.Rel (s.Names full (· < s.pos (brace :: rest))) i (EnumHead.ofKeyword t after).name := by
  have hafter := (List.suffix_cons t _).trans hcode
  rw [keywordHead, h.pos_cons hcode, h.isWordOf_pos hafter, ok_bind, EnumHead.ofKeyword_eq]
  cases after with
  | nil =>
    rw [if_neg (by simp [CodeToken.isWordOf, hbrace])]
    exact h.nameAndType_pos t hafter
  | cons u more =>
    have hnamed := h.nameAndType_pos t hafter
    rw [List.cons_append] at hcode hafter hnamed ⊢
    have hmore := (List.suffix_cons u _).trans hafter
    have htwo : s.pos (t :: u :: (more ++ brace :: rest)) + 2 = s.pos (more ++ brace :: rest) := by
      have := h.pos_cons hcode
      have := h.pos_cons hafter
      omega
    rw [htwo]
    by_cases hu : u.isWordOf ["class", "struct"]
    · simpa [hu] using h.nameAndType_pos t hmore
    · simpa [hu] using hnamed

/-! ## The tail behind the closing brace -/

/-- A name behind the brace is where the declaration ends. -/
theorem tail_pos (isTypedef : Bool) (hcode : code <:+ full) :
    ∃ i, s.tail isTypedef (s.pos code) = .ok (i, s.pos (readTail isTypedef code).2) ∧
      Option.Rel (s.Names full (s.pos code ≤ ·)) i (readTail isTypedef code).1 := by
  have hsplit : (spanHead code).1 ++ (spanHead code).2 = code := spanTop_append ..
  have hhead : (spanHead code).1 ++ (spanHead code).2 <:+ full := hsplit.symm ▸ hcode
  have hrest := (List.suffix_append _ _).trans hhead
  have hafter :
      (if (spanHead code).2.next?.filter (fun token => token == .semicolon || token == .openBrace) =
          some .semicolon then s.pos (spanHead code).2 + 1 else s.pos (spanHead code).2) =
        s.pos (dropSemicolon (spanHead code).2) := by
    rw [dropSemicolon, ← h.past_pos _ hrest, past, h.token?_pos hrest]
    simp [Option.filter_eq_some_iff]
  have hempty := h.pos_le_iff hhead
  rw [hsplit] at hempty
  rw [Scanner.tail, h.declarationExtent_pos hcode, ok_bind]
  dsimp only
  rw [hafter, readTail]
  by_cases hread : isTypedef ∧ s.pos code < s.pos (spanHead code).2
  · rw [if_pos hread, if_pos hread.1]
    have hname := h.declaratorName_pos hhead
    rw [hsplit] at hname
    rw [hname]
    cases hfind : Declarator.find? (spanHead code).1 with
    | none => exact ⟨none, rfl, .none⟩
    | some d =>
      have hcode' : (d.before ++ d.name :: d.after) ++ (spanHead code).2 = code := by
        rw [Declarator.find?_append hfind, hsplit]
      have hname : d.name :: (d.after ++ (spanHead code).2) <:+ code :=
        ⟨d.before, .trans (by simp) hcode'⟩
      exact ⟨_, rfl, .some ⟨s.pos_le hname, _, hname.trans hcode, rfl⟩⟩
  · refine ⟨none, by rw [if_neg hread]; rfl, ?_⟩
    cases isTypedef with
    | false => exact .none
    | true =>
      rw [hempty.1 (Nat.le_of_not_lt fun hlt => hread ⟨rfl, hlt⟩)]
      exact .none

/-- A declaration is located at a name before its brace, but at its keyword if a name behind the brace
comes first. -/
theorem nameBefore_pos {brace : Nat} {i j : Option Nat} {behind head : Option CodeToken}
    {keyword : CodeToken} {more : Code} (hkeyword : keyword :: more <:+ full)
    (hbehind : Option.Rel (s.Names full (brace ≤ ·)) i behind)
    (hhead : Option.Rel (s.Names full (· < brace)) j head) :
    ∃ k, s.nameBefore brace (s.pos (keyword :: more)) (i.or j) =
        .ok (((behind.or head).map CodeToken.word).getD "", k) ∧
      s.Names full (fun _ => True) k (locatedAt behind head keyword) := by
  cases hbehind with
  | none =>
    cases hhead with
    | none => exact ⟨_, rfl, trivial, more, hkeyword, rfl⟩
    | @some i name hname =>
      obtain ⟨hlt, rest, hname, rfl⟩ := hname
      refine ⟨s.pos (name :: rest), ?_, trivial, rest, hname, rfl⟩
      simp [nameBefore, h.word_pos hname, hlt]
  | @some i name hname =>
    obtain ⟨hle, rest, hname, rfl⟩ := hname
    refine ⟨s.pos (keyword :: more), ?_, trivial, more, hkeyword, ?_⟩
    · simp [nameBefore, h.word_pos hname, Nat.not_lt.2 hle]
    · rfl

theorem cursor_names (kind : CursorKind) (spelling : String) {k : Nat} {name : CodeToken}
    (hname : s.Names full (fun _ => True) k name) (hstart : t :: rest <:+ full) :
    s.cursor kind spelling k (s.pos (t :: rest)) =
      .ok { kind, spelling, offset := name.start, extent := t.start } := by
  obtain ⟨-, behind, hname, rfl⟩ := hname
  exact h.cursor_pos kind spelling hname hstart

/-! ## Enumerations -/

theorem enumBody_pos {head : EnumHead} {j : Option Nat} (isTypedef : Bool) {brace : CodeToken}
    {more : Code} (hkeyword : head.keyword :: more <:+ full)
    (hname : Option.Rel (s.Names full (· < s.pos (brace :: code))) j head.name)
    (hbrace : brace :: code <:+ full) (hstart : t :: rest <:+ full) :
    s.enumBody (j, head.typeName) (s.pos (t :: rest)) (s.pos (brace :: code))
      (s.pos (head.keyword :: more)) isTypedef =
        .ok ((enumeration head isTypedef t.start code).1,
          s.pos (enumeration head isTypedef t.start code).2) := by
  have hvalues : (Declaration.enumerators code).2 <:+ code := enumerators_suffix code
  have hcode := (List.suffix_cons brace code).trans hbrace
  obtain ⟨i, htail, hbehind⟩ := h.tail_pos isTypedef (hvalues.trans hcode)
  have hpast : s.pos (brace :: code) ≤ s.pos (Declaration.enumerators code).2 :=
    (h.pos_lt hbrace hvalues).le
  obtain ⟨k, hnamed, hlocated⟩ := h.nameBefore_pos hkeyword (Names.mono hpast.trans hbehind) hname
  rw [enumBody, h.enumerators_pos hbrace, ok_bind]
  dsimp only
  rw [htail, ok_bind]
  dsimp only
  rw [hnamed, ok_bind, h.cursor_names _ _ hlocated hstart]
  rw [locatedAt_start]
  rfl

theorem enumDeclaration_macro {after : Code} (isTypedef : Bool) (keyword? : Option Nat)
    {keyword brace : CodeToken} (hkeyword : keyword :: (after ++ brace :: code) <:+ full)
    (hstart : t :: rest <:+ full) :
    s.enumDeclaration (s.pos (t :: rest)) (s.pos (brace :: code)) isTypedef
        (some (s.pos (keyword :: (after ++ brace :: code)))) keyword? =
      .ok ((enumeration (.ofMacro keyword after) isTypedef t.start code).1,
        s.pos (enumeration (.ofMacro keyword after) isTypedef t.start code).2) := by
  have hbrace := (List.suffix_append after _).trans ((List.suffix_cons keyword _).trans hkeyword)
  have hof : (EnumHead.ofMacro keyword after).keyword = keyword := by
    unfold EnumHead.ofMacro
    split
    · split
      · split <;> rfl
      · rfl
    · rfl
  obtain ⟨i, hhead, hname⟩ := h.macroHead_pos hkeyword
  rw [enumDeclaration, Option.some_or, hhead, ok_bind]
  exact h.enumBody_pos isTypedef (hof.symm ▸ hkeyword) hname hbrace hstart

theorem enumDeclaration_keyword {after : Code} (isTypedef : Bool) {keyword brace : CodeToken}
    (hkeyword : keyword :: (after ++ brace :: code) <:+ full) (hopen : brace.token = .openBrace)
    (hstart : t :: rest <:+ full) :
    s.enumDeclaration (s.pos (t :: rest)) (s.pos (brace :: code)) isTypedef none
        (some (s.pos (keyword :: (after ++ brace :: code)))) =
      .ok ((enumeration (.ofKeyword keyword after) isTypedef t.start code).1,
        s.pos (enumeration (.ofKeyword keyword after) isTypedef t.start code).2) := by
  have hbrace := (List.suffix_append after _).trans ((List.suffix_cons keyword _).trans hkeyword)
  have hof : (EnumHead.ofKeyword keyword after).keyword = keyword := by
    rw [EnumHead.ofKeyword_eq]
    unfold EnumHead.ofNamed
    split
    · split <;> rfl
    · rfl
  obtain ⟨i, hhead, hname⟩ := h.keywordHead_pos hopen hkeyword
  rw [enumDeclaration, Option.none_or, hhead, ok_bind]
  exact h.enumBody_pos isTypedef (hof.symm ▸ hkeyword) hname hbrace hstart

/-! ## Records -/

theorem recordTag_pos {after : Code} (hcode : t :: (after ++ rest) <:+ full) :
    ∃ i, s.recordTag (s.pos (t :: (after ++ rest))) (s.pos rest) = .ok i ∧
      Option.Rel (s.Names full (· < s.pos rest)) i (recordTag? after) := by
  have hafter := (List.suffix_cons t _).trans hcode
  rw [recordTag, h.pos_cons hcode]
  clear hcode
  fun_induction recordTag? after with
  | case1 => exact ⟨none, each_limit (Nat.le_refl _), .none⟩
  | case2 t more ht hattr ih =>
    rw [List.cons_append] at hafter ⊢
    obtain ⟨i, hi, hname⟩ := ih ((List.suffix_cons t _).trans hafter)
    refine ⟨i, (h.each_again () hafter (h.pos_lt_append hafter) List.suffix_rfl ?_).trans hi, hname⟩
    simp [recordTagTurn, ht, h.isAttributeAt_pos hafter, hattr, h.pos_cons hafter]
  | case3 t more ht hattr =>
    rw [List.cons_append] at hafter ⊢
    have hlimit := h.pos_lt_append hafter
    refine ⟨some (s.pos (t :: (more ++ rest))), h.each_leave hafter hlimit ?_, ?_⟩
    · simp [recordTagTurn, ht, h.isAttributeAt_pos hafter, hattr]
    · exact .some ⟨hlimit, _, hafter, rfl⟩
  | case4 t more ht group hclose ih =>
    rw [List.cons_append] at hafter ⊢
    have hclosed := Bracket.close_suffix hclose rest
    have hmore := (List.suffix_cons t _).trans hafter
    have hbehind := (List.suffix_cons group.close _).trans hclosed
    obtain ⟨i, hi, hname⟩ := ih (hbehind.trans hmore)
    refine ⟨i, (h.each_again () hafter (h.pos_lt_append hafter) hbehind ?_).trans hi, hname⟩
    simp [recordTagTurn, ht, h.matchingClose_pos .paren hafter ht, hclose,
      h.pos_cons (hclosed.trans hmore)]
  | case5 t more ht hclose =>
    rw [List.cons_append] at hafter ⊢
    refine ⟨none, h.each_leave hafter (h.pos_lt_append hafter) ?_, .none⟩
    simp [recordTagTurn, ht, h.matchingClose_pos .paren hafter ht, hclose]
  | case6 t more hident hparen =>
    rw [List.cons_append] at hafter ⊢
    exact ⟨none, h.each_leave hafter (h.pos_lt_append hafter) (by simp [recordTagTurn]), .none⟩

theorem recordDeclaration_pos {after : Code} (isTypedef : Bool) {keyword brace : CodeToken}
    (hkeyword : keyword :: (after ++ brace :: code) <:+ full) (hopen : brace.token = .openBrace)
    (hword : keyword.token = .ident) (hstart : t :: rest <:+ full) :
    s.recordDeclaration (s.pos (t :: rest)) (s.pos (brace :: code))
        (s.pos (keyword :: (after ++ brace :: code))) isTypedef =
      .ok ((record keyword after isTypedef t.start code).1,
        s.pos (record keyword after isTypedef t.start code).2) := by
  have hbrace := (List.suffix_append after _).trans ((List.suffix_cons keyword _).trans hkeyword)
  have hmembers : afterBraces code <:+ code := Bracket.skip_suffix ..
  have hcode := (List.suffix_cons brace code).trans hbrace
  obtain ⟨j, htag, hname⟩ := h.recordTag_pos hkeyword
  obtain ⟨i, htail, hbehind⟩ := h.tail_pos isTypedef (hmembers.trans hcode)
  have hpast : s.pos (brace :: code) ≤ s.pos (afterBraces code) := (h.pos_lt hbrace hmembers).le
  obtain ⟨k, hnamed, hlocated⟩ := h.nameBefore_pos hkeyword (Names.mono hpast.trans hbehind) hname
  have hfound := Names.or (Names.mono hpast.trans hbehind) hname
  have hskip : s.skipBalanced (s.pos (brace :: code)) = .ok (s.pos (afterBraces code)) :=
    h.skipBalanced_pos .brace hbrace hopen
  rw [recordDeclaration, h.word_pos hkeyword, ok_bind, htag, ok_bind, hskip, ok_bind, htail, ok_bind]
  dsimp only
  rw [record_eq]
  dsimp only
  generalize i.or j = found at hnamed hfound ⊢
  generalize (readTail isTypedef (afterBraces code)).1.or (recordTag? after) = name at hnamed hfound ⊢
  cases hfound with
  | none => rfl
  | some _ =>
    dsimp only
    rw [hnamed, ok_bind, h.cursor_names _ _ hlocated hstart]
    simp [recordKind, CodeToken.isWord, CodeToken.isWordOf, hword]

end Has

end Positional.Scanner

end DeclDoc
