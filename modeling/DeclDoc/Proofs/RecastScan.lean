import DeclDoc.Proofs.Recast

/-!
# Scanning recast code

The mark that a comment leaves on a token is looked at to one end only: the marks at the
`restartPoints` of a head, and no others, tell where its declaration begins (`restart_map_iff`).
`plainHeads` are the heads of the plain declarations that a scan comes by. `scan_recast`: a recast
that keeps their marks changes the details of what is declared only.
-/

set_option autoImplicit false

namespace DeclDoc.Declaration

open Cursor (bares)

variable {e : Recast}

/-! ## Plain declarations -/

/-- The tokens whose marks decide where the last restart is: none behind them is a restart. -/
def restartPoints : Code → Code
  | [] => []
  | t :: rest =>
    if t.token = .openParen ∨ t.token = .openBracket ∨ t.token = .equals then []
    else if (lastRestart? rest).isSome then restartPoints rest
    else t :: restartPoints rest

/-- The marks are kept that decide where the declaration of this head begins. -/
def KeepsMarks (e : Recast) (head : Code) : Prop :=
  ∀ t ∈ restartPoints head.tail, (e.apply t).afterComment = t.afterComment

/-- A restart is found at the same token just when the marks at the restart points are kept. -/
theorem lastRestart?_map_iff (code : Code) :
    lastRestart? (code.map e.apply) = (lastRestart? code).map (List.map e.apply) ↔
      ∀ t ∈ restartPoints code, (e.apply t).afterComment = t.afterComment := by
  induction code with
  | nil => exact ⟨fun _ => List.forall_mem_nil _, fun _ => rfl⟩
  | cons t rest ih =>
    -- a restart behind `t` leaves less code than one at `t`
    have hbehind : ∀ {found : Code}, lastRestart? (rest.map e.apply) = some found →
        found.length ≤ rest.length := by
      intro found hfound
      simpa using (lastRestart?_suffix hfound).length_le
    rw [List.map_cons, restartPoints, lastRestart?, lastRestart?, Relabel.token]
    split
    · exact ⟨fun _ => List.forall_mem_nil _, fun _ => rfl⟩
    cases hlast : lastRestart? rest with
    | some last =>
      have hshort := (lastRestart?_suffix hlast).length_le
      rw [hlast] at ih
      cases hother : lastRestart? (rest.map e.apply) with
      | some other =>
        rw [hother] at ih
        exact ih
      | none =>
        rw [hother] at ih
        refine ⟨fun h => ?_, fun h => absurd (ih.2 h) (Option.some_ne_none _).symm⟩
        cases hmark : (e.apply t).afterComment with
        | false => simp [hmark] at h
        | true =>
          have hlength := congrArg (Option.map List.length) h
          simp [hmark] at hlength
          omega
    | none =>
      rw [hlast] at ih
      have hpoints : (∀ u ∈ t :: restartPoints rest, (e.apply u).afterComment = u.afterComment) ↔
          (e.apply t).afterComment = t.afterComment ∧
            lastRestart? (rest.map e.apply) = none :=
        List.forall_mem_cons.trans (and_congr_right fun _ => ih.symm)
      refine Iff.trans ?_ hpoints.symm
      cases hother : lastRestart? (rest.map e.apply) with
      | some other =>
        have hshort := hbehind hother
        refine ⟨fun h => ?_, fun h => absurd h.2 (Option.some_ne_none other)⟩
        have hlength := congrArg (Option.map List.length) h
        cases hmark : t.afterComment with
        | false => simp [hmark] at hlength
        | true =>
          simp [hmark] at hlength
          omega
      | none =>
        cases hmark : t.afterComment <;> cases hchanged : (e.apply t).afterComment <;> simp

/-- A declaration begins at the same token just when the marks that decide it are kept. -/
theorem restart_map_iff (head : Code) :
    restart (head.map e.apply) = (restart head).map e.apply ↔ KeepsMarks e head := by
  rw [KeepsMarks, ← lastRestart?_map_iff, restart, restart, ← List.map_tail]
  cases head with
  | nil => exact ⟨fun _ => rfl, fun _ => rfl⟩
  | cons first more =>
    rw [List.tail_cons]
    refine ⟨fun h => ?_, fun h => by rw [h]; cases lastRestart? more <;> rfl⟩
    have hlength := congrArg List.length h
    cases hlast : lastRestart? more with
    | some last =>
      have hshort := (lastRestart?_suffix hlast).length_le
      cases hother : lastRestart? (more.map e.apply) with
      | some other => simpa [hlast, hother] using h
      | none =>
        simp [hlast, hother] at hlength
        omega
    | none =>
      cases hother : lastRestart? (more.map e.apply) with
      | some other =>
        have hshort := (lastRestart?_suffix hother).length_le
        simp [hlast, hother] at hlength hshort
        omega
      | none => rfl

/-- Two cursors found that are the same but for their details, or none in both cases. -/
theorem none_or_some {found other : Option Cursor}
    (h : found.map Cursor.bare = other.map Cursor.bare) :
    found = none ∧ other = none ∨
      ∃ a b, found = some a ∧ other = some b ∧ a.bare = b.bare := by
  cases found with
  | none => exact .inl ⟨rfl, Option.map_eq_none_iff.1 h.symm⟩
  | some a =>
    obtain ⟨b, hb, hbare⟩ := Option.map_eq_some_iff.1 h.symm
    exact .inr ⟨a, b, rfl, hb, hbare.symm⟩

theorem bares_terminated (head : Code) :
    bares (terminated (head.map e.apply)) = bares (terminated head) := by
  cases head with
  | nil => rfl
  | cons first more =>
    have hforward := isForward_map (e := e.toRelabel) (first :: more)
    have hfunction := bare_function? (e := e) (first :: more)
    have hvariables := bares_variablesOf (e := e) (first :: more)
    rw [List.map_cons] at hforward hfunction hvariables ⊢
    simp only [terminated, Relabel.isWord, Relabel.isWordOf, hforward]
    split
    · rw [Cursor.bares_toList, Cursor.bares_toList, bare_typedef?]
    split
    · rfl
    rcases none_or_some hfunction with ⟨hother, hcursor⟩ | ⟨other, cursor, hother, hcursor, hbare⟩
    · rw [hother, hcursor]
      exact hvariables
    · rw [hother, hcursor]
      simpa using hbare

theorem readEnumeration_recast {head other : EnumHead} (h : head.IsRecast e other)
    (isTypedef : Bool) (extent : Nat) (code : Code) :
    bares (readEnumeration other isTypedef extent (code.map e.apply)).1 =
        bares (readEnumeration head isTypedef extent code).1 ∧
      (readEnumeration other isTypedef extent (code.map e.apply)).2 =
        (readEnumeration head isTypedef extent code).2.map e.apply := by
  obtain ⟨hcursor, hrest⟩ := enumeration_recast h isTypedef extent code
  refine ⟨?_, hrest⟩
  simp only [readEnumeration, Cursor.bares_cons, hcursor, Cursor.bares_nil]

theorem braced_recast (head code : Code) :
    bares (braced (head.map e.apply) (code.map e.apply)).1 = bares (braced head code).1 ∧
      (braced (head.map e.apply) (code.map e.apply)).2 = (braced head code).2.map e.apply := by
  have hfunction := bare_function? (e := e) head
  simp only [braced, isWord_head?_map, any_token_map, withoutInitializer_map, afterBraces_map,
    afterStatement_map, findWord?_map, Code.start_map, isTransparent_map]
  split
  · rw [Cursor.bares_toList, Cursor.bares_toList, bare_variableOf?]
    exact ⟨rfl, rfl⟩
  cases findWord? enumMacros head with
  | some found => exact readEnumeration_recast (EnumHead.isRecast_ofMacro ..) ..
  | none =>
    dsimp only [Option.map_none]
    rcases none_or_some hfunction with ⟨hother, hcursor⟩ | ⟨other, cursor, hother, hcursor, hbare⟩
    · rw [hother, hcursor]
      cases findWord? ["enum"] head with
      | some found => exact readEnumeration_recast (EnumHead.isRecast_ofKeyword ..) ..
      | none =>
        cases findWord? recordWords head with
        | some found => simp [readRecord]
        | none =>
          refine ⟨rfl, ?_⟩
          dsimp only [Option.map_none]
          split <;> rfl
    · rw [hother, hcursor]
      simpa using hbare

/-- The head of the plain declaration at the start of the code, unless it is interrupted. -/
def plainHead? (code : Code) : Option Code :=
  match (spanHead code).2 with
  | t :: _ => if t.token = .semicolon ∨ t.token = .openBrace then some (spanHead code).1 else none
  | [] => none

theorem readPlain_recast (code : Code) (h : ∀ head ∈ plainHead? code, KeepsMarks e head) :
    bares (readPlain (code.map e.apply)).1 = bares (readPlain code).1 ∧
      (readPlain (code.map e.apply)).2 = (readPlain code).2.map e.apply := by
  unfold plainHead? at h
  unfold readPlain
  rw [spanHead_map]
  cases hrest : (spanHead code).2 with
  | nil => exact ⟨rfl, rfl⟩
  | cons t rest =>
    simp only [hrest, Option.mem_def] at h
    simp only [List.map_cons, Relabel.token, List.isEmpty_map]
    have hkept : t.token = .semicolon ∨ t.token = .openBrace →
        restart ((spanHead code).1.map e.apply) = (restart (spanHead code).1).map e.apply := by
      intro ht
      exact (restart_map_iff _).2 (h _ (if_pos ht))
    split
    · next ht =>
      rw [hkept (.inl ht)]
      exact ⟨bares_terminated _, rfl⟩
    · next ht =>
      rw [hkept (.inr ht)]
      exact braced_recast _ rest
    · refine ⟨rfl, ?_⟩
      split <;> rfl

/-! ## Members -/

/-- What of a selector's part is no text in parentheses. -/
def SelectorPart.bare (part : SelectorPart) : Option String × Nat := (part.keyword, part.start)

theorem SelectorPart.bare_read (keyword : Option String) (start : Nat) (code : Code) :
    (SelectorPart.read keyword start code).1.bare = (keyword, start) := by
  unfold SelectorPart.read
  dsimp only
  split
  · split <;> rfl
  · rfl

theorem selectorParts_recast (code : Code) :
    (selectorParts (code.map e.apply)).1.map SelectorPart.bare =
        (selectorParts code).1.map SelectorPart.bare ∧
      (selectorParts (code.map e.apply)).2 = (selectorParts code).2.map e.apply := by
  fun_induction selectorParts code with
  | case1 t rest ht part more ih =>
    obtain ⟨hparts, hrest⟩ := ih
    rw [List.map_cons, selectorParts, Relabel.token, if_pos ht]
    dsimp only
    rw [Recast.start, SelectorPart.read_map, List.map_cons, List.map_cons, SelectorPart.bare_read,
      SelectorPart.bare_read, hparts]
    exact ⟨rfl, hrest⟩
  | case2 t rest ht hword part more ih =>
    obtain ⟨hparts, hrest⟩ := ih
    rw [List.map_cons, selectorParts, Relabel.token, if_neg ht, Code.nextIs_map, if_pos hword]
    dsimp only
    rw [Recast.start, Relabel.word, ← List.map_tail, SelectorPart.read_map, List.map_cons,
      List.map_cons, SelectorPart.bare_read, SelectorPart.bare_read, hparts]
    exact ⟨rfl, hrest⟩
  | case3 t rest ht hword =>
    rw [List.map_cons, selectorParts]
    simp [ht, hword]
  | case4 => simp [selectorParts]

/-- Selectors are spelled by the keywords of their parts. -/
theorem spelling_congr {parts others : List SelectorPart}
    (h : others.map SelectorPart.bare = parts.map SelectorPart.bare) :
    String.join (others.map SelectorPart.spelling) = String.join (parts.map SelectorPart.spelling) := by
  have hspelling : SelectorPart.spelling = (fun bare => bare.1.getD "" ++ ":") ∘ SelectorPart.bare :=
    rfl
  rw [hspelling, ← List.map_map, ← List.map_map, h]

theorem readSelector_recast (code : Code) :
    (readSelector (code.map e.apply)).1.map (fun selector => (selector.spelling, selector.start)) =
        (readSelector code).1.map (fun selector => (selector.spelling, selector.start)) ∧
      (readSelector (code.map e.apply)).2 = (readSelector code).2.map e.apply := by
  obtain ⟨hparts, hrest⟩ := selectorParts_recast (e := e) code
  have hspelling := spelling_congr hparts
  unfold readSelector
  dsimp only
  rw [hrest]
  cases hfound : (selectorParts code).1 with
  | nil =>
    rw [hfound, List.map_nil, List.map_eq_nil_iff] at hparts
    rw [hparts]
    cases (selectorParts code).2 with
    | nil => exact ⟨rfl, rfl⟩
    | cons t rest =>
      simp only [List.map_cons, Relabel.token]
      split
      · simp
      · exact ⟨rfl, rfl⟩
  | cons first more =>
    rw [hfound] at hparts hspelling
    obtain ⟨other, others, hothers, hfirst, -⟩ := List.map_eq_cons_iff.1 hparts
    rw [hothers] at hspelling ⊢
    refine ⟨?_, rfl⟩
    simp only [Option.map_some, hspelling]
    exact congrArg (fun start => some (_, start)) (congrArg Prod.snd hfirst)

theorem readMethod_recast (sign : CodeToken) (code : Code) :
    (readMethod (e.apply sign) (code.map e.apply)).1.map Cursor.bare =
        (readMethod sign code).1.map Cursor.bare ∧
      (readMethod (e.apply sign) (code.map e.apply)).2 = (readMethod sign code).2.map e.apply := by
  obtain ⟨hselector, hrest⟩ := readSelector_recast (e := e) (readType code).2
  simp only [readMethod, readType_map, hrest, readVariadic_map, afterMethod_map, Relabel.token,
    Recast.start, and_true]
  cases hfound : (readSelector (readType code).2).1 with
  | none =>
    rw [hfound, Option.map_none, Option.map_eq_none_iff] at hselector
    rw [hselector]
  | some selector =>
    rw [hfound, Option.map_some] at hselector
    obtain ⟨other, hother, heq⟩ := Option.map_eq_some_iff.1 hselector
    obtain ⟨hspelling, hstart⟩ := Prod.mk.inj heq
    rw [hother]
    simp [Except.map, Cursor.bare_eq_iff, hspelling, hstart]

theorem readProperty_recast (keyword : CodeToken) (code : Code) :
    (readProperty (e.apply keyword) (code.map e.apply)).1.map Cursor.bare =
        (readProperty keyword code).1.map Cursor.bare ∧
      (readProperty (e.apply keyword) (code.map e.apply)).2 =
        (readProperty keyword code).2.map e.apply := by
  simp only [readProperty, readAttributes_map, spanTop_map, dropSemicolon_map,
    Declarator.find?_map, and_true]
  cases Declarator.find? (spanTop .arguments endsProperty 0 (readAttributes code).2).1 with
  | none => rfl
  | some declarator => simp [Except.map, Cursor.bare_eq_iff, Declarator.relabel]

/-! ## Heads of containers -/

@[simp] theorem macroDefinition?_apply (directive : CodeToken) :
    macroDefinition? (e.apply directive) = macroDefinition? directive := by
  simp [macroDefinition?]

@[simp] theorem readCategory_map (owner : CodeToken) (code : Code) :
    readCategory (e.apply owner) (code.map e.apply) =
      ((readCategory owner code).1, (readCategory owner code).2.map e.apply) := by
  rw [readCategory, readCategory, Code.nextIs_map]
  split
  · refine Prod.ext ?_ ?_
    · match code with
      | [] => simp
      | [_] => simp
      | p :: t :: rest => by_cases ht : t.token = .ident <;> simp [ht, Option.filter]
    · simp [← List.map_tail, List.dropWhile_map, Function.comp_def]
  · rfl

@[simp] theorem readHead_map (isImplementation : Bool) (extent : Nat) (name : CodeToken)
    (code : Code) :
    readHead isImplementation extent (e.apply name) (code.map e.apply) =
      ((readHead isImplementation extent name code).1,
        (readHead isImplementation extent name code).2.map e.apply) := by
  simp [readHead]

/-! ## Containers and sources -/

/-- The heads of the plain declarations among members. -/
def memberHeads (code : Code) : List Code :=
  match code with
  | [] => []
  | t :: rest =>
    match t.token with
    | .atKeyword =>
      if t.word = "@end" then []
      else if t.word = "@property" then memberHeads (readProperty t rest).2
      else if t.word ∈ ["@interface", "@implementation", "@protocol"] then []
      else if t.word ∈ ["@synthesize", "@dynamic", "@class", "@import"] then
        memberHeads (afterStatement rest)
      else memberHeads rest
    | .minus | .plus => memberHeads (readMethod t rest).2
    | .openBrace => memberHeads (afterBraces rest)
    | .directive | .semicolon | .closeBrace => memberHeads rest
    | _ => (plainHead? (t :: rest)).toList ++ memberHeads (readPlain (t :: rest)).2
termination_by code.length
decreasing_by
  · have := (readProperty_suffix t rest).length_le
    simp only [List.length_cons]
    omega
  · have := (afterStatement_suffix rest).length_le
    simp only [List.length_cons]
    omega
  · simp
  · have := (readMethod_suffix t rest).length_le
    simp only [List.length_cons]
    omega
  · have := Bracket.length_skip_le .brace 1 rest
    simp only [List.length_cons, afterBraces]
    omega
  · simp
  · exact readPlain_length (List.cons_ne_nil t rest)

section Turns

variable {t : CodeToken}

theorem memberHeads_property (ht : t.token = .atKeyword) (hword : t.word = "@property")
    (rest : Code) : memberHeads (t :: rest) = memberHeads (readProperty t rest).2 := by
  rw [memberHeads, ht]
  dsimp only
  rw [hword, if_neg (by decide), if_pos rfl]

theorem memberHeads_statement (ht : t.token = .atKeyword)
    (hword : t.word ∈ ["@synthesize", "@dynamic", "@class", "@import"]) (rest : Code) :
    memberHeads (t :: rest) = memberHeads (afterStatement rest) := by
  obtain ⟨hend, hproperty, hopens⟩ := statement_apart hword
  rw [memberHeads, ht]
  dsimp only
  rw [if_neg hend, if_neg hproperty, if_neg hopens, if_pos hword]

theorem memberHeads_keyword (ht : t.token = .atKeyword) (hword : t.word ∉ memberWords)
    (rest : Code) : memberHeads (t :: rest) = memberHeads rest := by
  obtain ⟨hend, hproperty, hopens, hstatement⟩ := notMem_memberWords hword
  rw [memberHeads, ht]
  dsimp only
  rw [if_neg hend, if_neg hproperty, if_neg hopens, if_neg hstatement]

theorem memberHeads_method (ht : t.token = .minus ∨ t.token = .plus) (rest : Code) :
    memberHeads (t :: rest) = memberHeads (readMethod t rest).2 := by
  rcases ht with ht | ht <;> rw [memberHeads, ht]

theorem memberHeads_braces (ht : t.token = .openBrace) (rest : Code) :
    memberHeads (t :: rest) = memberHeads (afterBraces rest) := by
  rw [memberHeads, ht]

theorem memberHeads_directive (ht : t.token = .directive) (rest : Code) :
    memberHeads (t :: rest) = memberHeads rest := by
  rw [memberHeads, ht]

theorem memberHeads_separator (ht : t.token = .semicolon ∨ t.token = .closeBrace) (rest : Code) :
    memberHeads (t :: rest) = memberHeads rest := by
  rcases ht with ht | ht <;> rw [memberHeads, ht]

theorem memberHeads_readPlain (ht : t.token ∉ memberTokens) (rest : Code) :
    memberHeads (t :: rest) =
      (plainHead? (t :: rest)).toList ++ memberHeads (readPlain (t :: rest)).2 := by
  simp only [memberTokens, List.mem_cons, List.not_mem_nil, or_false, not_or] at ht
  obtain ⟨hkeyword, hminus, hplus, hbrace, hdirective, hsemicolon, hclose⟩ := ht
  rw [memberHeads]
  split <;> first | contradiction | rfl

end Turns

/-- The heads of the plain declarations in a class or category. -/
def containerHeads (keyword : CodeToken) (code : Code) : List Code :=
  match code with
  | name :: rest =>
    if name.token = .ident then
      memberHeads (readHead (keyword.word == "@implementation") keyword.start name rest).2
    else []
  | [] => []

/-- The heads of the plain declarations in a protocol. -/
def protocolHeads (code : Code) : List Code :=
  match code with
  | name :: rest =>
    if name.token = .ident then
      if Code.nextIs rest .semicolon || Code.nextIs rest .comma then []
      else memberHeads (readNames rest).2
    else []
  | [] => []

/-- The heads of the plain declarations in what an `@`-keyword begins. -/
def atKeywordHeads (keyword : CodeToken) (code : Code) : List Code :=
  match keyword.word with
  | "@interface" | "@implementation" => containerHeads keyword code
  | "@protocol" => protocolHeads code
  | _ => []

/-- The heads of the plain declarations in a source. -/
def plainHeads (code : Code) : List Code :=
  match code with
  | [] => []
  | t :: rest =>
    match t.token with
    | .atKeyword => atKeywordHeads t rest ++ plainHeads (readAtKeyword t rest).rest
    | .directive | .semicolon | .closeBrace => plainHeads rest
    | _ => (plainHead? (t :: rest)).toList ++ plainHeads (readPlain (t :: rest)).2
termination_by code.length
decreasing_by
  · have := (readAtKeyword_suffix t rest).length_le
    simp only [List.length_cons]
    omega
  · simp
  · exact readPlain_length (List.cons_ne_nil t rest)

section Turns

variable {t : CodeToken}

theorem plainHeads_directive (ht : t.token = .directive) (rest : Code) :
    plainHeads (t :: rest) = plainHeads rest := by
  rw [plainHeads, ht]

theorem plainHeads_atKeyword (ht : t.token = .atKeyword) (rest : Code) :
    plainHeads (t :: rest) = atKeywordHeads t rest ++ plainHeads (readAtKeyword t rest).rest := by
  rw [plainHeads, ht]

theorem plainHeads_separator (ht : t.token = .semicolon ∨ t.token = .closeBrace) (rest : Code) :
    plainHeads (t :: rest) = plainHeads rest := by
  rcases ht with ht | ht <;> rw [plainHeads, ht]

theorem plainHeads_readPlain
    (ht : t.token ∉ [Token.directive, .atKeyword, .semicolon, .closeBrace]) (rest : Code) :
    plainHeads (t :: rest) =
      (plainHead? (t :: rest)).toList ++ plainHeads (readPlain (t :: rest)).2 := by
  simp only [List.mem_cons, List.not_mem_nil, or_false, not_or] at ht
  obtain ⟨hdirective, hkeyword, hsemicolon, hclose⟩ := ht
  rw [plainHeads]
  split <;> first | contradiction | rfl

end Turns

/-- What is scanned in recast code. -/
structure Scanned.IsRecast (e : Recast) (scanned other : Scanned) : Prop where
  cursors : bares other.cursors = bares scanned.cursors
  remarks : other.remarks = scanned.remarks
  rest : other.rest = scanned.rest.map e.apply

namespace Scanned.IsRecast

variable {scanned other : Scanned}

theorem prepend (h : scanned.IsRecast e other) {cursors others : List Cursor}
    (hcursors : bares others = bares cursors) :
    (scanned.prepend cursors).IsRecast e (other.prepend others) where
  cursors := by
    simp only [Scanned.prepend, Cursor.bares_append, hcursors, h.cursors]
  remarks := h.remarks
  rest := h.rest

theorem prependMember (h : scanned.IsRecast e other) (start : Nat)
    {member changed : Except Fault Cursor}
    (hmember : changed.map Cursor.bare = member.map Cursor.bare) :
    (scanned.prependMember start member).IsRecast e (other.prependMember start changed) := by
  cases member with
  | ok cursor =>
    cases changed with
    | error fault => cases hmember
    | ok otherCursor =>
      have hbare : otherCursor.bare = cursor.bare := Except.ok.inj hmember
      exact h.prepend (by simpa using hbare)
  | error fault =>
    cases changed with
    | ok otherCursor => cases hmember
    | error otherFault =>
      obtain rfl : otherFault = fault := Except.error.inj hmember
      exact ⟨h.cursors, congrArg (List.cons (Remark.mk start otherFault)) h.remarks, h.rest⟩

theorem withMembers (h : scanned.IsRecast e other) (cursor : Cursor) :
    (withMembers cursor scanned).IsRecast e (withMembers cursor other) where
  cursors := by
    simp [Declaration.withMembers, Cursor.bare_eq_iff, h.cursors]
  remarks := h.remarks
  rest := h.rest

end Scanned.IsRecast

theorem readMembers_recast (opener : Nat) (code : Code)
    (h : ∀ head ∈ memberHeads code, KeepsMarks e head) :
    (readMembers opener code).IsRecast e (readMembers opener (code.map e.apply)) := by
  induction code using readMembers_induction with
  | nil =>
    rw [List.map_nil, readMembers_nil]
    exact ⟨rfl, rfl, rfl⟩
  | close t rest ht hword =>
    rw [List.map_cons, readMembers_end ht hword,
      readMembers_end (by rwa [e.token]) (by rwa [e.word])]
    exact ⟨rfl, rfl, rfl⟩
  | property t rest ht hword ih =>
    obtain ⟨hmember, hrest⟩ := readProperty_recast (e := e) t rest
    rw [memberHeads_property ht hword] at h
    rw [List.map_cons, readMembers_property ht hword,
      readMembers_property (by rwa [e.token]) (by rwa [e.word]), hrest, Recast.start]
    exact (ih h).prependMember t.start hmember
  | opens t rest ht hword =>
    rw [List.map_cons, readMembers_opens ht hword,
      readMembers_opens (by rwa [e.token]) (by rwa [e.word])]
    exact ⟨rfl, rfl, rfl⟩
  | statement t rest ht hword ih =>
    rw [memberHeads_statement ht hword] at h
    rw [List.map_cons, readMembers_statement ht hword,
      readMembers_statement (by rwa [e.token]) (by rwa [e.word]), afterStatement_map]
    exact ih h
  | keyword t rest ht hword ih =>
    rw [memberHeads_keyword ht hword] at h
    rw [List.map_cons, readMembers_keyword ht hword,
      readMembers_keyword (by rwa [e.token]) (by rwa [e.word])]
    exact ih h
  | method t rest ht ih =>
    obtain ⟨hmember, hrest⟩ := readMethod_recast (e := e) t rest
    rw [memberHeads_method ht] at h
    rw [List.map_cons, readMembers_method ht, readMembers_method (by rwa [e.token]), hrest,
      Recast.start]
    exact (ih h).prependMember t.start hmember
  | braces t rest ht ih =>
    rw [memberHeads_braces ht] at h
    rw [List.map_cons, readMembers_braces ht, readMembers_braces (by rwa [e.token]), afterBraces_map]
    exact ih h
  | directive t rest ht ih =>
    rw [memberHeads_directive ht] at h
    rw [List.map_cons, readMembers_directive ht, readMembers_directive (by rwa [e.token]),
      macroDefinition?_apply]
    exact (ih h).prepend rfl
  | separator t rest ht ih =>
    rw [memberHeads_separator ht] at h
    rw [List.map_cons, readMembers_separator ht, readMembers_separator (by rwa [e.token])]
    exact ih h
  | plain t rest ht ih =>
    rw [memberHeads_readPlain ht] at h
    obtain ⟨hcursors, hrest⟩ := readPlain_recast (e := e) (t :: rest) fun head hhead =>
      h head (List.mem_append_left _ (Option.mem_toList.2 hhead))
    rw [List.map_cons] at hcursors hrest ⊢
    rw [readMembers_readPlain ht, readMembers_readPlain (by rwa [e.token]), hrest]
    exact (ih fun head hhead => h head (List.mem_append_right _ hhead)).prepend hcursors

theorem readContainer_recast (keyword : CodeToken) (code : Code)
    (h : ∀ head ∈ containerHeads keyword code, KeepsMarks e head) :
    (readContainer keyword code).IsRecast e
      (readContainer (e.apply keyword) (code.map e.apply)) := by
  cases code with
  | nil => exact ⟨rfl, by simp [readContainer], rfl⟩
  | cons name rest =>
    dsimp only [containerHeads] at h
    simp only [readContainer, List.map_cons, Relabel.token, Relabel.word, Recast.start, readHead_map]
    split
    · next hname =>
      rw [if_pos hname] at h
      exact (readMembers_recast keyword.start _ h).withMembers _
    · exact ⟨rfl, rfl, rfl⟩

theorem readProtocol_recast (keyword : CodeToken) (code : Code)
    (h : ∀ head ∈ protocolHeads code, KeepsMarks e head) :
    (readProtocol keyword code).IsRecast e
      (readProtocol (e.apply keyword) (code.map e.apply)) := by
  cases code with
  | nil => exact ⟨rfl, by simp [readProtocol], rfl⟩
  | cons name rest =>
    dsimp only [protocolHeads] at h
    simp only [readProtocol, List.map_cons, Relabel.token, Relabel.word, Recast.start,
      Code.nextIs_map, readNames_map, afterStatement_map]
    split
    · next hname =>
      rw [if_pos hname] at h
      split
      · exact ⟨rfl, rfl, rfl⟩
      · next hforward =>
        rw [if_neg hforward] at h
        exact (readMembers_recast keyword.start _ h).withMembers _
    · exact ⟨rfl, rfl, rfl⟩

theorem readAtKeyword_recast (keyword : CodeToken) (code : Code)
    (h : ∀ head ∈ atKeywordHeads keyword code, KeepsMarks e head) :
    (readAtKeyword keyword code).IsRecast e
      (readAtKeyword (e.apply keyword) (code.map e.apply)) := by
  unfold atKeywordHeads at h
  unfold readAtKeyword
  rw [Relabel.word]
  split
  · next hword =>
    rw [hword] at h
    exact readContainer_recast keyword code h
  · next hword =>
    rw [hword] at h
    exact readContainer_recast keyword code h
  · next hword =>
    rw [hword] at h
    exact readProtocol_recast keyword code h
  · exact ⟨rfl, rfl, afterStatement_map code⟩
  · exact ⟨rfl, rfl, afterStatement_map code⟩
  · exact ⟨rfl, rfl, afterStatement_map code⟩
  · exact ⟨rfl, by rw [Recast.start], rfl⟩
  · exact ⟨rfl, rfl, rfl⟩

/-- A recast that keeps the marks where declarations can be restarted changes details only. -/
theorem scan_recast (code : Code) (h : ∀ head ∈ plainHeads code, KeepsMarks e head) :
    bares (scan (code.map e.apply)).cursors = bares (scan code).cursors ∧
      (scan (code.map e.apply)).remarks = (scan code).remarks := by
  induction code using scan_induction with
  | nil => exact ⟨rfl, rfl⟩
  | directive t rest ht ih =>
    rw [plainHeads_directive ht] at h
    obtain ⟨hcursors, hremarks⟩ := ih h
    rw [List.map_cons, scan_directive ht, scan_directive (by rwa [e.token]), macroDefinition?_apply]
    simp only [Outcome.after, Cursor.bares_append, hcursors, hremarks, and_self]
  | atKeyword t rest ht ih =>
    rw [plainHeads_atKeyword ht] at h
    have hread := readAtKeyword_recast (e := e) t rest fun head hhead =>
      h head (List.mem_append_left _ hhead)
    obtain ⟨hcursors, hremarks⟩ := ih fun head hhead => h head (List.mem_append_right _ hhead)
    rw [List.map_cons, scan_atKeyword ht, scan_atKeyword (by rwa [e.token]), hread.rest]
    simp only [Outcome.after, Cursor.bares_append, hread.cursors, hread.remarks, hcursors, hremarks,
      and_self]
  | separator t rest ht ih =>
    rw [plainHeads_separator ht] at h
    rw [List.map_cons, scan_separator ht, scan_separator (by rwa [e.token])]
    exact ih h
  | plain t rest ht ih =>
    rw [plainHeads_readPlain ht] at h
    obtain ⟨hplain, hrest⟩ := readPlain_recast (e := e) (t :: rest) fun head hhead =>
      h head (List.mem_append_left _ (Option.mem_toList.2 hhead))
    obtain ⟨hcursors, hremarks⟩ := ih fun head hhead => h head (List.mem_append_right _ hhead)
    rw [List.map_cons] at hplain hrest ⊢
    rw [scan_readPlain ht, scan_readPlain (by rwa [e.token]), hrest]
    simp only [Outcome.after, Cursor.bares_append, hplain, hcursors, hremarks, and_self]

end DeclDoc.Declaration
