import DeclDoc.Proofs.Recognition

/-!
# Variables and their declarators

A declaration of variables has one declarator for each of them, with an initializer perhaps. It is
read as these variables where its head ends with its semicolon and is not taken for that of a function
(`terminated_variables`). A brace outside of parentheses and square brackets ends the head before the
semicolon, and then there is at most one variable, and no heed is taken of what is behind the brace
(`scan_braced`). So a declaration is read as its variables iff none of its initializers has such a brace
and it is not taken for a function, or it has one declarator only and a brace
(`scan_variables`).
-/

set_option autoImplicit false

namespace DeclDoc.Declaration

/-! ## Declarators as they are written -/

/-- What ends or interrupts a statement, and the comma between declarators. -/
def initializerStops : List Token := [.comma, .semicolon, .atKeyword, .directive]

/-- What ends or interrupts a head, but a closing brace. -/
def headStops : List Token := [.semicolon, .openBrace, .atKeyword, .directive]

/-- Stars, a name, any number of groups in square brackets, and an initializer perhaps. Nothing is
assigned and no name is wrapped in the groups. -/
structure WrittenVariable where
  stars : Code
  name : CodeToken
  groups : Code
  initializer : Option (CodeToken × Code)
  isStars : ∀ t ∈ stars, t.token = .star
  isName : IsIdentifier name
  isGroups : IsNested (· = .openBracket) groups
  notAssigned : ∀ t ∈ groups, t.token ≠ .equals
  notWrapped : Declarator.findWrapped? groups = none
  isInitializer : ∀ value ∈ initializer,
    value.1.token = .equals ∧ IsNestedWithout initializerStops value.2

namespace WrittenVariable

/-- The declarator up to its initializer. -/
def front (declared : WrittenVariable) : Code := declared.stars ++ declared.name :: declared.groups

def code (declared : WrittenVariable) : Code :=
  declared.front ++ (declared.initializer.map fun value => value.1 :: value.2).getD []

/-- All braces of the initializer are inside of parentheses or square brackets. -/
def IsBraceless (declared : WrittenVariable) : Prop :=
  ∀ value ∈ declared.initializer, IsNestedWithout (.openBrace :: initializerStops) value.2

end WrittenVariable

/-- Declarators with a comma between each two. -/
def IsVariableList (list : List WrittenVariable) (code : Code) : Prop :=
  IsListed WrittenVariable.code list code

/-- Plain words. -/
structure IsWords (code : Code) : Prop where
  nonempty : code ≠ []
  words : ∀ t ∈ code, IsIdentifier t

/-- The code up to its first parenthesis, square bracket or equals sign. -/
def upToMark (code : Code) : Code :=
  code.takeWhile fun t => t.token != .openParen && t.token != .openBracket && t.token != .equals

variable {t semicolon brace close : CodeToken} {code type front inside rest : Code}
  {tokens : List Token} {list : List WrittenVariable}

/-! ## Heads -/

theorem lastRestart?_of_upToMark (h : ∀ u ∈ upToMark code, u.afterComment = false) :
    lastRestart? code = none := by
  induction code with
  | nil => rfl
  | cons u more ih =>
    rw [lastRestart?]
    split
    · rfl
    · next hmark =>
      have hpass : upToMark (u :: more) = u :: upToMark more := by
        rw [upToMark, List.takeWhile_cons_of_pos]
        · rfl
        · simpa [not_or, and_assoc] using hmark
      rw [hpass] at h
      obtain ⟨hu, hmore⟩ := List.forall_mem_cons.1 h
      rw [ih hmore, hu]
      rfl

theorem IsWords.head (h : IsWords type) : ∃ t more, type = t :: more ∧ IsIdentifier t := by
  obtain ⟨t, more, rfl⟩ := List.exists_cons_of_ne_nil h.nonempty
  exact ⟨t, more, rfl, h.words t List.mem_cons_self⟩

theorem IsWords.forall_token (h : IsWords type) {P : Token → Prop} (hident : P .ident) :
    ∀ u ∈ type, P u.token := fun u hu => (h.words u hu).token ▸ hident

theorem IsWords.isNested (h : IsWords type) (hident : .ident ∉ tokens) :
    IsNestedWithout tokens type :=
  .of_flat <| h.forall_token (P := fun token => IsNoBracket token ∧ token ∉ tokens)
    ⟨by decide, hident⟩

theorem kind_of_function? {cursor : Cursor} (h : function? code = some cursor) :
    cursor.kind = .function := by
  unfold function? at h
  split at h
  · dsimp only at h
    split at h
    · obtain ⟨group, -, rfl⟩ := Option.map_eq_some_iff.1 h
      rfl
    · cases h
  · cases h

theorem dropStorage_of_words (h : IsWords type) (rest : Code) :
    dropStorage (type ++ rest) = type ++ rest := by
  obtain ⟨t, more, rfl, ht⟩ := h.head
  rw [List.cons_append]
  unfold dropStorage
  simp only [ht.notStorage, ht.notAttribute, Bool.false_eq_true, if_false]

theorem mem_upToMark_append (h : t ∈ upToMark front) (code : Code) :
    t ∈ upToMark (front ++ code) := by
  rw [upToMark, List.takeWhile_append]
  split
  · exact List.mem_append_left _ (List.takeWhile_subset _ h)
  · exact h

/-- A head that begins with plain words restarts nowhere where no comment stands in it before its
first mark. -/
theorem restart_words (htype : IsWords type) (front : Code) {back : Code}
    (hhead : IsUninterrupted (upToMark (type ++ (front ++ back)))) :
    restart (type ++ front) = type ++ front := by
  obtain ⟨t, more, rfl, ht⟩ := htype.head
  have hpass (code : Code) : upToMark (t :: code) = t :: upToMark code := by
    rw [upToMark, List.takeWhile_cons_of_pos (by rw [ht.token]; rfl)]
    rfl
  rw [List.cons_append, hpass, ← List.append_assoc] at hhead
  have hnone : lastRestart? (more ++ front) = none :=
    lastRestart?_of_upToMark fun u hu => hhead u (mem_upToMark_append hu back)
  rw [restart, List.cons_append, List.tail_cons, hnone]
  rfl

/-! ## One declarator -/

/-- The search for a name goes past groups in square brackets. -/
theorem Declarator.findLast?_groups (h : IsNested (· = .openBracket) code) (after reversed : Code) :
    Declarator.findLast? 0 after (code.reverse ++ reversed) =
      Declarator.findLast? 0 (code ++ after) reversed := by
  generalize houtside : (fun token : Token => token = .openBracket) = outside at h
  induction h generalizing after reversed with
  | nil => rfl
  | token hplain hout _ _ =>
    subst houtside
    rw [hout] at hplain
    exact absurd hplain (by decide)
  | @group outside bracket p q inside code hp hout hinside hq _ _ ih =>
    subst houtside
    obtain rfl : bracket = .square := by
      cases bracket with
      | square => rfl
      | paren | brace => rw [hp] at hout; cases hout
    have hgroup : (p :: inside ++ q :: code).reverse ++ reversed =
        code.reverse ++ (q :: (inside.reverse ++ p :: reversed)) := by simp
    have hclose : ¬(0 = 0 ∧ Declarator.isName q (code ++ after) = true) := by
      rw [Declarator.isName, hq]
      simp [Bracket.closing]
    have hopen : ¬(0 + 1 = 0 ∧ Declarator.isName p (inside ++ q :: (code ++ after)) = true) :=
      fun h => absurd h.1 (Nat.succ_ne_zero 0)
    rw [hgroup, ih _ _ rfl, Declarator.findLast?, if_neg hclose, hq]
    dsimp only [Bracket.closing]
    rw [Declarator.findLast?_append_of_nested hinside Nat.one_pos, Declarator.findLast?, if_neg hopen,
      hp]
    simp [Bracket.opening]

theorem IsNested.nextIs_of_groups (h : IsNested (· = .openBracket) code) :
    Code.nextIs code .openParen = false := by
  cases h with
  | nil => rfl
  | token hplain hout _ =>
    rw [nextIs_cons, hout]
    rfl
  | group _ hout _ _ _ =>
    rw [List.cons_append, nextIs_cons, hout]
    rfl

namespace WrittenVariable

variable (declared : WrittenVariable)

/-- The declarator that a variable is, behind anything without parentheses. -/
theorem find?_front (h : ∀ u ∈ code, u.token ≠ .openParen) :
    Declarator.find? (code ++ declared.front) =
      some ⟨code ++ declared.stars, declared.name, declared.groups⟩ := by
  have hstars : ∀ u ∈ declared.stars ++ [declared.name], u.token ≠ .openParen := by
    refine List.forall_mem_append.2 ⟨fun u hu => by rw [declared.isStars u hu]; decide, ?_⟩
    simp [declared.isName.token]
  have hsplit : code ++ declared.front =
      (code ++ (declared.stars ++ [declared.name])) ++ declared.groups := by simp [front]
  have hunwrapped : Declarator.findWrapped? (code ++ declared.front) = none := by
    rw [hsplit, Declarator.findWrapped?_skip (List.forall_mem_append.2 ⟨h, hstars⟩),
      declared.notWrapped]
    rfl
  have hreverse : (code ++ declared.front).reverse =
      declared.groups.reverse ++ (declared.name :: (code ++ declared.stars).reverse) := by
    simp [front]
  have hisName : Declarator.isName declared.name declared.groups = true := by
    rw [Declarator.isName, declared.isName.token, declared.isName.notAttribute,
      declared.isName.notReserved, declared.isGroups.nextIs_of_groups]
    rfl
  rw [Declarator.find?, hunwrapped, Option.none_or, hreverse,
    Declarator.findLast?_groups declared.isGroups, List.append_nil, Declarator.findLast?,
    if_pos ⟨rfl, hisName⟩, List.reverse_reverse]

/-- What stands before the initializer is the declaration without it. -/
theorem withoutInitializer_code (h : ∀ u ∈ code, u.token ≠ .equals) :
    withoutInitializer (code ++ declared.code) = code ++ declared.front := by
  have hfront : ∀ u ∈ code ++ declared.front, (u.token != Token.equals) = true := by
    refine List.forall_mem_append.2 ⟨fun u hu => by simpa using h u hu,
      List.forall_mem_append.2 ⟨fun u hu => by rw [declared.isStars u hu]; rfl,
        List.forall_mem_cons.2 ⟨by rw [declared.isName.token]; rfl,
          fun u hu => by simpa using declared.notAssigned u hu⟩⟩⟩
  have hcode : code ++ declared.code = (code ++ declared.front) ++
      (declared.initializer.map fun value => value.1 :: value.2).getD [] := by
    rw [WrittenVariable.code, List.append_assoc]
  rw [withoutInitializer, Code.before, hcode, List.takeWhile_append_of_pos hfront]
  cases hvalue : declared.initializer with
  | none => simp
  | some value =>
    have hequals := (declared.isInitializer value hvalue).1
    simp [hequals]

theorem isNested_front (htokens : ∀ token ∈ [Token.star, .ident, .openBracket], token ∉ tokens) :
    IsNestedWithout tokens declared.front := by
  have hstars : IsNestedWithout tokens declared.stars := .of_flat fun u hu => by
    rw [declared.isStars u hu]
    exact ⟨by decide, htokens _ (by simp)⟩
  have hgroups : IsNestedWithout tokens declared.groups :=
    declared.isGroups.mono fun token htoken => htoken ▸ htokens _ (by simp)
  exact hstars.append (.token (by rw [declared.isName.token]; decide)
    (by rw [declared.isName.token]; exact htokens _ (by simp)) hgroups)

/-- A declarator is nested, with no tokens outside of brackets but its own and its initializer's. -/
theorem isNested_code (htokens : ∀ token ∈ [Token.star, .ident, .openBracket, .equals],
      token ∉ tokens)
    (hvalue : ∀ value ∈ declared.initializer, IsNestedWithout tokens value.2) :
    IsNestedWithout tokens declared.code := by
  refine (declared.isNested_front fun token hmem => htokens token ?_).append ?_
  · exact List.mem_append_left [Token.equals] hmem
  cases hinitializer : declared.initializer with
  | none => exact .nil
  | some value =>
    have hequals := (declared.isInitializer value hinitializer).1
    exact .token (by rw [hequals]; decide) (by rw [hequals]; exact htokens _ (by simp))
      (hvalue value hinitializer)

theorem isNested_code_initializerStops : IsNestedWithout initializerStops declared.code :=
  declared.isNested_code (by decide) fun value hvalue => (declared.isInitializer value hvalue).2

end WrittenVariable

/-! ## Lists of declarators -/

namespace IsVariableList

theorem isNested_statement (h : IsVariableList list code) :
    IsNestedWithout [.semicolon, .atKeyword, .directive] code :=
  IsListed.isNested h (by decide) fun declared _ =>
    declared.isNested_code_initializerStops.mono fun token hout hmem =>
      hout (List.mem_cons_of_mem _ hmem)

/-- The code is cut into its declarators, the first of them behind what stands before the list. -/
theorem splitCommas_eq (h : IsVariableList list code) (hfront : IsNestedWithout [.comma] front) :
    ∃ first more, list = first :: more ∧
      splitCommas .initializers (front ++ code) =
        (front ++ first.code) :: more.map WrittenVariable.code := by
  have hpass : Nesting.initializers.PassesOver (· == .comma) (· ∉ [Token.comma]) :=
    ⟨fun token hout => by simpa using hout, fun bracket _ => by cases bracket <;> rfl⟩
  have hplain (declared : WrittenVariable) : IsNestedWithout [.comma] declared.code :=
    declared.isNested_code_initializerStops.mono fun token hout hmem => hout <| by
      rw [List.mem_singleton.1 hmem]
      exact List.mem_cons_self
  have hone (declared : WrittenVariable) :
      splitCommas .initializers declared.code = [declared.code] :=
    splitCommas_of_nested (.inr rfl) (hplain declared) hpass
  cases h with
  | one declared =>
    exact ⟨declared, [], rfl,
      splitCommas_of_nested (.inr rfl) (hfront.append (hplain declared)) hpass⟩
  | @more declared comma more code hcomma hmore =>
    have hpieces := IsListed.splitCommas_eq (.inr rfl) hmore (fun other _ => hplain other) hpass.counts
    refine ⟨declared, more, rfl, ?_⟩
    rw [← List.append_assoc, splitCommas_comma (.inr rfl) (hfront.append (hplain declared)) hpass
      hcomma, hpieces]
    simp only [hone, List.map_eq_flatMap]

end IsVariableList

/-! ## Declarations without braces -/

/-- The first declarator is read behind the type. -/
theorem WrittenVariable.variableDeclarator?_code (declared : WrittenVariable) (htype : IsWords type) :
    variableDeclarator? (withoutInitializer (type ++ declared.code)) =
      some ⟨type ++ declared.stars, declared.name, declared.groups⟩ := by
  have hparen := htype.forall_token (P := (· ≠ .openParen)) (by decide)
  have hequals := htype.forall_token (P := (· ≠ .equals)) (by decide)
  obtain ⟨t, others, hcode, -⟩ := htype.head
  rw [declared.withoutInitializer_code hequals, variableDeclarator?, declared.find?_front hparen,
    Option.filter_some, Declarator.typeTokens, dropStorage_of_words htype, hcode]
  rfl

/-- Any other declarator is read on its own. -/
theorem WrittenVariable.laterVariable?_code (declared : WrittenVariable) (shared : String) :
    ∃ cursor, laterVariable? shared declared.code = some cursor ∧ cursor.kind = .variable ∧
      cursor.spelling = declared.name.word := by
  have hcut := @WrittenVariable.withoutInitializer_code [] declared nofun
  have hfind := @WrittenVariable.find?_front [] declared nofun
  rw [List.nil_append, List.nil_append] at hcut hfind
  rw [laterVariable?, hcut, hfind]
  exact ⟨_, rfl, rfl, rfl⟩

theorem laterVariables_list (shared : String) (list : List WrittenVariable) :
    (∀ cursor ∈ (list.map WrittenVariable.code).filterMap (laterVariable? shared),
      cursor.kind = .variable) ∧
    ((list.map WrittenVariable.code).filterMap (laterVariable? shared)).map Cursor.spelling =
      list.map (·.name.word) := by
  induction list with
  | nil => exact ⟨nofun, rfl⟩
  | cons declared more ih =>
    obtain ⟨cursor, hcursor, hkind, hspelling⟩ := declared.laterVariable?_code shared
    rw [List.map_cons, List.filterMap_cons, hcursor]
    refine ⟨List.forall_mem_cons.2 ⟨hkind, ih.1⟩, ?_⟩
    rw [List.map_cons, ih.2, hspelling]
    rfl

/-- The variables of a head, one for each declarator. -/
theorem variablesOf_list (htype : IsWords type) (h : IsVariableList list code) :
    (∀ cursor ∈ variablesOf (type ++ code), cursor.kind = .variable) ∧
      (variablesOf (type ++ code)).map Cursor.spelling = list.map (·.name.word) := by
  obtain ⟨first, more, rfl, hsplit⟩ := h.splitCommas_eq (htype.isNested (by decide))
  have hvariables : variablesOf (type ++ code) =
      Declarator.toVariable ⟨type ++ first.stars, first.name, first.groups⟩ (type ++ first.code).start
          (Declarator.mk (type ++ first.stars) first.name first.groups).typeName ::
        (more.map WrittenVariable.code).filterMap
          (laterVariable? (sharedType ⟨type ++ first.stars, first.name, first.groups⟩)) := by
    simp only [variablesOf, hsplit, first.variableDeclarator?_code htype]
  obtain ⟨hkinds, hspellings⟩ :=
    laterVariables_list (sharedType ⟨type ++ first.stars, first.name, first.groups⟩) more
  rw [hvariables]
  refine ⟨List.forall_mem_cons.2 ⟨rfl, hkinds⟩, ?_⟩
  rw [List.map_cons, hspellings]
  rfl

/-- A head of variables that ends with a semicolon declares them, unless it is taken for the head of a
function. -/
theorem terminated_variables (htype : IsWords type) (code : Code) :
    terminated (type ++ code) =
      match function? (type ++ code) with
      | some cursor => [cursor]
      | none => variablesOf (type ++ code) := by
  obtain ⟨t, more, rfl, ht⟩ := htype.head
  have hforward : isForward (t :: (more ++ code)) = false := by
    have hrecord : t.isWordOf ("enum" :: recordWords) = false :=
      isWordOf_mono ht.notReserved (by decide)
    rw [isForward, List.head?_cons, Option.any_some, hrecord, Bool.and_false]
  have htypedef : ¬t.isWord "typedef" = true := by simp [ht.not_starts.1]
  have hother : ¬(isForward (t :: (more ++ code)) = true ∨ t.isWordOf statementWords = true) := by
    simp [hforward, ht.not_starts.2]
  rw [List.cons_append]
  unfold terminated
  dsimp only
  rw [if_neg htypedef]
  exact if_neg hother

/-- The head reaches to the first token at which it may end. -/
theorem spanHead_nested (h : IsNestedWithout headStops code) (ht : endsHead t.token = true)
    (rest : Code) : spanHead (code ++ t :: rest) = (code, t :: rest) := by
  have hpass : Nesting.arguments.PassesOver endsHead
      fun token => token ∉ headStops ∧ ∀ bracket : Bracket, token ≠ bracket.closing := by
    refine ⟨fun token hout => ?_, fun bracket hout => arguments_counts (by decide) bracket hout.1⟩
    obtain ⟨hstops, hclosing⟩ := hout
    cases token <;> first | rfl | exact absurd (by decide) hstops | exact absurd rfl (hclosing .brace)
  rw [spanHead, spanTop_append_of_nested (.inl rfl) h.not_closing (fun _ => hpass), spanTop_stop ht,
    List.append_nil]

/-- Where no brace stands outside of parentheses and square brackets, the head reaches to the
semicolon. -/
theorem scan_braceless (htype : IsWords type) (h : IsVariableList list code)
    (hhead : IsUninterrupted (upToMark (type ++ code))) (hsemicolon : semicolon.token = .semicolon)
    (hbraces : ∀ declared ∈ list, declared.IsBraceless) (rest : Code) :
    scan (type ++ (code ++ semicolon :: rest)) =
      (scan rest).after (terminated (type ++ code)) [] := by
  have hnested : IsNestedWithout headStops (type ++ code) := by
    refine (htype.isNested (by decide)).append (IsListed.isNested h (by decide) fun declared hmem => ?_)
    refine declared.isNested_code (by decide) fun value hvalue => ?_
    exact (hbraces declared hmem value hvalue).mono fun token hout hstop => hout <| by
      cases token <;> first | decide | exact absurd hstop (by decide)
  have hspan := spanHead_nested hnested (by rw [hsemicolon]; rfl : endsHead semicolon.token = true)
    rest
  have hrestart : restart (type ++ code) = type ++ code :=
    @restart_words type htype code [] (by rwa [List.append_nil])
  have hplain : readPlain (type ++ (code ++ semicolon :: rest)) =
      (terminated (type ++ code), rest) := by
    rw [← List.append_assoc]
    unfold readPlain
    dsimp only
    rw [hspan]
    dsimp only
    rw [hsemicolon]
    dsimp only
    rw [hrestart]
  obtain ⟨t, more, rfl, ht⟩ := htype.head
  rw [List.cons_append] at hplain ⊢
  rw [scan_plain ht.token, hplain]

/-- A declaration without such braces is read as its variables where it declares no function. -/
theorem scan_list (htype : IsWords type) (h : IsVariableList list code)
    (hhead : IsUninterrupted (upToMark (type ++ code))) (hsemicolon : semicolon.token = .semicolon)
    (hbraces : ∀ declared ∈ list, declared.IsBraceless) (hfunction : function? (type ++ code) = none)
    (rest : Code) :
    ∃ cursors : List Cursor, scan (type ++ (code ++ semicolon :: rest)) =
        (scan rest).after cursors [] ∧
      (∀ cursor ∈ cursors, cursor.kind = .variable) ∧
      cursors.map Cursor.spelling = list.map (·.name.word) := by
  have hterminated := terminated_variables htype code
  rw [hfunction] at hterminated
  obtain ⟨hkinds, hspellings⟩ := variablesOf_list htype h
  refine ⟨_, ?_, hkinds, hspellings⟩
  rw [scan_braceless htype h hhead hsemicolon hbraces, hterminated]

/-! ## Declarations with braces -/

/-- An initializer with a brace is cut in two by the group that the first one opens. -/
theorem WrittenVariable.exists_brace (declared : WrittenVariable)
    (h : ¬declared.IsBraceless) :
    ∃ front brace inside close back, declared.code = front ++ brace :: (inside ++ close :: back) ∧
      brace.token = .openBrace ∧ close.token = .closeBrace ∧ IsPaired .brace inside ∧
      IsNestedWithout headStops front ∧
      IsNestedWithout [.semicolon, .atKeyword, .directive] back ∧
      ∃ u ∈ front, u.token = .equals := by
  simp only [WrittenVariable.IsBraceless, not_forall] at h
  obtain ⟨value, hvalue, hbrace⟩ := h
  obtain ⟨hequals, hinitializer⟩ := declared.isInitializer value hvalue
  have hcode : declared.code = declared.front ++ value.1 :: value.2 := by
    rw [WrittenVariable.code, hvalue]
    rfl
  have hstatement : ∀ {back : Code}, IsNestedWithout initializerStops back →
      IsNestedWithout [.semicolon, .atKeyword, .directive] back := fun hback =>
    hback.mono fun token hout hmem => hout (List.mem_cons_of_mem _ hmem)
  rcases hinitializer.split (· ≠ .openBrace) with hall | ⟨front, u, back, heq, hfront, hu, hback⟩
  · exact absurd (hall.mono fun token hout => by simpa using ⟨hout.2, hout.1⟩) hbrace
  · have hu : u.token = .openBrace := not_not.1 hu
    rcases hback with ⟨hplain, -⟩ | ⟨bracket, inside, close, after, hopen, rfl, hinside, hclose, hafter⟩
    · rw [hu] at hplain
      exact absurd hplain (by decide)
    · obtain rfl : bracket = .brace := by
        cases bracket with
        | brace => rfl
        | paren | square => rw [hu] at hopen; cases hopen
      refine ⟨declared.front ++ value.1 :: front, u, inside, close, after, ?_, hu, hclose,
        hinside.isPaired .brace, ?_, hstatement hafter, value.1, by simp, hequals⟩
      · rw [hcode, heq]
        simp
      · have hhead : IsNestedWithout headStops front := hfront.mono fun token hout hstop => by
          obtain ⟨hstops, hbrace⟩ := hout
          cases token <;> first | exact hbrace rfl | exact hstops (by decide) |
            exact absurd hstop (by decide)
        have hcut : IsNestedWithout headStops declared.front := declared.isNested_front (by decide)
        exact hcut.append (.token (by rw [hequals]; decide) (by rw [hequals]; decide) hhead)

/-- The same for declarators with a brace in one of their initializers. -/
theorem IsVariableList.exists_brace (h : IsVariableList list code)
    (hbraces : ¬∀ declared ∈ list, declared.IsBraceless) :
    ∃ front brace inside close back, code = front ++ brace :: (inside ++ close :: back) ∧
      brace.token = .openBrace ∧ close.token = .closeBrace ∧ IsPaired .brace inside ∧
      IsNestedWithout headStops front ∧
      IsNestedWithout [.semicolon, .atKeyword, .directive] back ∧
      ∃ u ∈ front, u.token = .equals := by
  induction h with
  | one declared => exact declared.exists_brace (by simpa using hbraces)
  | @more declared comma more code hcomma hlist ih =>
    by_cases hfirst : declared.IsBraceless
    · obtain ⟨front, brace, inside, close, back, rfl, hbrace, hclose, hinside, hfront, hback, u, hu,
        hequals⟩ := ih fun hmore => hbraces (List.forall_mem_cons.2 ⟨hfirst, hmore⟩)
      refine ⟨declared.code ++ comma :: front, brace, inside, close, back, by simp, hbrace, hclose,
        hinside, ?_, hback, u, by simp [hu], hequals⟩
      have hcode : IsNestedWithout headStops declared.code :=
        declared.isNested_code (by decide) fun value hvalue =>
          (hfirst value hvalue).mono fun token hout hstop => hout <| by
            cases token <;> first | decide | exact absurd hstop (by decide)
      exact hcode.append (.token (by rw [hcomma]; decide) (by rw [hcomma]; decide) hfront)
    · obtain ⟨front, brace, inside, close, back, hcode, hbrace, hclose, hinside, hfront, hback, hu⟩ :=
        declared.exists_brace hfirst
      refine ⟨front, brace, inside, close, back ++ comma :: code, by rw [hcode]; simp, hbrace, hclose,
        hinside, hfront, ?_, hu⟩
      exact hback.append (.token (by rw [hcomma]; decide) (by rw [hcomma]; decide)
        (IsVariableList.isNested_statement hlist))

/-- What stands before a brace ends the search for the equals sign. -/
theorem withoutInitializer_append (h : ∃ u ∈ front, u.token = .equals) (code : Code) :
    withoutInitializer (front ++ code) = withoutInitializer front := by
  obtain ⟨u, hu, hequals⟩ := h
  rw [withoutInitializer, withoutInitializer, Code.before, Code.before, List.takeWhile_append,
    if_neg]
  intro hlength
  have hall := List.takeWhile_eq_self_iff.1 (List.takeWhile_sublist _ |>.eq_of_length hlength) u hu
  rw [hequals] at hall
  cases hall

/-- Where a brace stands outside of parentheses and square brackets, there is one variable at most, and
what is behind the brace is passed over up to the semicolon. -/
theorem scan_braced (htype : IsWords type) (h : IsVariableList list code)
    (hhead : IsUninterrupted (upToMark (type ++ code))) (hsemicolon : semicolon.token = .semicolon)
    (hbraces : ¬∀ declared ∈ list, declared.IsBraceless) (rest : Code) :
    scan (type ++ (code ++ semicolon :: rest)) =
      (scan rest).after (variableOf? (withoutInitializer (type ++ code))).toList [] := by
  obtain ⟨front, brace, inside, close, back, rfl, hbrace, hclose, hinside, hfront, hback, u, hu,
    hequals⟩ := h.exists_brace hbraces
  have hspan := spanHead_nested ((htype.isNested (by decide)).append hfront)
    (by rw [hbrace]; rfl : endsHead brace.token = true)
    (inside ++ close :: (back ++ semicolon :: rest))
  have hrestart : restart (type ++ front) = type ++ front := restart_words htype front hhead
  have hassigned : (type ++ front).any (·.token == .equals) = true :=
    List.any_eq_true.2 ⟨u, List.mem_append_right _ hu, by simp [hequals]⟩
  have hcut : withoutInitializer (type ++ (front ++ brace :: (inside ++ close :: back))) =
      withoutInitializer (type ++ front) := by
    rw [← List.append_assoc]
    exact withoutInitializer_append ⟨u, List.mem_append_right _ hu, hequals⟩ _
  have hafter : afterStatement (back ++ semicolon :: rest) = rest := by
    rw [afterStatement_append_of_nested hback (fun token hout => by simpa using hout), afterStatement,
      hsemicolon]
  have hcode : type ++ (front ++ brace :: (inside ++ close :: back) ++ semicolon :: rest) =
      type ++ front ++ brace :: (inside ++ close :: (back ++ semicolon :: rest)) := by simp
  have hplain : readPlain (type ++ front ++ brace :: (inside ++ close :: (back ++ semicolon :: rest))) =
      ((variableOf? (withoutInitializer (type ++ front))).toList, rest) := by
    unfold readPlain
    dsimp only
    rw [hspan]
    dsimp only
    rw [hbrace]
    dsimp only
    rw [hrestart, braced, if_pos hassigned, afterBraces, skip_paired hinside hclose, hafter]
  rw [hcut, hcode]
  obtain ⟨t, more, rfl, ht⟩ := htype.head
  rw [List.cons_append, List.cons_append] at hplain ⊢
  rw [scan_plain ht.token, hplain]

/-! ## Declarations -/

/-- A declaration of variables is read as one variable for each declarator, in order, and what is behind
its semicolon as without it, iff it has no brace outside of parentheses and square brackets and its head
is not taken for that of a function, or it has one declarator only, and such a brace. -/
theorem scan_variables (htype : IsWords type) (h : IsVariableList list code)
    (hhead : IsUninterrupted (upToMark (type ++ code))) (hsemicolon : semicolon.token = .semicolon)
    (rest : Code) :
    (∃ cursors : List Cursor, scan (type ++ (code ++ semicolon :: rest)) =
        (scan rest).after cursors [] ∧
      (∀ cursor ∈ cursors, cursor.kind = .variable) ∧
      cursors.map Cursor.spelling = list.map (·.name.word)) ↔
      ((∀ declared ∈ list, declared.IsBraceless) ∧ function? (type ++ code) = none) ∨
        ((¬∀ declared ∈ list, declared.IsBraceless) ∧ list.length = 1) := by
  -- the cursors of the declaration itself are determined by what is scanned
  have hcancel {cursors read : List Cursor} (heq : (scan rest).after cursors [] =
      (scan rest).after read []) : cursors = read :=
    List.append_cancel_right (congrArg Outcome.cursors heq)
  by_cases hbraces : ∀ declared ∈ list, declared.IsBraceless
  · have hscan := scan_braceless htype h hhead hsemicolon hbraces rest
    have hterminated := terminated_variables htype code
    rw [or_iff_left fun hbraced => hbraced.1 hbraces, and_iff_right hbraces]
    constructor
    · rintro ⟨cursors, hread, hkinds, -⟩
      rw [hscan] at hread
      cases hfunction : function? (type ++ code) with
      | none => rfl
      | some cursor =>
        rw [hfunction] at hterminated
        rw [hterminated] at hread
        have hkind : cursor.kind = .variable :=
          hkinds cursor (by rw [← hcancel hread]; exact List.mem_singleton_self cursor)
        rw [kind_of_function? hfunction] at hkind
        cases hkind
    · exact fun hfunction => scan_list htype h hhead hsemicolon hbraces hfunction rest
  · have hscan := scan_braced htype h hhead hsemicolon hbraces rest
    rw [or_iff_right fun hbraceless => hbraces hbraceless.1, and_iff_right hbraces]
    constructor
    · rintro ⟨cursors, hread, -, hspellings⟩
      rw [hscan] at hread
      have hlength := congrArg List.length hspellings
      rw [List.length_map, List.length_map, ← hcancel hread] at hlength
      have hatMost : (variableOf? (withoutInitializer (type ++ code))).toList.length ≤ 1 := by
        cases variableOf? (withoutInitializer (type ++ code)) <;> simp
      have hpos : 0 < list.length := by
        cases h <;> simp
      omega
    · intro hone
      obtain ⟨declared, rfl⟩ := List.length_eq_one_iff.1 hone
      obtain rfl : code = declared.code := by
        cases h with
        | one => rfl
        | more _ _ hmore => cases hmore
      have hvariable : ∃ cursor, variableOf? (withoutInitializer (type ++ declared.code)) =
          some cursor ∧ cursor.kind = .variable ∧ cursor.spelling = declared.name.word := by
        rw [variableOf?, declared.variableDeclarator?_code htype]
        exact ⟨_, rfl, rfl, rfl⟩
      obtain ⟨cursor, hvariable, hkind, hspelling⟩ := hvariable
      rw [hvariable] at hscan
      exact ⟨[cursor], hscan, by simpa using hkind, by simpa using hspelling⟩

/-- The variable `a[] = {1, 2}`. -/
def listedVariable : WrittenVariable where
  stars := []
  name := looseToken .ident "a" " "
  groups := looseToken .openBracket "[" :: [] ++ looseToken .closeBracket "]" :: []
  initializer :=
    some (looseToken .equals "=", looseToken .openBrace "\x7b" ::
      [looseToken .number "1", looseToken .comma ",", looseToken .number "2"] ++
        looseToken .closeBrace "\x7d" :: [])
  isStars := nofun
  isName := by decide
  isGroups := .group (by rfl : _ = Bracket.square.opening) rfl .nil rfl .nil
  notAssigned := by decide
  notWrapped := by decide
  isInitializer := by
    rintro value hvalue
    cases hvalue
    exact ⟨rfl, .group (by rfl : _ = Bracket.brace.opening) (by decide) (.of_flat (by decide)) rfl .nil⟩

/-- The variable `b`. -/
def plainVariable : WrittenVariable where
  stars := []
  name := looseToken .ident "b" " "
  groups := []
  initializer := none
  isStars := nofun
  isName := by decide
  isGroups := .nil
  notAssigned := nofun
  notWrapped := rfl
  isInitializer := nofun

/-- The second variable is lost behind the brace of the first. -/
theorem scan_variables_listed :
    ¬∃ cursors : List Cursor, scan ([looseToken .ident "int"] ++
          ((listedVariable.code ++ looseToken .comma "," :: plainVariable.code) ++
            looseToken .semicolon ";" :: [])) = (scan []).after cursors [] ∧
        (∀ cursor ∈ cursors, cursor.kind = .variable) ∧
        cursors.map Cursor.spelling = ["a", "b"] := by
  have hcomma : (looseToken .comma ",").token = .comma := rfl
  have htype : IsWords [looseToken .ident "int"] := ⟨List.cons_ne_nil _ _, by decide⟩
  have hsemicolon : (looseToken .semicolon ";").token = .semicolon := rfl
  have hexact := scan_variables htype (.more listedVariable hcomma (.one plainVariable)) (by decide)
    hsemicolon []
  rintro ⟨cursors, hscan, hkinds, hspellings⟩
  rcases hexact.1 ⟨cursors, hscan, hkinds, hspellings⟩ with ⟨hbraceless, -⟩ | ⟨-, hone⟩
  · have hbrace := hbraceless listedVariable (by simp) _ rfl
    exact hbrace.cons_inv.1 (by decide)
  · cases hone

end DeclDoc.Declaration
