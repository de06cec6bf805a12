import DeclDoc.Proofs.Nested

/-!
# What the grammar derives is read

A declaration of the grammar is read as one cursor that declares its entry (`scan_declaration`), and a
forward declaration as none (`scan_forward`); so a source of the grammar is read entry by entry, to
its last token and without a fault (`scan_source`).
-/

set_option autoImplicit false

namespace DeclDoc

open Declaration (Entry)

/-- The cursor is the declaration of an entry: it has its node and its members, and there is nothing
else in it. -/
structure Cursor.Declares (cursor : Cursor) (entry : Entry) : Prop where
  ref : cursor.ref = entry.ref
  members : cursor.children.map Cursor.key = entry.members
  plain : (isContainerKind cursor.kind = true ∧ ∀ child ∈ cursor.children, child.isMember = true) ∨
    cursor.isNamedEnum = true ∨
    (isContainerKind cursor.kind = false ∧ cursor.kind ≠ .enumeration ∧ cursor.children = [])

namespace Declaration

variable {t name p q semicolon keyword close directive : CodeToken}
  {code front rest type members protocols : Code} {keys : List NodeKey}

/-! ## Containers -/

/-- A class is read with the members behind its head. -/
theorem readAtKeyword_interface (hkeyword : IsAt "@interface" keyword) (hname : name.token = .ident)
    (code : Code) :
    readAtKeyword keyword (name :: code) =
      withMembers (readHead false keyword.start name code).1
        (readMembers keyword.start (readHead false keyword.start name code).2) := by
  simp only [readAtKeyword, hkeyword.2, readContainer, if_pos hname]
  rfl

theorem scan_interface {head : Cursor} (hkeyword : IsAt "@interface" keyword)
    (hname : IsIdentifier name)
    (hhead : readHead false keyword.start name code = (head, members ++ close :: rest))
    (hmembers : IsMembers keys members) (hclose : IsAt "@end" close) :
    ∃ cursors, scan (keyword :: name :: code) =
        (scan rest).after [{ head with children := cursors }] [] ∧
      cursors.map Cursor.key = keys ∧ ∀ cursor ∈ cursors, cursor.isMember = true := by
  obtain ⟨cursors, hread, hkeys, hall⟩ := readMembers_append hmembers hclose keyword.start rest
  refine ⟨cursors, ?_, hkeys, hall⟩
  rw [scan_atKeyword hkeyword.1, readAtKeyword_interface hkeyword hname.token, hhead, hread]
  rfl

theorem scan_protocol (hkeyword : IsAt "@protocol" keyword) (hname : IsIdentifier name)
    (hprotocols : IsProtocols protocols) (hmembers : IsMembers keys members)
    (hclose : IsAt "@end" close) (rest : Code) :
    ∃ detail cursors, scan (keyword :: name :: (protocols ++ (members ++ close :: rest))) =
        (scan rest).after
          [{ kind := .protocol, spelling := name.word, offset := name.start,
             extent := keyword.start, detail, children := cursors }] [] ∧
      cursors.map Cursor.key = keys ∧ ∀ cursor ∈ cursors, cursor.isMember = true := by
  obtain ⟨cursors, hread, hkeys, hall⟩ := readMembers_append hmembers hclose keyword.start rest
  have hcode := hmembers.atMembers hclose rest
  have hsemicolon : Code.nextIs (protocols ++ (members ++ close :: rest)) .semicolon = false :=
    hprotocols.nextIs_eq_false hcode (by decide)
  have hcomma : Code.nextIs (protocols ++ (members ++ close :: rest)) .comma = false :=
    hprotocols.nextIs_eq_false hcode (by decide)
  have hcontainer : ∃ detail,
      readAtKeyword keyword (name :: (protocols ++ (members ++ close :: rest))) =
        ⟨[{ kind := .protocol, spelling := name.word, offset := name.start,
            extent := keyword.start, detail, children := cursors }], [], rest⟩ := by
    simp only [readAtKeyword, hkeyword.2]
    unfold readProtocol
    dsimp only
    rw [if_pos hname.token, hsemicolon, hcomma, Bool.or_self, if_neg Bool.false_ne_true,
      readNames_append hprotocols hcode, hread]
    exact ⟨_, rfl⟩
  obtain ⟨detail, hcontainer⟩ := hcontainer
  refine ⟨detail, cursors, ?_, hkeys, hall⟩
  rw [scan_atKeyword hkeyword.1, hcontainer]

/-! ## Prototypes -/

/-- Names in a prototype's head are no part of any other declaration. -/
theorem IsIdentifier.not_starts (h : IsIdentifier t) :
    t.isWord "typedef" = false ∧ t.isWordOf statementWords = false :=
  ⟨isWordOf_mono h.notStorage (by decide), isWordOf_mono h.notReserved (by decide)⟩

theorem lastRestart?_append (h : ∀ u ∈ front, u.afterComment = false)
    (hrest : lastRestart? rest = none) : lastRestart? (front ++ rest) = none := by
  induction front with
  | nil => exact hrest
  | cons u front ih =>
    rw [List.cons_append, lastRestart?, ih fun v hv => h v (List.mem_cons_of_mem _ hv),
      h u List.mem_cons_self]
    split <;> rfl

/-- A head that no comment interrupts begins where it does. -/
theorem restart_append (h : IsUninterrupted (t :: front)) (hrest : lastRestart? rest = none) :
    restart (t :: front ++ rest) = t :: front ++ rest := by
  have hnone : lastRestart? (front ++ rest) = none := lastRestart?_append h hrest
  rw [restart, List.cons_append, List.tail_cons, hnone]
  rfl

theorem splitArguments?_of_flat (h : ∀ u ∈ front, u.token ≠ .openParen) (reversed rest : Code) :
    splitArguments? reversed (front ++ rest) = splitArguments? (front.reverse ++ reversed) rest := by
  induction front generalizing reversed with
  | nil => rfl
  | cons u front ih =>
    rw [List.cons_append, splitArguments?, if_neg (h u List.mem_cons_self),
      ih fun v hv => h v (List.mem_cons_of_mem _ hv)]
    simp

/-- Where there is no parenthesis there is no function. -/
theorem function?_of_flat (h : ∀ u ∈ code, u.token ≠ .openParen) : function? code = none := by
  have hsplit := splitArguments?_of_flat h [] []
  rw [List.append_nil, splitArguments?] at hsplit
  simp only [function?, hsplit]

theorem findWord?_eq_none {words : List String} (h : ∀ u ∈ code, u.isWordOf words = false) :
    findWord? words code = none := by
  induction code with
  | nil => rfl
  | cons u more ih =>
    obtain ⟨hu, hmore⟩ := List.forall_mem_cons.1 h
    rw [findWord?, hu, if_neg Bool.false_ne_true, ih hmore]

theorem findWord?_behind {words : List String} (h : ∀ u ∈ front, u.isWordOf words = false)
    {t : CodeToken} (ht : t.isWordOf words = true) (rest : Code) :
    findWord? words (front ++ t :: rest) = some (t, rest) := by
  induction front with
  | nil => exact if_pos ht
  | cons u more ih =>
    obtain ⟨hu, hmore⟩ := List.forall_mem_cons.1 h
    rw [List.cons_append, findWord?, hu, if_neg Bool.false_ne_true, ih hmore]

/-- There are only identifiers, stars and commas among arguments. -/
theorem IsArguments.forall_token (h : IsArguments code) {P : Token → Prop} (hident : P .ident)
    (hstar : P .star) (hcomma : P .comma) : ∀ u ∈ code, P u.token := by
  cases h with
  | none => nofun
  | void ht =>
    intro u hu
    rwa [List.mem_singleton.1 hu, token_of_isWord ht]
  | some hparameters =>
    induction hparameters with
    | one htype hname => exact htype.forall_token_name hname hident hstar
    | more htype hname hc _ ih =>
      refine List.forall_mem_append.2 ⟨htype.forall_token hident hstar, ?_⟩
      refine List.forall_mem_cons.2 ⟨?_, List.forall_mem_cons.2 ⟨?_, ih⟩⟩
      · rwa [hname.token]
      · rwa [hc]

theorem IsArguments.isNested (h : IsArguments code) : IsNested (fun _ => True) code :=
  .of_flat <| h.forall_token (P := fun token => IsNoBracket token ∧ True) (by decide) (by decide)
    (by decide)

/-- Arguments do not begin with a mark of a pointer. -/
theorem IsArguments.not_isPointerMark (h : IsArguments code) :
    code.head?.any isPointerMark = false := by
  have hident {t : CodeToken} (ht : t.token = .ident) : isPointerMark t = false := by
    rw [isPointerMark, ht]
    rfl
  cases h with
  | none => rfl
  | void ht => exact hident (token_of_isWord ht)
  | some hparameters =>
    cases hparameters with
    | one htype | more htype =>
      obtain ⟨t, more, rfl, ht⟩ := htype.head
      exact hident ht.token

/-- The function that a prototype or a definition declares, with this between its parentheses. -/
def functionOf (type : Code) (name : CodeToken) (arguments : Code) : Cursor :=
  { kind := .function
    spelling := name.word
    offset := name.start
    extent := type.start
    detail := { signature := .returns (Code.line type) :: parameters arguments } }

/-- A name behind a type with a group of parentheses behind it is a function. -/
theorem function?_prototype {outside : Token → Prop} {arguments : Code} (htype : IsType type)
    (hname : IsIdentifier name) (hp : p.token = .openParen) (harguments : IsNested outside arguments)
    (hpointer : arguments.head?.any isPointerMark = false) (hq : q.token = .closeParen) :
    function? (type ++ name :: p :: (arguments ++ [q])) = some (functionOf type name arguments) := by
  have hfront : ∀ u ∈ type ++ [name], u.token ≠ .openParen :=
    htype.forall_token_name (P := (· ≠ .openParen)) hname (by decide) (by decide)
  have hsplit : splitArguments? [] (type ++ name :: p :: (arguments ++ [q])) =
      some (name :: type.reverse, arguments ++ [q]) := by
    rw [List.append_cons, splitArguments?_of_flat hfront, splitArguments?, if_pos hp]
    simp [hname.notAttribute]
  have hclose := close?_append harguments.isBalanced hq []
  have hmark : (arguments ++ [q]).head?.any isPointerMark = false := by
    cases arguments with
    | nil => rw [List.nil_append, List.head?_cons, Option.any_some, isPointerMark, hq]; rfl
    | cons t more => exact hpointer
  obtain ⟨t, more, rfl, ht⟩ := htype.head
  simp only [function?, hsplit, List.reverse_reverse, htype.dropStorage_eq]
  rw [if_pos ⟨hname.token, by rw [hname.notReserved]; rfl, by rw [hmark]; rfl, by rfl⟩, hclose]
  rfl

/-- A head begins with the identifiers before it. -/
theorem spanHead_identifiers {words : Code} (h : ∀ w ∈ words, w.token = .ident) (code : Code) :
    spanHead (words ++ code) = (words ++ (spanHead code).1, (spanHead code).2) := by
  refine spanTop_append_of_flat (fun w hw => ?_) code
  rw [h w hw]
  exact ⟨fun _ => rfl, rfl⟩

/-- Two words in front of what ends a head are one. -/
theorem spanHead_words (hkeyword : keyword.token = .ident) (hname : name.token = .ident)
    (ht : endsHead t.token = true) (rest : Code) :
    spanHead (keyword :: name :: t :: rest) = ([keyword, name], t :: rest) := by
  have hwords : ∀ w ∈ [keyword, name], w.token = .ident := by simp [hkeyword, hname]
  have hspan := spanHead_identifiers hwords (t :: rest)
  rwa [spanHead, spanHead, spanTop_stop ht] at hspan

/-- The head of a function ends behind its parentheses. -/
theorem spanHead_prototype {outside : Token → Prop} {arguments : Code} (htype : IsType type)
    (hname : IsIdentifier name) (hp : p.token = .openParen) (harguments : IsNested outside arguments)
    (hq : q.token = .closeParen) (ht : endsHead t.token = true) (rest : Code) :
    spanHead (type ++ name :: p :: (arguments ++ q :: t :: rest)) =
      (type ++ name :: p :: (arguments ++ [q]), t :: rest) := by
  have hfront : ∀ u ∈ type ++ [name], ((0 : Nat) = 0 → endsHead u.token = false) ∧
      Nesting.arguments.depthAfter 0 u.token = 0 :=
    htype.forall_token_name (P := fun token => (0 = 0 → endsHead token = false) ∧
      Nesting.arguments.depthAfter 0 token = 0) hname (by decide) (by decide)
  have hclose : spanTop .arguments endsHead 1 (q :: t :: rest) = ([q], t :: rest) := by
    have hdepth : Nesting.arguments.depthAfter 1 q.token = 0 := by rw [hq]; rfl
    rw [spanTop_cons (fun h => by cases h) hdepth, spanTop_stop ht]
  have hopen : spanTop .arguments endsHead 0 (p :: (arguments ++ q :: t :: rest)) =
      (p :: (arguments ++ [q]), t :: rest) := by
    have hdepth : Nesting.arguments.depthAfter 0 p.token = 1 := by rw [hp]; rfl
    rw [spanTop_cons (fun _ => by rw [hp]; rfl) hdepth,
      spanTop_append_of_nested (.inl rfl) harguments (fun h => absurd h Nat.one_ne_zero), hclose]
  rw [spanHead, List.append_cons, spanTop_append_of_flat hfront, hopen]
  simp

/-- What stands behind the opening parenthesis does not restart a head. -/
theorem restart_prototype (htype : IsType type) (hhead : IsUninterrupted (type ++ [name]))
    (hp : p.token = .openParen) (rest : Code) :
    restart (type ++ name :: p :: rest) = type ++ name :: p :: rest := by
  obtain ⟨t, more, rfl, -⟩ := htype.head
  have hnone : lastRestart? (p :: rest) = none := by rw [lastRestart?, if_pos (.inl hp)]
  have hfull : restart (t :: (more ++ [name]) ++ p :: rest) = t :: (more ++ [name]) ++ p :: rest :=
    restart_append hhead hnone
  simpa using hfull

/-- A head declares nothing that an `@`-keyword or a directive ends. -/
theorem readPlain_interrupted {head : Code} (hspan : spanHead code = (head, t :: rest))
    (hne : head ≠ []) (ht : t.token = .atKeyword ∨ t.token = .directive) :
    readPlain code = ([], t :: rest) := by
  have hempty : head.isEmpty = false := by simpa using hne
  unfold readPlain
  rw [hspan]
  dsimp only
  rw [hempty]
  rcases ht with ht | ht <;> rw [ht] <;> rfl

/-- A prototype declares its function, whatever is nested between its parentheses. -/
theorem scan_prototype {outside : Token → Prop} {arguments : Code} (htype : IsType type)
    (hname : IsIdentifier name) (hhead : IsUninterrupted (type ++ [name]))
    (hp : p.token = .openParen) (harguments : IsNested outside arguments)
    (hpointer : arguments.head?.any isPointerMark = false) (hq : q.token = .closeParen)
    (hsemicolon : semicolon.token = .semicolon) (rest : Code) :
    scan (type ++ name :: p :: (arguments ++ q :: semicolon :: rest)) =
      (scan rest).after [functionOf type name arguments] [] := by
  have hspan := spanHead_prototype htype hname hp harguments hq (by rw [hsemicolon]; rfl) rest
  have hfunction := function?_prototype htype hname hp harguments hpointer hq
  have hrestart := restart_prototype htype hhead hp (arguments ++ [q])
  obtain ⟨t, more, rfl, ht⟩ := htype.head
  have hterminated : terminated (t :: more ++ name :: p :: (arguments ++ [q])) =
      [functionOf (t :: more) name arguments] := by
    have hforward : isForward (t :: (more ++ name :: p :: (arguments ++ [q]))) = false := by
      rw [isForward, Bool.and_eq_false_iff]
      left
      simp
      omega
    rw [List.cons_append] at hfunction ⊢
    unfold terminated
    dsimp only
    rw [ht.not_starts.1, hforward, ht.not_starts.2, hfunction]
    simp
  have hplain : readPlain (t :: more ++ name :: p :: (arguments ++ q :: semicolon :: rest)) =
      ([functionOf (t :: more) name arguments], rest) := by
    unfold readPlain
    dsimp only
    rw [hspan]
    dsimp only
    rw [hsemicolon]
    dsimp only
    rw [hrestart, hterminated]
  rw [List.cons_append] at hplain ⊢
  rw [scan_plain ht.token, hplain]

/-! ## Enumerations -/

/-- A value is read up to the comma behind it, or the closing brace. -/
theorem enumerators_value {key : NodeKey} (h : IsEnumerator key front)
    (ht : endsEnumerator t.token = true) (rest : Code) :
    ∃ value, value.key = key ∧ enumerators (front ++ t :: rest) =
      (value :: (enumerators (if t.token = .comma then rest else t :: rest)).1,
        (enumerators (if t.token = .comma then rest else t :: rest)).2) := by
  have hvalue : ∀ (name : CodeToken) (more : Code), IsIdentifier name →
      (∀ u ∈ more, ((0 : Nat) = 0 → endsEnumerator u.token = false) ∧
        Nesting.initializers.depthAfter 0 u.token = 0) →
      enumerators (name :: (more ++ t :: rest)) =
        (enumerator name :: (enumerators (if t.token = .comma then rest else t :: rest)).1,
          (enumerators (if t.token = .comma then rest else t :: rest)).2) := by
    intro name more hname hmore
    have hspan := spanTop_append_of_flat hmore (t :: rest)
    rw [spanTop_stop ht, List.append_nil] at hspan
    have hafter : afterEnumerator (more ++ t :: rest) =
        if t.token = .comma then rest else t :: rest := by
      unfold afterEnumerator
      dsimp only
      rw [hspan]
      dsimp only
      rw [nextIs_cons, List.tail_cons]
      simp only [beq_iff_eq]
    rw [enumerators, hname.token]
    dsimp only
    rw [hname.notAttribute, hafter, if_neg Bool.false_ne_true]
  cases h with
  | @bare name hname => exact ⟨_, rfl, hvalue name [] hname (List.forall_mem_nil _)⟩
  | @numbered name equals number hname hequals hnumber =>
    refine ⟨_, rfl, hvalue name [equals, number] hname ?_⟩
    refine List.forall_mem_cons.2 ⟨?_, List.forall_mem_cons.2 ⟨?_, List.forall_mem_nil _⟩⟩
    · rw [hequals]
      decide
    · rw [hnumber]
      decide

theorem enumerators_append (h : IsEnumerators keys code) (hq : q.token = .closeBrace)
    (rest : Code) :
    ∃ values, enumerators (code ++ q :: rest) = (values, rest) ∧ values.map Cursor.key = keys := by
  induction h with
  | one hvalue =>
    obtain ⟨value, hkey, hread⟩ := enumerators_value hvalue (t := q) (by rw [hq]; rfl) rest
    have hend : enumerators (q :: rest) = ([], rest) := by rw [enumerators, hq]
    rw [if_neg (by rw [hq]; decide), hend] at hread
    exact ⟨[value], hread, by rw [List.map_singleton, hkey]⟩
  | @more key keys comma front code hvalue hcomma _ ih =>
    obtain ⟨values, hread, hkeys⟩ := ih
    obtain ⟨value, hkey, hfirst⟩ :=
      enumerators_value hvalue (t := comma) (by rw [hcomma]; rfl) (code ++ q :: rest)
    rw [if_pos hcomma, hread] at hfirst
    refine ⟨value :: values, ?_, by rw [List.map_cons, hkey, hkeys]⟩
    rw [List.append_assoc, List.cons_append, hfirst]

theorem readTail_semicolon (h : semicolon.token = .semicolon) (rest : Code) :
    readTail false (semicolon :: rest) = (none, rest) := by
  have hspan : spanHead (semicolon :: rest) = ([], semicolon :: rest) :=
    spanTop_stop (by rw [h]; rfl) rest
  unfold readTail
  dsimp only
  rw [hspan, dropSemicolon_cons h]
  rfl

/-- A keyword and a name head the enumeration of that name. -/
theorem braced_enumeration {values : List Cursor} (hkeyword : keyword.isWord "enum" = true)
    (hname : IsIdentifier name) (hvalues : enumerators code = (values, semicolon :: rest))
    (hsemicolon : semicolon.token = .semicolon) :
    ∃ detail, braced [keyword, name] code =
      ([{ kind := .enumeration, spelling := name.word, offset := name.start,
          extent := keyword.start, detail, children := values }], rest) := by
  have hident := token_of_isWord hkeyword
  have hword (words : List String) (hword : "enum" ∉ words) : keyword.isWordOf words = false :=
    isWordOf_of_isWord hkeyword hword
  have htypedef : keyword.isWord "typedef" = false := hword ["typedef"] (by decide)
  have hequals : List.any [keyword, name] (fun t => t.token == .equals) = false := by
    simp [hident, hname.token]
  have hdefined : findWord? enumMacros [keyword, name] = none :=
    findWord?_eq_none (by simpa using ⟨hword enumMacros (by decide), hname.notEnumMacro⟩)
  have hfunction : function? [keyword, name] = none :=
    function?_of_flat (by simp [hident, hname.token])
  have hfound : findWord? ["enum"] [keyword, name] = some (keyword, [name]) :=
    findWord?_behind (List.forall_mem_nil _) hkeyword [name]
  have hclass : name.isWordOf ["class", "struct"] = false :=
    isWordOf_mono hname.notReserved (by decide)
  have hhead : EnumHead.ofKeyword keyword [name] = { keyword, name := some name } := by
    unfold EnumHead.ofKeyword
    simp [hclass, hname.token, EnumHead.typeAfterColon?]
  unfold braced
  simp only [List.head?_cons, Option.any_some, htypedef, hequals, Bool.false_eq_true, if_false,
    hdefined, hfunction, hfound, hhead, readEnumeration, enumeration, hvalues,
    readTail_semicolon hsemicolon]
  exact ⟨_, rfl⟩

theorem scan_enumeration {values : Code} (hkeyword : keyword.isWord "enum" = true)
    (hname : IsIdentifier name) (hhead : IsUninterrupted [keyword, name])
    (hp : p.token = .openBrace) (hvalues : IsEnumerators keys values) (hq : q.token = .closeBrace)
    (hsemicolon : semicolon.token = .semicolon) (rest : Code) :
    ∃ detail children, scan (keyword :: name :: p :: (values ++ q :: semicolon :: rest)) =
        (scan rest).after
          [{ kind := .enumeration, spelling := name.word, offset := name.start,
             extent := keyword.start, detail, children }] [] ∧
      children.map Cursor.key = keys := by
  obtain ⟨children, hread, hkeys⟩ := enumerators_append hvalues hq (semicolon :: rest)
  obtain ⟨detail, hbraced⟩ := braced_enumeration hkeyword hname hread hsemicolon
  have hspan := spanHead_words (token_of_isWord hkeyword) hname.token (by rw [hp]; rfl)
    (values ++ q :: semicolon :: rest)
  have hrestart : restart [keyword, name] = [keyword, name] := restart_append hhead rfl
  refine ⟨detail, children, ?_, hkeys⟩
  rw [scan_plain (token_of_isWord hkeyword)]
  unfold readPlain
  dsimp only
  rw [hspan]
  dsimp only
  rw [hp]
  dsimp only
  rw [hrestart, hbraced]

/-! ## Macros -/

/-- What begins a macro's name is no blank. -/
theorem isGap_of_isMacroChar {c : Char} (h : isMacroChar c = true) : isGap c = false := by
  rw [Bool.eq_false_iff]
  intro hgap
  simp only [isGap, Bool.or_eq_true, beq_iff_eq] at hgap
  rcases hgap with rfl | rfl <;> revert h <;> decide

theorem dropWhile_append_of_all {p : Char → Bool} {front rest : List Char}
    (hfront : front.all p = true) (hrest : rest.head?.any p = false) :
    (front ++ rest).dropWhile p = rest := by
  rw [List.dropWhile_append_of_pos (List.all_eq_true.1 hfront)]
  cases rest with
  | nil => rfl
  | cons c rest => exact List.dropWhile_cons_of_neg (by simpa using hrest)

theorem takeWhile_append_of_all {p : Char → Bool} {front rest : List Char}
    (hfront : front.all p = true) (hrest : rest.head?.any p = false) :
    (front ++ rest).takeWhile p = front := by
  rw [List.takeWhile_append_of_pos (List.all_eq_true.1 hfront)]
  cases rest with
  | nil => simp
  | cons c rest => rw [List.takeWhile_cons_of_neg (by simpa using hrest), List.append_nil]

theorem macroDefinition?_define {name : List Char} (h : IsDefine name directive) :
    ∃ offset, macroDefinition? directive =
      some { kind := .macroDefinition, spelling := String.ofList name, offset,
             extent := directive.start } := by
  obtain ⟨gap, gap', rest, htext, hgap, hgap', hne, hrest⟩ := h.text
  obtain ⟨c, more, rfl⟩ : ∃ c more, name = c :: more := by
    cases name with
    | nil => exact absurd h.first (by decide)
    | cons c more => exact ⟨c, more, rfl⟩
  obtain ⟨blank, blanks, rfl⟩ := List.exists_cons_of_ne_nil hne
  have hblank : (blank == ' ' || blank == '\t') = true :=
    List.all_eq_true.1 hgap' blank List.mem_cons_self
  have hname : isMacroChar c = true := List.all_eq_true.1 h.chars c List.mem_cons_self
  have hdefine : (directive.text.drop 1).dropWhile isGap =
      "define".toList ++ (blank :: blanks ++ (c :: more ++ rest)) := by
    rw [htext]
    simp only [List.cons_append, List.append_assoc, List.drop_succ_cons, List.drop_zero]
    apply dropWhile_append_of_all hgap
    have hword : "define".toList = ['d', 'e', 'f', 'i', 'n', 'e'] := by decide
    rw [hword]
    rfl
  have hnamed : (blank :: blanks ++ (c :: more ++ rest)).dropWhile isGap = c :: more ++ rest :=
    dropWhile_append_of_all hgap' (isGap_of_isMacroChar hname)
  have htake : (c :: more ++ rest).takeWhile isMacroChar = c :: more :=
    takeWhile_append_of_all h.chars hrest
  have hafter : Text.afterPrefix? "define".toList
      ("define".toList ++ (blank :: blanks ++ (c :: more ++ rest))) =
        some (blank :: blanks ++ (c :: more ++ rest)) := Text.afterPrefix?_eq_some_iff.2 rfl
  have hdigit : (!c.isDigit) = true := h.first
  refine ⟨directive.start + (directive.text.length - (c :: more ++ rest).length), ?_⟩
  -- the two classes of characters have no name where the macro is read
  have hisGap : isGap = fun c => c == ' ' || c == '\t' := rfl
  have hisMacroChar : isMacroChar = fun c => c.isAlphanum || c == '_' := rfl
  rw [hisGap] at hdefine hnamed
  rw [hisMacroChar] at htake
  unfold macroDefinition?
  dsimp only
  rw [hdefine, hafter]
  dsimp only
  rw [hnamed, htake, List.cons_append, List.head?_cons, List.head?_cons, Option.any_some,
    Option.any_some, hblank, hdigit]
  rfl

/-! ## Forward declarations -/

theorem afterStatement_names (h : IsNames code) (hsemicolon : semicolon.token = .semicolon)
    (rest : Code) : afterStatement (code ++ semicolon :: rest) = rest := by
  have hend : afterStatement (semicolon :: rest) = rest := by rw [afterStatement, hsemicolon]
  have hpass {t : CodeToken} (ht : t.token = .ident ∨ t.token = .comma) (more : Code) :
      afterStatement (t :: more) = afterStatement more := by
    rcases ht with ht | ht <;> rw [afterStatement, ht] <;> rfl
  induction h with
  | one ht => rw [List.singleton_append, hpass (.inl ht.token), hend]
  | more ht hcomma _ ih =>
    rw [List.cons_append, List.cons_append, hpass (.inl ht.token), hpass (.inr hcomma), ih]

/-- A name alone has no type, so it is no variable. -/
theorem variablesOf_name (h : IsIdentifier name) : variablesOf [name] = [] := by
  have hdepth : Nesting.initializers.depthAfter 0 name.token = 0 := by rw [h.token]; rfl
  have hspan : spanTop .initializers (· == .comma) 0 [name] = ([name], []) := by
    rw [spanTop_cons (fun _ => by rw [h.token]; rfl) hdepth]
    rfl
  have hcommas : splitCommas .initializers [name] = [[name]] := by
    unfold splitCommas
    split
    · rw [hspan]
    · next heq =>
      rw [hspan] at heq
      cases heq
  have hinitializer : withoutInitializer [name] = [name] := by
    simp [withoutInitializer, Code.before, h.token]
  have hisName : Declarator.isName name [] = true := by
    rw [Declarator.isName, h.token, h.notAttribute, h.notReserved]
    rfl
  have hfind : Declarator.find? [name] = some ⟨[], name, []⟩ := by
    simp [Declarator.find?, Declarator.findWrapped?, Declarator.findLast?, hisName]
  have hnone : variableDeclarator? [name] = none := by
    simp [variableDeclarator?, hfind, Declarator.typeTokens, dropStorage]
  simp only [variablesOf, hcommas, hinitializer, hnone]

/-- A record without members declares nothing. -/
theorem terminated_struct (hkeyword : keyword.isWord "struct" = true) (hname : IsIdentifier name) :
    terminated (restart [keyword, name]) = [] := by
  by_cases hcomment : name.afterComment = true
  · -- the name is left alone below a comment
    have hrestart : restart [keyword, name] = [name] := by
      simp [restart, lastRestart?, hname.token, hcomment]
    have hfunction : function? [name] = none := function?_of_flat (by simp [hname.token])
    have hforward : isForward [name] = false := rfl
    rw [hrestart]
    unfold terminated
    dsimp only
    rw [hname.not_starts.1, hname.not_starts.2, hforward, hfunction, variablesOf_name hname]
    simp
  · have hrestart : restart [keyword, name] = [keyword, name] := by
      simp [restart, lastRestart?, hcomment]
    have htypedef : keyword.isWord "typedef" = false := isWordOf_of_isWord hkeyword (by decide)
    have hforward : isForward [keyword, name] = true := by
      have : keyword.isWordOf ("enum" :: recordWords) = true := by
        simp only [CodeToken.isWord, CodeToken.isWordOf, Bool.and_eq_true, List.contains_iff_mem,
          List.mem_singleton] at hkeyword ⊢
        exact ⟨hkeyword.1, hkeyword.2 ▸ by decide⟩
      rw [isForward, List.head?_cons, Option.any_some, this]
      rfl
    rw [hrestart]
    unfold terminated
    dsimp only
    rw [htypedef, hforward]
    simp

/-- A forward declaration is passed over. -/
theorem scan_forward (h : IsForward code) (rest : Code) : scan (code ++ rest) = scan rest := by
  have hnothing : (scan rest).after [] [] = scan rest := rfl
  cases h with
  | @classes keyword semicolon names hkeyword hnames hsemicolon =>
    have hcode : keyword :: names ++ [semicolon] ++ rest =
        keyword :: (names ++ semicolon :: rest) := by simp
    have hread : readAtKeyword keyword (names ++ semicolon :: rest) = ⟨[], [], rest⟩ := by
      simp only [readAtKeyword, hkeyword.2, afterStatement_names hnames hsemicolon]
    rw [hcode, scan_atKeyword hkeyword.1, hread, hnothing]
  | @protocol keyword name semicolon hkeyword hname hsemicolon =>
    have hread : readAtKeyword keyword (name :: semicolon :: rest) = ⟨[], [], rest⟩ := by
      have hnext : Code.nextIs (semicolon :: rest) .semicolon = true := by
        rw [nextIs_cons, hsemicolon]
        rfl
      have hafter : afterStatement (semicolon :: rest) = rest := by rw [afterStatement, hsemicolon]
      simp only [readAtKeyword, hkeyword.2, readProtocol, hname.token, if_true, hnext, Bool.true_or,
        hafter]
    show scan (keyword :: name :: semicolon :: rest) = scan rest
    rw [scan_atKeyword hkeyword.1, hread, hnothing]
  | @struct keyword name semicolon hkeyword hname hsemicolon =>
    have hspan := spanHead_words (token_of_isWord hkeyword) hname.token
      (by rw [hsemicolon]; rfl) rest
    show scan (keyword :: name :: semicolon :: rest) = scan rest
    rw [scan_plain (token_of_isWord hkeyword)]
    unfold readPlain
    dsimp only
    rw [hspan]
    dsimp only
    rw [hsemicolon]
    dsimp only
    rw [terminated_struct hkeyword hname, hnothing]

/-! ## Sources -/

/-- A declaration is read as one cursor that declares its entry. -/
theorem scan_declaration {entry : Entry} (h : IsDeclaration entry code)
    (htext : ∀ t ∈ code, t.text ≠ []) (rest : Code) :
    ∃ cursor, scan (code ++ rest) = (scan rest).after [cursor] [] ∧ cursor.Declares entry := by
  cases h with
  | @interface keyword name close superclass protocols members keys hkeyword hname hsuperclass
      hprotocols hmembers hclose =>
    have hcode : keyword :: name :: superclass ++ protocols ++ members ++ [close] ++ rest =
        keyword :: name :: (superclass ++ (protocols ++ (members ++ close :: rest))) := by simp
    obtain ⟨detail, hhead⟩ := readHead_interface hsuperclass hprotocols
      (hmembers.atMembers hclose rest) keyword.start name
    obtain ⟨children, hscan, hkeys, hall⟩ :=
      scan_interface hkeyword hname hhead hmembers hclose
    rw [hcode]
    exact ⟨_, hscan, rfl, hkeys, .inl ⟨rfl, hall⟩⟩
  | @category keyword name p category q close protocols members keys hkeyword hname hp hcategory hq
      hprotocols hmembers hclose =>
    have hcode : keyword :: name :: p :: category :: q :: protocols ++ members ++ [close] ++ rest =
        keyword :: name :: (p :: [category] ++ q :: (protocols ++ (members ++ close :: rest))) := by
      simp
    obtain ⟨detail, hhead, hbase⟩ := readHead_category [category]
      (readCategory_named hp hcategory hq name (protocols ++ (members ++ close :: rest))) hp
      hprotocols (hmembers.atMembers hclose rest) keyword.start
    obtain ⟨children, hscan, hkeys, hall⟩ :=
      scan_interface hkeyword hname hhead hmembers hclose
    have hspelling : category.word ≠ "" := CodeToken.word_ne (htext category (by simp))
    rw [hcode]
    refine ⟨_, hscan, ?_, hkeys, .inl ⟨rfl, hall⟩⟩
    simp [Cursor.ref, Cursor.isCategoryKind, hbase, Cursor.key, Cursor.declaredKind,
      Cursor.entityKind?, hspelling, NodeKey.ofDeclaration]
  | @classExtension keyword name p q close protocols members keys hkeyword hname hp hq hprotocols
      hmembers hclose =>
    have hcode : keyword :: name :: p :: q :: protocols ++ members ++ [close] ++ rest =
        keyword :: name :: (p :: [] ++ q :: (protocols ++ (members ++ close :: rest))) := by
      simp
    obtain ⟨detail, hhead, hbase⟩ := readHead_category []
      (readCategory_unnamed hp hq name (protocols ++ (members ++ close :: rest))) hp hprotocols
      (hmembers.atMembers hclose rest) keyword.start
    obtain ⟨children, hscan, hkeys, hall⟩ :=
      scan_interface hkeyword hname hhead hmembers hclose
    rw [hcode]
    refine ⟨_, hscan, ?_, hkeys, .inl ⟨rfl, hall⟩⟩
    simp [Cursor.ref, Cursor.isCategoryKind, hbase, Cursor.key, Cursor.declaredKind,
      Cursor.entityKind?, NodeKey.ofDeclaration]
  | @protocol keyword name close protocols members keys hkeyword hname hprotocols hmembers hclose =>
    have hcode : keyword :: name :: protocols ++ members ++ [close] ++ rest =
        keyword :: name :: (protocols ++ (members ++ close :: rest)) := by simp
    obtain ⟨detail, children, hscan, hkeys, hall⟩ :=
      scan_protocol hkeyword hname hprotocols hmembers hclose rest
    rw [hcode]
    exact ⟨_, hscan, rfl, hkeys, .inl ⟨rfl, hall⟩⟩
  | @prototype name p q semicolon type arguments htype hname hhead hp harguments hq hsemicolon =>
    have hcode : type ++ name :: p :: arguments ++ [q, semicolon] ++ rest =
        type ++ name :: p :: (arguments ++ q :: semicolon :: rest) := by simp
    have hscan := scan_prototype htype hname hhead hp harguments.isNested
      harguments.not_isPointerMark hq hsemicolon rest
    rw [hcode]
    exact ⟨_, hscan, rfl, rfl, .inr (.inr ⟨rfl, by simp [functionOf], rfl⟩)⟩
  | @enumeration keyword name p q semicolon values keys hkeyword hname hhead hp hvalues hq
      hsemicolon =>
    have hcode : keyword :: name :: p :: values ++ [q, semicolon] ++ rest =
        keyword :: name :: p :: (values ++ q :: semicolon :: rest) := by simp
    obtain ⟨detail, children, hscan, hkeys⟩ :=
      scan_enumeration hkeyword hname hhead hp hvalues hq hsemicolon rest
    have hspelling : name.word ≠ "" := CodeToken.word_ne (htext name (by simp))
    rw [hcode]
    refine ⟨_, hscan, ?_, hkeys, .inr (.inl (Cursor.isNamedEnum_iff.2 ⟨rfl, hspelling⟩))⟩
    simp [Cursor.ref, Cursor.isCategoryKind, Cursor.key, Cursor.declaredKind, Cursor.entityKind?,
      hspelling, NodeKey.ofDeclaration]
  | @define directive name hdefine =>
    obtain ⟨offset, hdefined⟩ := macroDefinition?_define hdefine
    have hscan := scan_directive hdefine.token rest
    rw [hdefined] at hscan
    exact ⟨_, hscan, rfl, rfl, .inr (.inr ⟨rfl, by simp, rfl⟩)⟩

/-- A source of the grammar is read entry by entry, and nothing in it is a fault. -/
theorem scan_source {entries : List Entry} (h : IsSource entries code)
    (htext : ∀ t ∈ code, t.text ≠ []) :
    ∃ cursors, scan code = ⟨cursors, []⟩ ∧ List.Forall₂ Cursor.Declares cursors entries := by
  induction h with
  | nil => exact ⟨[], scan_nil, .nil⟩
  | @declared entry entries front code hfront _ ih =>
    obtain ⟨hhead, hrest⟩ := List.forall_mem_append.1 htext
    obtain ⟨cursors, hscan, hall⟩ := ih hrest
    obtain ⟨cursor, hfirst, hdeclares⟩ := scan_declaration hfront hhead code
    exact ⟨cursor :: cursors, by rw [hfirst, hscan]; rfl, .cons hdeclares hall⟩
  | @forward entries front code hfront _ ih =>
    obtain ⟨cursors, hscan, hall⟩ := ih (List.forall_mem_append.1 htext).2
    exact ⟨cursors, by rw [scan_forward hfront, hscan], hall⟩

end Declaration

end DeclDoc
