import DeclDoc.Declaration.Scan
import DeclDoc.Proofs.Enclosure
import DeclDoc.Proofs.Grammar

/-!
# Phrases inside containers

Each reader of what stands in a container takes exactly its own phrase off the front of the code and
leaves what is behind it: types, selectors, methods and properties, and the heads of classes and
categories. A member is read as one cursor under its key (`readMembers_member`), so members up to the
end of their container are read as cursors under theirs (`readMembers_append`).
-/

set_option autoImplicit false

namespace DeclDoc.Declaration

variable {t name colon semicolon openParen closeParen greater sign keyword close : CodeToken}
  {code front rest type inside attributes : Code}

/-! ## Words -/

theorem isWordOf_mono {t : CodeToken} {words more : List String}
    (h : t.isWordOf more = false) (hs : words ⊆ more) : t.isWordOf words = false := by
  rw [Bool.eq_false_iff] at h ⊢
  simp only [CodeToken.isWordOf, ne_eq, Bool.and_eq_true, List.contains_iff_mem] at h ⊢
  exact fun ⟨hident, hword⟩ => h ⟨hident, hs hword⟩

/-- A word is no other word. -/
theorem isWordOf_of_isWord {word : String} {words : List String} (h : t.isWord word = true)
    (hword : word ∉ words) : t.isWordOf words = false := by
  simp only [CodeToken.isWord, CodeToken.isWordOf, Bool.and_eq_true, List.contains_iff_mem,
    List.mem_singleton] at h
  rw [CodeToken.isWordOf, h.2, Bool.and_eq_false_iff]
  exact .inr (by simpa using hword)

theorem token_of_isWord {word : String} (h : t.isWord word = true) : t.token = .ident := by
  simp only [CodeToken.isWord, CodeToken.isWordOf, Bool.and_eq_true, beq_iff_eq] at h
  exact h.1

/-! ## Spans and groups -/

theorem spanTop_cons {nesting : Nesting} {stop : Token → Bool} {depth depth' : Nat}
    (hstop : depth = 0 → stop t.token = false) (hdepth : nesting.depthAfter depth t.token = depth')
    (rest : Code) :
    spanTop nesting stop depth (t :: rest) =
      (t :: (spanTop nesting stop depth' rest).1, (spanTop nesting stop depth' rest).2) := by
  have hgo : ¬(depth = 0 ∧ stop t.token = true) := fun ⟨hzero, hs⟩ => by
    rw [hstop hzero] at hs
    cases hs
  rw [spanTop, if_neg hgo, hdepth]

/-- A span goes on over tokens that neither end it nor change the depth. -/
theorem spanTop_append_of_flat {nesting : Nesting} {stop : Token → Bool} {depth : Nat}
    (h : ∀ u ∈ front, (depth = 0 → stop u.token = false) ∧ nesting.depthAfter depth u.token = depth)
    (code : Code) :
    spanTop nesting stop depth (front ++ code) =
      (front ++ (spanTop nesting stop depth code).1, (spanTop nesting stop depth code).2) := by
  induction front with
  | nil => rfl
  | cons u front ih =>
    obtain ⟨hstop, hdepth⟩ := h u List.mem_cons_self
    rw [List.cons_append, spanTop_cons hstop hdepth, ih fun v hv => h v (List.mem_cons_of_mem _ hv)]
    rfl

theorem spanTop_stop {nesting : Nesting} {stop : Token → Bool} (h : stop t.token = true)
    (rest : Code) : spanTop nesting stop 0 (t :: rest) = ([], t :: rest) := by
  rw [spanTop, if_pos ⟨rfl, h⟩]

theorem IsBalanced.of_flat (h : ∀ u ∈ code, u.token ≠ .openParen ∧ u.token ≠ .closeParen) :
    IsBalanced code := by
  induction code with
  | nil => exact .nil
  | cons u code ih =>
    obtain ⟨hu, hcode⟩ := List.forall_mem_cons.1 h
    exact .token hu.1 hu.2 (ih hcode)

/-- Balanced code is inside of any open group. -/
theorem close?_append_of_balanced (h : IsBalanced code) {depth : Nat} (hdepth : 0 < depth)
    (rest : Code) :
    Bracket.paren.close? depth (code ++ rest) =
      (Bracket.paren.close? depth rest).map fun group =>
        { group with inside := code ++ group.inside } := by
  induction h generalizing depth rest with
  | nil => simp
  | @token t code hopen hclose _ ih =>
    have hopen : ¬t.token = Bracket.paren.opening := hopen
    have hclose : ¬t.token = Bracket.paren.closing := hclose
    rw [List.cons_append, Bracket.close?, if_neg hopen, if_neg hclose]
    dsimp only
    rw [ih hdepth, Option.map_map]
    rfl
  | @group p q inside code hp _ hq _ ihInside ih =>
    have hopen : p.token = Bracket.paren.opening := hp
    have hclose : q.token = Bracket.paren.closing := hq
    have hne : ¬q.token = Bracket.paren.opening := by
      rw [hq]
      decide
    have hdeep : ¬depth + 1 ≤ 1 := by omega
    rw [List.append_assoc, List.cons_append, Bracket.close?, if_pos hopen]
    dsimp only
    rw [ihInside (Nat.succ_pos depth), List.cons_append, Bracket.close?, if_neg hne, if_pos hclose,
      if_neg hdeep, Nat.succ_sub_one]
    dsimp only
    rw [ih hdepth, Option.map_map, Option.map_map, Option.map_map]
    simp [Function.comp_def]

theorem close?_append (h : IsBalanced inside) (hclose : close.token = .closeParen) (rest : Code) :
    Bracket.paren.close? 1 (inside ++ close :: rest) = some ⟨inside, close, rest⟩ := by
  have hclosing : close.token = Bracket.paren.closing := hclose
  have hne : ¬close.token = Bracket.paren.opening := by
    rw [hclose]
    decide
  rw [close?_append_of_balanced h Nat.one_pos, Bracket.close?, if_neg hne, if_pos hclosing]
  simp

theorem dropSemicolon_cons (h : semicolon.token = .semicolon) (rest : Code) :
    dropSemicolon (semicolon :: rest) = rest := by
  rw [dropSemicolon, Code.nextIs, Code.next?, List.head?_cons, Option.map_some, h]
  rfl

theorem nextIs_cons (t : CodeToken) (rest : Code) (token : Token) :
    Code.nextIs (t :: rest) token = (t.token == token) := rfl

/-! ## Types -/

namespace IsType

/-- There are only identifiers and stars in a type. -/
theorem forall_token (h : IsType type) {P : Token → Prop} (hident : P .ident) (hstar : P .star) :
    ∀ u ∈ type, P u.token := by
  obtain ⟨names, stars, rfl, -, hnames, hstars⟩ := h.split
  intro u hu
  rcases List.mem_append.1 hu with hu | hu
  · rwa [(hnames u hu).token]
  · rwa [hstars u hu]

/-- The same with a name behind the type. -/
theorem forall_token_name (h : IsType type) (hname : IsIdentifier name) {P : Token → Prop}
    (hident : P .ident) (hstar : P .star) : ∀ u ∈ type ++ [name], P u.token := by
  refine List.forall_mem_append.2 ⟨h.forall_token hident hstar, ?_⟩
  intro u hu
  rwa [List.mem_singleton.1 hu, hname.token]

/-- A type begins with an identifier. -/
theorem head (h : IsType type) : ∃ t more, type = t :: more ∧ IsIdentifier t := by
  obtain ⟨names, stars, rfl, hne, hnames, -⟩ := h.split
  obtain ⟨t, more, rfl⟩ := List.exists_cons_of_ne_nil hne
  exact ⟨t, more ++ stars, rfl, hnames t List.mem_cons_self⟩

theorem dropStorage_eq (h : IsType type) : dropStorage type = type := by
  obtain ⟨t, more, rfl, ht⟩ := h.head
  unfold dropStorage
  simp only [ht.notStorage, ht.notAttribute, Bool.false_eq_true, if_false]

end IsType

theorem readParenText_append (h : IsBalanced inside) (hclose : closeParen.token = .closeParen)
    (rest : Code) : readParenText (inside ++ closeParen :: rest) = (Code.line inside, rest) := by
  simp only [readParenText, close?_append h hclose]

/-- A type in parentheses is read up to its closing parenthesis. -/
theorem readType_parenType (h : IsParenType type) (rest : Code) :
    (readType (type ++ rest)).2 = rest := by
  obtain @⟨openParen, closeParen, inside, hopen, htype, hclose⟩ := h
  have hnext : Code.nextIs (openParen :: (inside ++ closeParen :: rest)) .openParen = true := by
    rw [nextIs_cons, hopen]
    rfl
  have hbalanced : IsBalanced inside := .of_flat <|
    htype.forall_token (P := fun token => token ≠ .openParen ∧ token ≠ .closeParen)
      (by decide) (by decide)
  rw [List.cons_append, List.cons_append, List.append_assoc, List.singleton_append, readType,
    if_pos hnext, List.tail_cons, readParenText_append hbalanced hclose]

/-! ## Members -/

/-- A part of a selector ends behind the name of its parameter. -/
theorem SelectorPart.read_name (htype : IsParenType type) (hname : IsIdentifier name)
    (hrest : rest.nextIs .colon = false) (keyword : Option String) (start : Nat) :
    ∃ part, SelectorPart.read keyword start (type ++ name :: rest) = (part, rest) ∧
      part.keyword = keyword := by
  have hread := readType_parenType htype (name :: rest)
  unfold SelectorPart.read
  dsimp only
  rw [hread]
  dsimp only
  rw [if_pos ⟨hname.token, by simp [hrest]⟩]
  exact ⟨_, rfl, rfl⟩

theorem selectorParts_semicolon (h : semicolon.token = .semicolon) (rest : Code) :
    selectorParts (semicolon :: rest) = ([], semicolon :: rest) := by
  rw [selectorParts, h]
  simp

/-- A keyword with its parameter is one part. -/
theorem selectorParts_keyword (hkeyword : IsIdentifier keyword) (hcolon : colon.token = .colon)
    (htype : IsParenType type) (hname : IsIdentifier name) (hrest : rest.nextIs .colon = false) :
    ∃ part, selectorParts (keyword :: colon :: (type ++ name :: rest)) =
        (part :: (selectorParts rest).1, (selectorParts rest).2) ∧
      part.spelling = keyword.word ++ ":" := by
  obtain ⟨part, hread, hpart⟩ :=
    SelectorPart.read_name htype hname hrest (some keyword.word) keyword.start
  have hident : ¬keyword.token = .colon := by
    rw [hkeyword.token]
    decide
  have hnext : keyword.token = .ident ∧
      Code.nextIs (colon :: (type ++ name :: rest)) .colon = true := by
    rw [nextIs_cons, hcolon]
    exact ⟨hkeyword.token, rfl⟩
  refine ⟨part, ?_, ?_⟩
  · rw [selectorParts, if_neg hident, if_pos hnext, List.tail_cons]
    dsimp only
    rw [hread]
  · rw [SelectorPart.spelling, hpart]
    rfl

/-- Parts do not begin with a colon. -/
theorem IsParts.nextIs_colon {spelling : String} (h : IsParts spelling code) (rest : Code) :
    Code.nextIs (code ++ rest) .colon = false := by
  cases h with
  | one hkeyword | more hkeyword => simp [nextIs_cons, hkeyword.token]

theorem selectorParts_append {spelling : String} (h : IsParts spelling code)
    (hsemicolon : semicolon.token = .semicolon) (rest : Code) :
    ∃ first parts, selectorParts (code ++ semicolon :: rest) = (first :: parts, semicolon :: rest) ∧
      String.join ((first :: parts).map SelectorPart.spelling) = spelling := by
  induction h with
  | one hkeyword hcolon htype hname =>
    have hnext : Code.nextIs (semicolon :: rest) .colon = false := by
      rw [nextIs_cons, hsemicolon]
      rfl
    obtain ⟨part, hparts, hspelling⟩ := selectorParts_keyword hkeyword hcolon htype hname hnext
    refine ⟨part, [], ?_, ?_⟩
    · simpa [selectorParts_semicolon hsemicolon] using hparts
    · simp [hspelling, String.join]
  | more hkeyword hcolon htype hname hmore ih =>
    obtain ⟨first, parts, hread, hjoin⟩ := ih
    obtain ⟨part, hparts, hspelling⟩ := selectorParts_keyword hkeyword hcolon htype hname
      (hmore.nextIs_colon (semicolon :: rest))
    refine ⟨part, first :: parts, ?_, ?_⟩
    · simpa [hread] using hparts
    · rw [List.map_cons, String.join_cons, hspelling, hjoin]

theorem readSelector_append {spelling : String} (h : IsSelector spelling code)
    (hsemicolon : semicolon.token = .semicolon) (rest : Code) :
    ∃ selector, readSelector (code ++ semicolon :: rest) = (some selector, semicolon :: rest) ∧
      selector.spelling = spelling := by
  cases h with
  | parts hparts =>
    obtain ⟨first, parts, hread, hjoin⟩ := selectorParts_append hparts hsemicolon rest
    simp only [readSelector, hread]
    exact ⟨_, rfl, hjoin⟩
  | @unary name hname =>
    have hread : selectorParts (name :: semicolon :: rest) = ([], name :: semicolon :: rest) := by
      rw [selectorParts, hname.token, nextIs_cons, hsemicolon]
      simp
    rw [List.singleton_append]
    simp only [readSelector, hread, hname.token, if_true]
    exact ⟨_, rfl, rfl⟩

theorem readVariadic_semicolon (h : semicolon.token = .semicolon) (rest : Code) :
    readVariadic (semicolon :: rest) = ([], semicolon :: rest) := by
  cases rest with
  | nil => rfl
  | cons t rest => simp [readVariadic, h]

theorem readMethod_append {flavor : Flavor} {spelling : String} (hsign : IsSign flavor sign)
    (htype : IsParenType type) (hselector : IsSelector spelling code)
    (hsemicolon : semicolon.token = .semicolon) (rest : Code) :
    ∃ cursor, readMethod sign (type ++ (code ++ semicolon :: rest)) = (.ok cursor, rest) ∧
      cursor.isMember = true ∧ cursor.key = .ofDeclaration .method spelling (some flavor) := by
  obtain ⟨selector, hread, hspelling⟩ := readSelector_append hselector hsemicolon rest
  have hafter : afterMethod (semicolon :: rest) = rest := by rw [afterMethod, hsemicolon]
  simp only [readMethod, readType_parenType htype, hread, readVariadic_semicolon hsemicolon, hafter]
  refine ⟨_, rfl, ?_⟩
  cases hsign with
  | minus h => simp [Cursor.isMember, Cursor.key, Cursor.declaredKind, Cursor.entityKind?,
      Cursor.flavor?, h, hspelling]
  | plus h => simp [Cursor.isMember, Cursor.key, Cursor.declaredKind, Cursor.entityKind?,
      Cursor.flavor?, h, hspelling]

/-- Nothing is wrapped where no parenthesis opens. -/
theorem Declarator.findWrapped?_eq_none (h : ∀ u ∈ code, u.token ≠ .openParen) :
    Declarator.findWrapped? code = none := by
  fun_induction Declarator.findWrapped? code with
  | case1 p mark name rest hwrapped => exact absurd hwrapped.1 (h p List.mem_cons_self)
  | case2 p mark name rest _ ih =>
    rw [ih fun u hu => h u (List.mem_cons_of_mem _ hu)]
    rfl
  | case3 => rfl

/-- A token wraps no name where it is no parenthesis, or where no mark of a pointer follows it. -/
theorem Declarator.findWrapped?_cons
    (h : t.token ≠ .openParen ∨ code.head?.any isPointerMark = false) :
    Declarator.findWrapped? (t :: code) =
      (Declarator.findWrapped? code).map (Declarator.prepend t) := by
  match code with
  | [] => rfl
  | [_] => rfl
  | mark :: name :: rest =>
    have hno : ¬(t.token = .openParen ∧ isPointerMark mark = true ∧ name.token = .ident) := by
      rintro ⟨hparen, hmark, -⟩
      rcases h with h | h
      · exact h hparen
      · rw [List.head?_cons, Option.any_some, hmark] at h
        cases h
    rw [Declarator.findWrapped?, if_neg hno]

/-- The search for a wrapped name goes past code without parentheses. -/
theorem Declarator.findWrapped?_skip (h : ∀ u ∈ front, u.token ≠ .openParen) :
    Declarator.findWrapped? (front ++ code) =
      (Declarator.findWrapped? code).map fun declarator =>
        { declarator with before := front ++ declarator.before } := by
  induction front with
  | nil => simp
  | cons u front ih =>
    obtain ⟨hu, hfront⟩ := List.forall_mem_cons.1 h
    rw [List.cons_append, Declarator.findWrapped?_cons (.inl hu), ih hfront, Option.map_map]
    rfl

/-- A name at the end is what is declared, where no name before it is wrapped. -/
theorem Declarator.find?_concat (hunwrapped : Declarator.findWrapped? (code ++ [name]) = none)
    (hname : IsIdentifier name) : Declarator.find? (code ++ [name]) = some ⟨code, name, []⟩ := by
  have hisName : Declarator.isName name [] = true := by
    rw [Declarator.isName, hname.token, hname.notAttribute, hname.notReserved]
    rfl
  rw [Declarator.find?, hunwrapped, Option.none_or, List.reverse_append, List.reverse_singleton,
    List.singleton_append, Declarator.findLast?, if_pos ⟨rfl, hisName⟩, List.reverse_reverse]

/-- A name behind a type is what it declares. -/
theorem Declarator.find?_typed (htype : IsType type) (hname : IsIdentifier name) :
    Declarator.find? (type ++ [name]) = some ⟨type, name, []⟩ := by
  have hopen : ∀ u ∈ type ++ [name], u.token ≠ .openParen :=
    htype.forall_token_name (P := (· ≠ .openParen)) hname (by decide) (by decide)
  exact Declarator.find?_concat (Declarator.findWrapped?_eq_none hopen) hname

theorem readProperty_append (hattributes : IsAttributes attributes) (htype : IsType type)
    (hname : IsIdentifier name) (hsemicolon : semicolon.token = .semicolon) (keyword : CodeToken)
    (rest : Code) :
    ∃ cursor, readProperty keyword (attributes ++ (type ++ name :: semicolon :: rest)) =
        (.ok cursor, rest) ∧
      cursor.isMember = true ∧ cursor.key = ⟨.property, name.word⟩ := by
  have hspan : spanTop .arguments endsProperty 0 (type ++ name :: semicolon :: rest) =
      (type ++ [name], semicolon :: rest) := by
    have hflat : ∀ u ∈ type ++ [name], ((0 : Nat) = 0 → endsProperty u.token = false) ∧
        Nesting.arguments.depthAfter 0 u.token = 0 :=
      htype.forall_token_name (P := fun token => (0 = 0 → endsProperty token = false) ∧
        Nesting.arguments.depthAfter 0 token = 0) hname (by decide) (by decide)
    have hstop : endsProperty semicolon.token = true := by rw [hsemicolon]; rfl
    rw [List.append_cons, spanTop_append_of_flat hflat, spanTop_stop hstop, List.append_nil]
  cases hattributes with
  | none =>
    obtain ⟨t, more, rfl, ht⟩ := htype.head
    have hnext : Code.nextIs (t :: (more ++ name :: semicolon :: rest)) .openParen = false := by
      rw [nextIs_cons, ht.token]
      rfl
    simp only [List.nil_append, List.cons_append] at hspan ⊢
    simp only [readProperty, readAttributes, hnext, Bool.false_eq_true, if_false, hspan]
    rw [← List.cons_append, Declarator.find?_typed htype hname, dropSemicolon_cons hsemicolon]
    exact ⟨_, rfl, rfl, rfl⟩
  | @some p q code hopen hbalanced hclose =>
    have hnext : Code.nextIs (p :: (code ++ q :: (type ++ name :: semicolon :: rest))) .openParen =
        true := by
      rw [nextIs_cons, hopen]
      rfl
    simp only [List.cons_append, List.append_assoc, List.nil_append]
    simp only [readProperty, readAttributes, hnext, if_true, List.tail_cons,
      readParenText_append hbalanced hclose, hspan, Declarator.find?_typed htype hname,
      dropSemicolon_cons hsemicolon]
    exact ⟨_, rfl, rfl, rfl⟩

theorem IsSign.token {flavor : Flavor} (h : IsSign flavor sign) :
    flavor = .ofInstances ∧ sign.token = .minus ∨ flavor = .ofClass ∧ sign.token = .plus := by
  cases h with
  | minus hminus => exact .inl ⟨rfl, hminus⟩
  | plus hplus => exact .inr ⟨rfl, hplus⟩

/-- A member is read as one cursor, and the members behind it as without it. -/
theorem readMembers_member {key : NodeKey} (h : IsMember key code) (opener : Nat) (rest : Code) :
    ∃ cursor, readMembers opener (code ++ rest) = (readMembers opener rest).prepend [cursor] ∧
      cursor.isMember = true ∧ cursor.key = key := by
  cases h with
  | @method sign semicolon type code flavor spelling hsign htype hselector hsemicolon =>
    obtain ⟨cursor, hread, hcursor⟩ := readMethod_append hsign htype hselector hsemicolon rest
    refine ⟨cursor, ?_, hcursor⟩
    have hcode : sign :: type ++ code ++ [semicolon] ++ rest =
        sign :: (type ++ (code ++ semicolon :: rest)) := by simp
    rw [hcode, readMembers_method (hsign.token.imp And.right And.right), hread]
    rfl
  | @property keyword name semicolon attributes type hkeyword hattributes htype hname hsemicolon =>
    obtain ⟨cursor, hread, hcursor⟩ :=
      readProperty_append hattributes htype hname hsemicolon keyword rest
    refine ⟨cursor, ?_, hcursor⟩
    have hcode : keyword :: attributes ++ type ++ [name, semicolon] ++ rest =
        keyword :: (attributes ++ (type ++ name :: semicolon :: rest)) := by simp
    rw [hcode, readMembers_property hkeyword.1 hkeyword.2, hread]
    rfl

theorem readMembers_append {keys : List NodeKey} (h : IsMembers keys code)
    (hclose : IsAt "@end" close) (opener : Nat) (rest : Code) :
    ∃ cursors, readMembers opener (code ++ close :: rest) = ⟨cursors, [], rest⟩ ∧
      cursors.map Cursor.key = keys ∧ ∀ cursor ∈ cursors, cursor.isMember = true := by
  induction h with
  | nil => exact ⟨[], readMembers_end hclose.1 hclose.2 opener rest, rfl, nofun⟩
  | @cons key keys front code hfront _ ih =>
    obtain ⟨cursors, hread, hkeys, hmembers⟩ := ih
    obtain ⟨cursor, hfirst, hmember, hkey⟩ :=
      readMembers_member hfront opener (code ++ close :: rest)
    refine ⟨cursor :: cursors, ?_, ?_, ?_⟩
    · rw [List.append_assoc, hfirst, hread]
      rfl
    · rw [List.map_cons, hkey, hkeys]
    · exact List.forall_mem_cons.2 ⟨hmember, hmembers⟩

/-! ## Containers -/

/-- The code is at the members of a container, or at its end. -/
def AtMembers (code : Code) : Prop :=
  ∃ t rest, code = t :: rest ∧ t.token ∈ [Token.atKeyword, .minus, .plus]

theorem IsMembers.atMembers {keys : List NodeKey} (h : IsMembers keys code)
    (hclose : IsAt "@end" close) (rest : Code) : AtMembers (code ++ close :: rest) := by
  cases h with
  | nil => exact ⟨close, rest, rfl, by simp [hclose.1]⟩
  | cons hfront =>
    cases hfront with
    | method hsign =>
      refine ⟨_, _, rfl, ?_⟩
      cases hsign with
      | minus h => simp [h]
      | plus h => simp [h]
    | property hkeyword => exact ⟨_, _, rfl, by simp [hkeyword.1]⟩

theorem AtMembers.nextIs_eq_false (h : AtMembers code) {token : Token}
    (hne : token ∉ [Token.atKeyword, .minus, .plus]) : code.nextIs token = false := by
  obtain ⟨t, rest, rfl, ht⟩ := h
  rw [nextIs_cons, beq_eq_false_iff_ne]
  rintro rfl
  exact hne ht

theorem nameList_append (h : IsNames code) (hgreater : greater.token = .greater) (rest : Code) :
    (nameList 1 (code ++ greater :: rest)).2 = rest := by
  have hend : nameList 1 (greater :: rest) = ([], rest) := by
    rw [nameList, hgreater]
    rfl
  induction h with
  | one ht =>
    rw [List.singleton_append, nameList, ht.token]
    dsimp only
    rw [hend]
  | more ht hcomma _ ih =>
    rw [List.cons_append, List.cons_append, nameList, ht.token]
    dsimp only
    rw [nameList, hcomma]
    exact ih

/-- Listed protocols are read up to the members, and none are where none are listed. -/
theorem readNames_append (h : IsProtocols front) (hcode : AtMembers code) :
    (readNames (front ++ code)).2 = code := by
  cases h with
  | none =>
    rw [List.nil_append, readNames, hcode.nextIs_eq_false (by decide)]
    rfl
  | @some less greater names hless hnames hgreater =>
    rw [List.append_assoc, List.cons_append, List.singleton_append, readNames, nextIs_cons, hless]
    show (nameList 0 (less :: (names ++ greater :: code))).2 = code
    rw [nameList, hless]
    exact nameList_append hnames hgreater code

theorem IsProtocols.nextIs_eq_false (h : IsProtocols front) (hcode : AtMembers code) {token : Token}
    (hne : token ∉ [Token.less, .atKeyword, .minus, .plus]) :
    Code.nextIs (front ++ code) token = false := by
  cases h with
  | none => exact hcode.nextIs_eq_false fun hmem => hne (List.mem_cons_of_mem _ hmem)
  | some hless =>
    rw [List.cons_append, List.cons_append, nextIs_cons, hless, beq_eq_false_iff_ne]
    rintro rfl
    exact hne List.mem_cons_self

theorem readSuperclass_of_nextIs (h : code.nextIs .colon = false) :
    readSuperclass code = (none, code) := by
  cases code with
  | nil => rfl
  | cons t rest =>
    rw [nextIs_cons, beq_eq_false_iff_ne] at h
    unfold readSuperclass
    dsimp only
    rw [if_neg h]

theorem afterVariables_of_atMembers (h : AtMembers code) : afterVariables code = code := by
  rw [afterVariables, h.nextIs_eq_false (by decide)]
  rfl

/-- The head of a class ends behind the protocols that it lists. -/
theorem readHead_interface {superclass protocols : Code} (hsuperclass : IsSuperclass superclass)
    (hprotocols : IsProtocols protocols) (hcode : AtMembers code) (extent : Nat)
    (name : CodeToken) :
    ∃ detail, readHead false extent name (superclass ++ (protocols ++ code)) =
      ({ kind := .interface, spelling := name.word, offset := name.start, extent, detail },
        code) := by
  have hparen : code.nextIs .openParen = false := hcode.nextIs_eq_false (by decide)
  have hcolon : code.nextIs .colon = false := hcode.nextIs_eq_false (by decide)
  have hless : readNames code = ([], code) := by
    rw [readNames, hcode.nextIs_eq_false (by decide)]
    rfl
  have hnames := readNames_append hprotocols hcode
  have hvariables := afterVariables_of_atMembers hcode
  cases hsuperclass with
  | none =>
    have hcategory : readCategory name code = (none, code) := by
      rw [readCategory, hparen]
      rfl
    simp only [List.nil_append, readHead, hnames, hcategory, readSuperclass_of_nextIs hcolon, hless,
      hvariables]
    exact ⟨_, rfl⟩
  | @some colon parent hcolon hparent =>
    have hgeneric : readNames (colon :: parent :: (protocols ++ code)) =
        ([], colon :: parent :: (protocols ++ code)) := by
      rw [readNames, nextIs_cons, hcolon]
      rfl
    have hcategory : readCategory name (colon :: parent :: (protocols ++ code)) =
        (none, colon :: parent :: (protocols ++ code)) := by
      rw [readCategory, nextIs_cons, hcolon]
      rfl
    have hparents : readSuperclass (colon :: parent :: (protocols ++ code)) =
        (some parent.word, protocols ++ code) := by
      simp only [readSuperclass, hcolon, hparent.token, if_true]
    simp only [List.cons_append, List.nil_append, readHead, hgeneric, hcategory, hparents, hnames,
      hvariables]
    exact ⟨_, rfl⟩

/-- The head of a category ends behind the protocols that it lists. -/
theorem readHead_category (inside : Code) {protocols : Code} {category : CategoryName}
    (hcategory : readCategory name (openParen :: inside ++ closeParen :: (protocols ++ code)) =
      (some category, protocols ++ code))
    (hopen : openParen.token = .openParen) (hprotocols : IsProtocols protocols)
    (hcode : AtMembers code) (extent : Nat) :
    ∃ detail : CursorDetail, readHead false extent name
        (openParen :: inside ++ closeParen :: (protocols ++ code)) =
        ({ kind := .category, spelling := category.spelling, offset := category.offset, extent,
           detail }, code) ∧
      detail.baseClass = some name.word := by
  have hgeneric : readNames (openParen :: inside ++ closeParen :: (protocols ++ code)) =
      ([], openParen :: inside ++ closeParen :: (protocols ++ code)) := by
    rw [List.cons_append, readNames, nextIs_cons, hopen]
    rfl
  have hcolon : Code.nextIs (protocols ++ code) .colon = false :=
    hprotocols.nextIs_eq_false hcode (by decide)
  simp only [readHead, hgeneric, hcategory, readSuperclass_of_nextIs hcolon,
    readNames_append hprotocols hcode, afterVariables_of_atMembers hcode]
  exact ⟨_, rfl, rfl⟩

/-- A category is called what stands between its parentheses. -/
theorem readCategory_named {category : CodeToken} (hopen : openParen.token = .openParen)
    (hcategory : IsIdentifier category) (hclose : closeParen.token = .closeParen)
    (owner : CodeToken) (rest : Code) :
    readCategory owner (openParen :: category :: closeParen :: rest) =
      (some ⟨category.word, category.start⟩, rest) := by
  simp [readCategory, nextIs_cons, hopen, hcategory.token, hclose, Option.filter]

theorem readCategory_unnamed (hopen : openParen.token = .openParen)
    (hclose : closeParen.token = .closeParen) (owner : CodeToken) (rest : Code) :
    readCategory owner (openParen :: closeParen :: rest) = (some ⟨"", owner.start⟩, rest) := by
  simp [readCategory, nextIs_cons, hopen, hclose, Option.filter]

end DeclDoc.Declaration
