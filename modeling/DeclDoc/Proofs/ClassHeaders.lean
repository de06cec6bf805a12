import DeclDoc.Proofs.MemberSequences
import DeclDoc.Proofs.Variables

/-!
# Class headers with angle brackets

Behind the name of a class stand its type parameters, and behind its superclass that class's type
arguments and the protocols; each is a list in angle brackets. One list is read behind the superclass
and taken for the protocols (`WrittenHeader.readHead_written`). Where it is that of the type arguments,
the protocols are left to the members: an `@`-keyword puts an end to them (`readMembers_list_keyword`),
and a method is swallowed with them (`readMembers_list_method`). So a header is read as it is written
exactly if it has no type arguments, or the same as it has protocols and no method behind it
(`scan_header`).
-/

set_option autoImplicit false

namespace DeclDoc.Declaration

/-! ## Headers as they are written -/

/-- Words, stars, colons and commas, and angle brackets that are nested, with the words outside of
these. -/
inductive IsAngled : (names : List String) → Code → Prop
  | nil : IsAngled [] []
  | name {t : CodeToken} {names : List String} {code : Code} : t.token = .ident →
      IsAngled names code → IsAngled (t.word :: names) (t :: code)
  | mark {t : CodeToken} {names : List String} {code : Code} :
      t.token ∈ [Token.star, .colon, .comma] → IsAngled names code → IsAngled names (t :: code)
  | group {less greater : CodeToken} {inner names : List String} {inside code : Code} :
      less.token = .less → IsAngled inner inside → greater.token = .greater → IsAngled names code →
      IsAngled names (less :: inside ++ greater :: code)

/-- A list in angle brackets; `names` are the words in it that stand outside of further ones. -/
structure AngleList where
  less : CodeToken
  inside : Code
  greater : CodeToken
  names : List String
  isLess : less.token = .less
  isInside : IsAngled names inside
  isGreater : greater.token = .greater

def AngleList.code (list : AngleList) : Code := list.less :: list.inside ++ [list.greater]

/-- The code of a list that may be missing. -/
def optionalList (list : Option AngleList) : Code := (list.map AngleList.code).getD []

/-- The header of a class with a superclass and protocols, and perhaps with type parameters and with
type arguments of the superclass. -/
structure WrittenHeader where
  keyword : CodeToken
  name : CodeToken
  parameters : Option AngleList
  colon : CodeToken
  superclass : CodeToken
  arguments : Option AngleList
  protocols : AngleList
  isKeyword : IsAt "@interface" keyword
  isName : name.token = .ident
  isColon : colon.token = .colon
  isSuperclass : superclass.token = .ident

namespace WrittenHeader

/-- What stands behind the superclass. -/
def lists (header : WrittenHeader) : Code := optionalList header.arguments ++ header.protocols.code

def code (header : WrittenHeader) : Code :=
  header.keyword :: header.name ::
    (optionalList header.parameters ++ header.colon :: header.superclass :: header.lists)

end WrittenHeader

variable {t close : CodeToken} {code front rest members : Code} {names : List String}

/-! ## Lists in angle brackets -/

/-- What stands in angle brackets is read to their end; the names one level deep are kept. -/
theorem nameList_angled (h : IsAngled names code) {depth : Nat} (hdepth : 0 < depth) (rest : Code) :
    nameList depth (code ++ rest) =
      ((if depth = 1 then names else []) ++ (nameList depth rest).1, (nameList depth rest).2) := by
  induction h generalizing depth rest with
  | nil => simp
  | @name t names code ht _ ih =>
    rw [List.cons_append, nameList, ht]
    dsimp only
    rw [ih hdepth]
    split <;> rfl
  | @mark t names code ht _ ih =>
    have hskip : nameList depth (t :: (code ++ rest)) = nameList depth (code ++ rest) := by
      simp only [List.mem_cons, List.not_mem_nil, or_false] at ht
      rcases ht with ht | ht | ht <;> rw [nameList, ht]
    rw [List.cons_append, hskip, ih hdepth]
  | @group less greater inner names inside code hless _ hgreater _ ihInside ih =>
    have hdeep : ¬depth + 1 = 1 := by omega
    have hclose : ¬depth + 1 ≤ 1 := by omega
    rw [List.append_assoc, List.cons_append, nameList, hless]
    dsimp only
    rw [ihInside (Nat.succ_pos depth), if_neg hdeep, List.nil_append, List.cons_append, nameList,
      hgreater]
    dsimp only
    rw [if_neg hclose, Nat.succ_sub_one, ih hdepth]

/-- Angle brackets are no brackets, and nothing between them ends a head or a method. -/
theorem IsAngled.forall_token (h : IsAngled names code) :
    ∀ u ∈ code, u.token ∈ [Token.ident, .star, .colon, .comma, .less, .greater] := by
  induction h with
  | nil => simp
  | name ht _ ih => exact List.forall_mem_cons.2 ⟨by simp [ht], ih⟩
  | mark ht _ ih =>
    refine List.forall_mem_cons.2 ⟨?_, ih⟩
    simp only [List.mem_cons, List.not_mem_nil, or_false] at ht ⊢
    rcases ht with ht | ht | ht <;> simp [ht]
  | group hless _ hgreater _ ihInside ih =>
    exact List.forall_mem_append.2 ⟨List.forall_mem_cons.2 ⟨by simp [hless], ihInside⟩,
      List.forall_mem_cons.2 ⟨by simp [hgreater], ih⟩⟩

namespace AngleList

variable (list : AngleList)

theorem readNames_append (rest : Code) : readNames (list.code ++ rest) = (list.names, rest) := by
  have hcode : list.code ++ rest = list.less :: (list.inside ++ list.greater :: rest) := by
    simp [code]
  have hclose : nameList 1 (list.greater :: rest) = ([], rest) := by
    rw [nameList, list.isGreater]
    rfl
  rw [hcode, readNames, nextIs_cons, list.isLess]
  show nameList 0 (list.less :: (list.inside ++ list.greater :: rest)) = _
  rw [nameList, list.isLess]
  dsimp only
  rw [nameList_angled list.isInside Nat.one_pos, hclose]
  simp

theorem isNested : IsNestedWithout headStops list.code := by
  refine .of_flat <| List.forall_mem_append.2 ⟨List.forall_mem_cons.2 ⟨?_, fun u hu => ?_⟩, ?_⟩
  · rw [list.isLess]
    decide
  · have := list.isInside.forall_token u hu
    revert this
    cases u.token <;> decide
  · rw [List.forall_mem_singleton, list.isGreater]
    decide

end AngleList

theorem readNames_optionalList (list : Option AngleList) (h : code.nextIs .less = false) :
    (readNames (optionalList list ++ code)).2 = code := by
  cases list with
  | some list =>
    show (readNames (list.code ++ code)).2 = code
    rw [list.readNames_append]
  | none =>
    show (readNames code).2 = code
    rw [readNames, h]
    rfl

/-! ## Lists among the members -/

theorem kind_of_mem_variablesOf {cursor : Cursor} (h : cursor ∈ variablesOf code) :
    cursor.kind = .variable := by
  unfold variablesOf at h
  split at h
  · cases h
  · split at h
    · cases h
    · rcases List.mem_cons.1 h with rfl | h
      · rfl
      · obtain ⟨part, -, hpart⟩ := List.mem_filterMap.1 h
        obtain ⟨declarator, -, rfl⟩ := Option.map_eq_some_iff.1 hpart
        rfl

/-- A plain declaration that ends with a semicolon is no member. -/
theorem not_isMember_of_terminated {cursor : Cursor} (h : cursor ∈ terminated code) :
    cursor.isMember = false := by
  unfold terminated at h
  split at h
  · cases h
  · split at h
    · obtain ⟨declarator, -, rfl⟩ := Option.map_eq_some_iff.1 (Option.mem_toList.1 h)
      rfl
    · split at h
      · cases h
      · split at h
        · next hfunction =>
          rw [List.mem_singleton.1 h, Cursor.isMember, kind_of_function? hfunction]
        · rw [Cursor.isMember, kind_of_mem_variablesOf h]

/-- A list in angle brackets among the members is read as the beginning of a plain declaration. -/
theorem readMembers_list (list : AngleList) (opener : Nat) (code : Code) :
    readMembers opener (list.code ++ code) =
      (readMembers opener (readPlain (list.code ++ code)).2).prepend
        (readPlain (list.code ++ code)).1 := by
  rw [AngleList.code, List.append_assoc, List.cons_append,
    readMembers_readPlain (by rw [list.isLess]; decide)]

/-- An `@`-keyword puts an end to it, and nothing is declared. -/
theorem readMembers_list_keyword (list : AngleList) (ht : t.token = .atKeyword) (opener : Nat)
    (rest : Code) :
    readMembers opener (list.code ++ t :: rest) = readMembers opener (t :: rest) := by
  have hspan := spanHead_nested list.isNested (by rw [ht]; rfl : endsHead t.token = true) rest
  have hplain : readPlain (list.code ++ t :: rest) = ([], t :: rest) := by
    unfold readPlain
    dsimp only
    rw [hspan]
    dsimp only
    rw [ht]
    rfl
  rw [readMembers_list, hplain]
  rfl

/-- A method behind it is read as a part of it. -/
theorem readMembers_list_method (list : AngleList) (h : IsMethod front) (opener : Nat)
    (rest : Code) :
    ∃ cursors : List Cursor, (∀ cursor ∈ cursors, cursor.isMember = false) ∧
      readMembers opener (list.code ++ (front ++ rest)) =
        (readMembers opener rest).prepend cursors := by
  obtain @⟨sign, t, semicolon, result, code, hsign, hresult, ht, hcode, hsemicolon⟩ := h
  have hresult : IsNestedWithout headStops result := by
    cases hresult with
    | none => exact .nil
    | some hp hinside hq =>
      exact .group (by exact hp : _ = Bracket.paren.opening) (by rw [hp]; decide) hinside hq .nil
  have hmethod : IsNestedWithout headStops (sign :: (result ++ t :: code)) := by
    refine .token ?_ ?_ (hresult.append (.token ?_ ?_ (hcode.mono ?_)))
    · rcases hsign with hsign | hsign <;> rw [hsign] <;> decide
    · rcases hsign with hsign | hsign <;> rw [hsign] <;> decide
    · rcases ht with ht | ht <;> rw [ht] <;> decide
    · rcases ht with ht | ht <;> rw [ht] <;> decide
    · intro token hout hstop
      exact hout ((by decide : ∀ token ∈ headStops, token ∈ methodStops) token hstop)
  have hspan := spanHead_nested (list.isNested.append hmethod)
    (by rw [hsemicolon]; rfl : endsHead semicolon.token = true) rest
  have hfront : list.code ++ (sign :: (result ++ t :: (code ++ [semicolon])) ++ rest) =
      list.code ++ sign :: (result ++ t :: code) ++ semicolon :: rest := by simp
  have hplain : readPlain (list.code ++ sign :: (result ++ t :: code) ++ semicolon :: rest) =
      (terminated (restart (list.code ++ sign :: (result ++ t :: code))), rest) := by
    unfold readPlain
    dsimp only
    rw [hspan]
    dsimp only
    rw [hsemicolon]
  rw [readMembers_list, hfront, hplain]
  exact ⟨_, fun cursor hc => not_isMember_of_terminated hc, rfl⟩

/-! ## Headers -/

/-- A class is scanned with the members behind its head. -/
theorem scan_head {keyword name : CodeToken} {head : Cursor} (hkeyword : IsAt "@interface" keyword)
    (hname : name.token = .ident)
    (hhead : readHead false keyword.start name code = (head, members)) :
    (scan (keyword :: name :: code)).cursors =
      { head with children := (readMembers keyword.start members).cursors } ::
        (scan (readMembers keyword.start members).rest).cursors := by
  rw [scan_atKeyword hkeyword.1, readAtKeyword_interface hkeyword hname, hhead]
  rfl

namespace WrittenHeader

variable (header : WrittenHeader)

/-- The list that is read as that of the protocols. -/
def taken : AngleList := header.arguments.getD header.protocols

/-- What is left of the header in front of the members. -/
def left : Code := if header.arguments.isSome then header.protocols.code else []

theorem lists_eq : header.lists = header.taken.code ++ header.left := by
  unfold lists taken left
  cases header.arguments <;> simp [optionalList]

/-- The class as it is read, with these members. -/
def asRead (members : List Cursor) : Cursor where
  kind := .interface
  spelling := header.name.word
  offset := header.name.start
  extent := header.keyword.start
  detail := { superclass := some header.superclass.word, protocols := header.taken.names }
  children := members

theorem readHead_written (hcode : AtMembers code) (extent : Nat) :
    readHead false extent header.name
        (optionalList header.parameters ++
          header.colon :: header.superclass :: (header.lists ++ code)) =
      ({ header.asRead [] with extent }, header.left ++ code) := by
  have hcolon (more : Code) (token : Token) (hne : token ≠ .colon) :
      Code.nextIs (header.colon :: more) token = false := by
    rw [nextIs_cons, header.isColon, beq_eq_false_iff_ne]
    exact hne.symm
  have hparameters := readNames_optionalList header.parameters
    (hcolon (header.superclass :: (header.lists ++ code)) .less (by decide))
  have hcategory : readCategory header.name
      (header.colon :: header.superclass :: (header.lists ++ code)) =
        (none, header.colon :: header.superclass :: (header.lists ++ code)) := by
    rw [readCategory, hcolon _ _ (by decide)]
    rfl
  have hsuperclass : readSuperclass
      (header.colon :: header.superclass :: (header.lists ++ code)) =
        (some header.superclass.word, header.lists ++ code) := by
    simp only [readSuperclass, header.isColon, header.isSuperclass, if_true]
  have hlists : readNames (header.lists ++ code) = (header.taken.names, header.left ++ code) := by
    rw [lists_eq, List.append_assoc, AngleList.readNames_append]
  have hvariables : afterVariables (header.left ++ code) = header.left ++ code := by
    unfold left
    split
    · have hless : Code.nextIs (header.protocols.code ++ code) .openBrace = false := by
        rw [AngleList.code, List.append_assoc, List.cons_append, nextIs_cons,
          header.protocols.isLess]
        rfl
      rw [afterVariables, hless]
      rfl
    · exact afterVariables_of_atMembers hcode
  have hnext : Code.nextIs (header.colon :: header.superclass :: (header.lists ++ code)) .colon =
      true := by
    rw [nextIs_cons, header.isColon]
    rfl
  simp only [readHead, hparameters, hcategory, hsuperclass, hlists, hvariables, hnext]
  rfl

/-- A class is read with its members as they are read behind what is left of its header. -/
theorem scan_written (hcode : AtMembers code) :
    (scan (header.code ++ code)).cursors =
      header.asRead (readMembers header.keyword.start (header.left ++ code)).cursors ::
        (scan (readMembers header.keyword.start (header.left ++ code)).rest).cursors := by
  have hheader : header.code ++ code = header.keyword :: header.name ::
      (optionalList header.parameters ++
        header.colon :: header.superclass :: (header.lists ++ code)) := by
    simp [WrittenHeader.code]
  rw [hheader, scan_head header.isKeyword header.isName
    (header.readHead_written hcode header.keyword.start)]
  rfl

end WrittenHeader

/-- A class without anything behind its name is read with its members. -/
theorem scan_bare {keyword name : CodeToken} (hkeyword : IsAt "@interface" keyword)
    (hname : name.token = .ident) (hcode : AtMembers code) :
    ∃ plain : Cursor, (scan (keyword :: name :: code)).cursors =
        plain :: (scan (readMembers keyword.start code).rest).cursors ∧
      plain.children = (readMembers keyword.start code).cursors := by
  obtain ⟨detail, hhead⟩ := readHead_interface .none .none hcode keyword.start name
  rw [List.nil_append, List.nil_append] at hhead
  exact ⟨_, scan_head hkeyword hname hhead, rfl⟩

/-- Behind what is left of a header the same code is left of the container, and the members are the
same iff nothing is left or the first one is no method. -/
theorem WrittenHeader.readMembers_left (header : WrittenHeader) (h : IsMemberSequence members)
    (hclose : IsAt "@end" close) (e : Shift) (opener other : Nat) (rest : Code) :
    (readMembers opener (header.left ++ (members ++ close :: rest).map e.apply)).rest =
        (readMembers other (members ++ close :: rest)).rest.map e.apply ∧
      ((readMembers opener (header.left ++ (members ++ close :: rest).map e.apply)).cursors =
          (readMembers other (members ++ close :: rest)).cursors.map (Cursor.shift e.amount) ↔
        ∀ arguments ∈ header.arguments, ∀ t ∈ members.head?, t.token = .atKeyword) := by
  have hmoved := readMembers_moved e opener other (members ++ close :: rest)
  cases harguments : header.arguments with
  | none =>
    have hleft : header.left = [] := by simp [left, harguments]
    rw [hleft, List.nil_append]
    exact ⟨hmoved.2, iff_of_true hmoved.1 (by simp)⟩
  | some arguments =>
    have hleft : header.left = header.protocols.code := by simp [left, harguments]
    rw [hleft]
    rcases h.begins hclose rest with ⟨t, more, hcode, ht, hfirst⟩ | ⟨front, more, hcode, hfront, hfirst⟩
    · rw [hcode] at hmoved ⊢
      rw [List.map_cons, readMembers_list_keyword header.protocols (by rwa [e.token])]
      exact ⟨hmoved.2, iff_of_true hmoved.1 fun _ _ => hfirst⟩
    · obtain ⟨cursors, hcursors, hread⟩ := readMembers_list_method header.protocols
        (hfront.map e.toRelabel) opener (more.map e.apply)
      obtain ⟨method, hmethod, hmember⟩ := hfront.readMembers_append other more
      have hmore := readMembers_moved e opener other more
      rw [hcode, List.map_append, hread, hmethod]
      refine ⟨hmore.2, iff_of_false (fun heq => ?_) fun hall => hfirst (hall arguments rfl)⟩
      -- in the place of the method there would be a plain declaration
      have hsplit : cursors ++ (readMembers opener (more.map e.apply)).cursors =
          [method.shift e.amount] ++ (readMembers other more).cursors.map (Cursor.shift e.amount) := heq
      rw [hmore.1] at hsplit
      have hmem := List.append_cancel_right hsplit
      have hplain := hcursors (method.shift e.amount) (by rw [hmem]; exact List.mem_singleton_self _)
      cases method
      rw [Cursor.shift_mk] at hplain
      rw [Cursor.isMember] at hplain hmember
      rw [hmember] at hplain
      cases hplain

/-- A class header with a superclass and protocols names the class and its superclass. It lists the
protocols, and the class has the members that it has without the rest of the header, further on in the
source, iff the superclass has no type arguments, or arguments with the names of the protocols and the
first member is no method. -/
theorem scan_header (header : WrittenHeader) {keyword name : CodeToken}
    (hkeyword : IsAt "@interface" keyword) (hname : name.token = .ident)
    (hmembers : IsMemberSequence members) (hclose : IsAt "@end" close) (n : Nat) (rest : Code) :
    ∃ (plain cursor : Cursor) (later : List Cursor),
      (scan (keyword :: name :: (members ++ close :: rest))).cursors = plain :: later ∧
      (scan (header.code ++ (members ++ close :: rest).map (Shift.of n).apply)).cursors =
        cursor :: later.map (Cursor.shift n) ∧
      cursor.kind = .interface ∧ cursor.spelling = header.name.word ∧
      cursor.detail.superclass = some header.superclass.word ∧
      (cursor.detail.protocols = header.protocols.names ∧
          cursor.children = plain.children.map (Cursor.shift n) ↔
        ∀ arguments ∈ header.arguments, arguments.names = header.protocols.names ∧
          ∀ t ∈ members.head?, t.token = .atKeyword) := by
  obtain ⟨hat, hmoved⟩ := hmembers.atMembers hclose (Shift.of n).toRelabel rest
  obtain ⟨plain, hplain, hchildren⟩ := scan_bare hkeyword hname hat
  obtain ⟨hrest, hsame⟩ := header.readMembers_left hmembers hclose (Shift.of n) header.keyword.start
    keyword.start rest
  have hcursor := header.scan_written hmoved
  rw [hrest, scan_shift] at hcursor
  refine ⟨plain, _, _, hplain, hcursor, rfl, rfl, rfl, ?_⟩
  rw [hchildren]
  refine (and_congr_right fun _ => hsame).trans ?_
  show header.taken.names = header.protocols.names ∧ _ ↔ _
  unfold WrittenHeader.taken
  cases header.arguments with
  | none => simp
  | some arguments => simp

/-- The list `<word>`. -/
def oneWord (word : String) : AngleList where
  less := looseToken .less "<"
  inside := [looseToken .ident word]
  greater := looseToken .greater ">"
  names := [(looseToken .ident word).word]
  isLess := rfl
  isInside := .name rfl .nil
  isGreater := rfl

/-- The header `@interface C : S<A> <P>`. -/
def appliedHeader : WrittenHeader where
  keyword := looseToken .atKeyword "@interface"
  name := looseToken .ident "C" " "
  parameters := none
  colon := looseToken .colon ":" " "
  superclass := looseToken .ident "S" " "
  arguments := some (oneWord "A")
  protocols := oneWord "P"
  isKeyword := ⟨rfl, by decide⟩
  isName := rfl
  isColon := rfl
  isSuperclass := rfl

/-- The method `- (void)m;`. -/
def voidMethod : Code :=
  [looseToken .minus "-", looseToken .openParen "(", looseToken .ident "void",
    looseToken .closeParen ")", looseToken .ident "m", looseToken .semicolon ";"]

/-- The type arguments are taken for the protocols, and the method is lost behind those. -/
theorem scan_header_applied :
    ∃ (plain cursor : Cursor) (later : List Cursor),
      (scan (looseToken .atKeyword "@interface" :: looseToken .ident "C" ::
        (voidMethod ++ [looseToken .atKeyword "@end"]))).cursors = plain :: later ∧
      (scan (appliedHeader.code ++
        (voidMethod ++ [looseToken .atKeyword "@end"]).map (Shift.of 11).apply)).cursors =
          cursor :: later.map (Cursor.shift 11) ∧
      cursor.detail.protocols = ["A"] ∧
      plain.children.map Cursor.kind = [.instanceMethod] ∧
      cursor.children.map Cursor.kind = [.variable] ∧
      ¬(cursor.detail.protocols = appliedHeader.protocols.names ∧
        cursor.children = plain.children.map (Cursor.shift 11)) := by
  have hinside : IsNested (fun _ => True) [looseToken .ident "void"] :=
    .token (by decide) trivial .nil
  have hnested : IsNestedWithout methodStops [] := .nil
  have hmethod : IsMethod voidMethod := .mk (.inl rfl) (.some rfl hinside rfl) (.inl rfl) hnested rfl
  have hkeyword : IsAt "@interface" (looseToken .atKeyword "@interface") := ⟨rfl, by decide⟩
  have hname : (looseToken .ident "C").token = .ident := rfl
  have hclose : IsAt "@end" (looseToken .atKeyword "@end") := ⟨rfl, by decide⟩
  obtain ⟨plain, cursor, later, hplain, hcursor, -, -, -, hexact⟩ :=
    scan_header appliedHeader hkeyword hname (.method hmethod .nil) hclose 11 []
  have hmembers : (scan (looseToken .atKeyword "@interface" :: looseToken .ident "C" ::
      (voidMethod ++ [looseToken .atKeyword "@end"]))).cursors.map
        (·.children.map Cursor.kind) = [[.instanceMethod]] := by decide +kernel
  have hread : (scan (appliedHeader.code ++
      (voidMethod ++ [looseToken .atKeyword "@end"]).map (Shift.of 11).apply)).cursors.map
        (fun cursor => (cursor.detail.protocols, cursor.children.map Cursor.kind)) =
          [(["A"], [.variable])] := by decide +kernel
  rw [List.append_nil] at hplain hcursor hexact
  rw [hplain, List.map_cons] at hmembers
  rw [hcursor, List.map_cons] at hread
  obtain ⟨hchild, -⟩ := List.cons.inj hmembers
  obtain ⟨hfirst, -⟩ := List.cons.inj hread
  obtain ⟨hprotocols, hchildren⟩ := Prod.mk.inj hfirst
  refine ⟨plain, cursor, later, hplain, hcursor, hprotocols, hchild, hchildren, fun h => ?_⟩
  exact absurd (hexact.1 h (oneWord "A") rfl).1 (by decide)

end DeclDoc.Declaration
