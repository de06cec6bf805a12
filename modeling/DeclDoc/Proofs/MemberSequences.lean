import DeclDoc.Proofs.Nested
import DeclDoc.Proofs.Shift

/-!
# Methods and properties, one behind the other

A method with a selector is read to its semicolon, whatever is nested in it (`IsMethod.readMembers_append`):
each reader leaves nested code in front of the same semicolon (`InMethod`). Where the container begins
makes no difference to its members, and further on in the source the same are read
(`readMembers_moved`).
-/

set_option autoImplicit false

namespace DeclDoc.Declaration

/-- The result of a method in parentheses, if it is given. -/
inductive IsResult : Code → Prop
  | none : IsResult []
  | some {p q : CodeToken} {inside : Code} : p.token = .openParen →
      IsNested (fun _ => True) inside → q.token = .closeParen → IsResult (p :: inside ++ [q])

/-- What ends or interrupts a method, and square brackets. -/
def methodStops : List Token :=
  [.semicolon, .openBrace, .openBracket, .atKeyword, .directive, .minus, .plus]

/-- A sign, the type of a result, a selector that begins with a word or a colon, anything behind it
that is nested, and a semicolon. -/
inductive IsMethod : Code → Prop
  | mk {sign t semicolon : CodeToken} {result code : Code} :
      sign.token = .minus ∨ sign.token = .plus → IsResult result →
      t.token = .ident ∨ t.token = .colon → IsNestedWithout methodStops code →
      semicolon.token = .semicolon → IsMethod (sign :: (result ++ t :: (code ++ [semicolon])))

/-- The keyword of a property and anything up to a semicolon. -/
inductive IsProperty : Code → Prop
  | mk {keyword semicolon : CodeToken} {code : Code} : IsAt "@property" keyword →
      IsNestedWithout [.semicolon, .atKeyword, .minus, .plus] code → semicolon.token = .semicolon →
      IsProperty (keyword :: (code ++ [semicolon]))

/-- Methods and properties, one behind the other. -/
inductive IsMemberSequence : Code → Prop
  | nil : IsMemberSequence []
  | method {front code : Code} : IsMethod front → IsMemberSequence code →
      IsMemberSequence (front ++ code)
  | property {front code : Code} : IsProperty front → IsMemberSequence code →
      IsMemberSequence (front ++ code)

variable {t close : CodeToken} {code front rest members : Code}

/-! ## Methods -/

/-- The code is in a method whose semicolon stands before `rest`: what is left of the method is
nested. -/
def InMethod (rest code : Code) : Prop :=
  ∃ front semicolon, IsNestedWithout methodStops front ∧ semicolon.token = .semicolon ∧
    code = front ++ semicolon :: rest

namespace InMethod

/-- Taking a token that is no bracket stays in the method. -/
theorem tail (h : InMethod rest (t :: code)) (hplain : IsNoBracket t.token)
    (ht : t.token ≠ .semicolon) : InMethod rest code := by
  obtain ⟨front, semicolon, hfront, hsemicolon, hcode⟩ := h
  cases front with
  | nil =>
    obtain ⟨rfl, -⟩ := List.cons.inj hcode
    exact absurd hsemicolon ht
  | cons u front =>
    obtain ⟨rfl, rfl⟩ := List.cons.inj hcode
    exact ⟨front, semicolon, hfront.cons_inv.2 hplain, hsemicolon, rfl⟩

theorem tail_ident (h : InMethod rest (t :: code)) (ht : t.token = .ident) : InMethod rest code :=
  h.tail (by rw [ht]; decide) (by rw [ht]; decide)

theorem readType (h : InMethod rest code) : InMethod rest (readType code).2 := by
  obtain ⟨front, semicolon, hfront, hsemicolon, rfl⟩ := h
  rw [Declaration.readType]
  split
  · next hopen =>
    cases hfront with
    | nil =>
      rw [List.nil_append, nextIs_cons, hsemicolon] at hopen
      cases hopen
    | token hplain =>
      rw [List.cons_append, nextIs_cons, beq_iff_eq] at hopen
      rw [hopen] at hplain
      exact absurd hplain (by decide)
    | @group _ bracket p q inside code hp hout hinside hq hcode =>
      rw [List.cons_append, List.cons_append, nextIs_cons, beq_iff_eq] at hopen
      obtain rfl : bracket = .paren := Bracket.opening_inj (hp.symm.trans hopen)
      have hgroup : p :: inside ++ q :: code ++ semicolon :: rest =
          p :: (inside ++ q :: (code ++ semicolon :: rest)) := by simp
      rw [hgroup, List.tail_cons, readParenText_append hinside.isBalanced hq]
      exact ⟨code, semicolon, hcode, hsemicolon, rfl⟩
  · exact ⟨front, semicolon, hfront, hsemicolon, rfl⟩

theorem readPart (h : InMethod rest code) (keyword : Option String) (start : Nat) :
    InMethod rest (SelectorPart.read keyword start code).2 := by
  have htype := h.readType
  unfold SelectorPart.read
  dsimp only
  split
  · next t more heq =>
    rw [heq] at htype
    split
    · next hname => exact htype.tail_ident hname.1
    · exact htype
  · next heq => rwa [heq] at htype

theorem selectorParts (h : InMethod rest code) : InMethod rest (selectorParts code).2 := by
  fun_induction Declaration.selectorParts code with
  | case1 t code hcolon part more ih =>
    exact ih ((h.tail (by rw [hcolon]; decide) (by rw [hcolon]; decide)).readPart none t.start)
  | case2 t code hcolon hkeyword part more ih =>
    have hbehind := h.tail_ident hkeyword.1
    cases code with
    | nil => exact absurd hkeyword.2 (by decide)
    | cons colon code =>
      have hcolon : colon.token = .colon := by simpa [nextIs_cons] using hkeyword.2
      exact ih ((hbehind.tail (by rw [hcolon]; decide) (by rw [hcolon]; decide)).readPart _ _)
  | case3 => exact h
  | case4 => exact h

theorem readVariadic (h : InMethod rest code) : InMethod rest (readVariadic code).2 := by
  unfold Declaration.readVariadic
  split
  · next c e more =>
    split
    · next hmarks =>
      obtain ⟨hc, he⟩ := hmarks
      exact (h.tail (by rw [hc]; decide) (by rw [hc]; decide)).tail (by rw [he]; decide)
        (by rw [he]; decide)
    · exact h
  · exact h

theorem cons (h : InMethod rest code) (ht : t.token = .ident ∨ t.token = .colon) :
    InMethod rest (t :: code) := by
  obtain ⟨front, semicolon, hfront, hsemicolon, rfl⟩ := h
  refine ⟨t :: front, semicolon, .token ?_ ?_ hfront, hsemicolon, rfl⟩
  · rcases ht with ht | ht <;> rw [ht] <;> decide
  · rcases ht with ht | ht <;> rw [ht] <;> decide

/-- What begins with a word or a colon has a selector. -/
theorem readSelector (h : InMethod rest code) (ht : t.token = .ident ∨ t.token = .colon) :
    ∃ selector, (readSelector (t :: code)).1 = some selector ∧
      InMethod rest (readSelector (t :: code)).2 := by
  have hparts := (h.cons ht).selectorParts
  unfold Declaration.readSelector
  dsimp only
  split
  · exact ⟨_, rfl, hparts⟩
  · next u more hnone heq =>
    -- a selector without parts is a word alone
    rw [Declaration.selectorParts] at hnone heq
    split at hnone
    · cases hnone
    · next hcolon =>
      have hident := ht.resolve_right hcolon
      split at hnone
      · cases hnone
      · next hkeyword =>
        rw [if_neg hcolon, if_neg hkeyword] at heq
        obtain ⟨rfl, rfl⟩ := List.cons.inj heq
        rw [if_pos hident]
        exact ⟨_, rfl, h⟩
  · next hnil =>
    obtain ⟨front, semicolon, -, -, hcode⟩ := hparts
    rw [hnil] at hcode
    simp at hcode

/-- Nested code is passed over up to the semicolon. -/
theorem afterMethod (h : InMethod rest code) : afterMethod code = rest := by
  obtain ⟨front, semicolon, hfront, hsemicolon, rfl⟩ := h
  unfold IsNestedWithout at hfront
  generalize houtside : (fun token : Token => token ∉ methodStops) = outside at hfront
  induction hfront with
  | nil => rw [List.nil_append, Declaration.afterMethod, hsemicolon]
  | @token _ t code hplain hout _ ih =>
    subst houtside
    rw [List.cons_append, Declaration.afterMethod]
    cases htoken : t.token <;> rw [htoken] at hplain hout <;>
      first | exact ih rfl | exact absurd (by decide) hout | exact absurd hplain (by decide)
  | @group _ bracket p q inside code hp hout hinside hq _ _ ih =>
    subst houtside
    have hgroup : p :: inside ++ q :: code ++ semicolon :: rest =
        p :: (inside ++ q :: (code ++ semicolon :: rest)) := by simp
    cases bracket with
    | paren =>
      rw [hgroup, Declaration.afterMethod, hp]
      dsimp only [Bracket.opening]
      rw [skip_paired (hinside.isPaired .paren) hq, ih rfl]
    | square | brace =>
      rw [hp] at hout
      exact absurd (by decide) hout

/-- A method with a selector is read to its semicolon. -/
theorem readMethod (h : InMethod rest code) {sign : CodeToken} {result : Code}
    (hsign : sign.token = .minus ∨ sign.token = .plus) (hresult : IsResult result)
    (ht : t.token = .ident ∨ t.token = .colon) :
    ∃ cursor : Cursor, readMethod sign (result ++ t :: code) = (.ok cursor, rest) ∧
      cursor.isMember = true := by
  have htype : (Declaration.readType (result ++ t :: code)).2 = t :: code := by
    cases hresult with
    | none =>
      have hopen : Code.nextIs (t :: code) .openParen = false := by
        rw [nextIs_cons]
        rcases ht with ht | ht <;> rw [ht] <;> rfl
      rw [List.nil_append, Declaration.readType, hopen]
      rfl
    | @some p q inside hp hinside hq =>
      have hopen : Code.nextIs (p :: (inside ++ q :: t :: code)) .openParen = true := by
        rw [nextIs_cons, hp]
        rfl
      rw [List.append_assoc, List.cons_append, List.singleton_append, Declaration.readType, if_pos hopen,
        List.tail_cons, readParenText_append hinside.isBalanced hq]
  obtain ⟨selector, hselector, hleft⟩ := h.readSelector ht
  simp only [Declaration.readMethod, htype, hselector, hleft.readVariadic.afterMethod]
  refine ⟨_, rfl, ?_⟩
  rcases hsign with hsign | hsign <;> simp [Cursor.isMember, hsign]

end InMethod

/-! ## Members -/

namespace IsMethod

/-- A method is read as one member. -/
theorem readMembers_append (h : IsMethod front) (opener : Nat) (rest : Code) :
    ∃ cursor : Cursor, readMembers opener (front ++ rest) = (readMembers opener rest).prepend [cursor] ∧
      cursor.isMember = true := by
  obtain @⟨sign, t, semicolon, result, code, hsign, hresult, ht, hcode, hsemicolon⟩ := h
  have hmethod : InMethod rest (code ++ semicolon :: rest) :=
    ⟨code, semicolon, hcode, hsemicolon, rfl⟩
  obtain ⟨cursor, hread, hmember⟩ := hmethod.readMethod hsign hresult ht
  refine ⟨cursor, ?_, hmember⟩
  have hfront : sign :: (result ++ t :: (code ++ [semicolon])) ++ rest =
      sign :: (result ++ t :: (code ++ semicolon :: rest)) := by simp
  rw [hfront, readMembers_method hsign, hread]
  rfl

end IsMethod

/-- Where a container begins matters only for what is said of a missing end. -/
theorem readMembers_opener (opener other : Nat) (code : Code) :
    (readMembers opener code).cursors = (readMembers other code).cursors ∧
      (readMembers opener code).rest = (readMembers other code).rest := by
  have hprepend {cursors : List Cursor} {scanned scanned' : Scanned}
      (h : scanned.cursors = scanned'.cursors ∧ scanned.rest = scanned'.rest) :
      (scanned.prepend cursors).cursors = (scanned'.prepend cursors).cursors ∧
        (scanned.prepend cursors).rest = (scanned'.prepend cursors).rest :=
    ⟨congrArg (cursors ++ ·) h.1, h.2⟩
  have hmember {start : Nat} {member : Except Fault Cursor} {scanned scanned' : Scanned}
      (h : scanned.cursors = scanned'.cursors ∧ scanned.rest = scanned'.rest) :
      (scanned.prependMember start member).cursors = (scanned'.prependMember start member).cursors ∧
        (scanned.prependMember start member).rest =
          (scanned'.prependMember start member).rest := by
    cases member with
    | ok cursor => exact hprepend h
    | error fault => exact h
  induction code using readMembers_induction with
  | nil =>
    rw [readMembers_nil, readMembers_nil]
    exact ⟨rfl, rfl⟩
  | close t rest ht hword =>
    rw [readMembers_end ht hword, readMembers_end ht hword]
    exact ⟨rfl, rfl⟩
  | property t rest ht hword ih =>
    rw [readMembers_property ht hword, readMembers_property ht hword]
    exact hmember ih
  | opens t rest ht hword =>
    rw [readMembers_opens ht hword, readMembers_opens ht hword]
    exact ⟨rfl, rfl⟩
  | statement t rest ht hword ih =>
    rwa [readMembers_statement ht hword, readMembers_statement ht hword]
  | keyword t rest ht hword ih =>
    rwa [readMembers_keyword ht hword, readMembers_keyword ht hword]
  | method t rest ht ih =>
    rw [readMembers_method ht, readMembers_method ht]
    exact hmember ih
  | braces t rest ht ih => rwa [readMembers_braces ht, readMembers_braces ht]
  | directive t rest ht ih =>
    rw [readMembers_directive ht, readMembers_directive ht]
    exact hprepend ih
  | separator t rest ht ih => rwa [readMembers_separator ht, readMembers_separator ht]
  | plain t rest ht ih =>
    rw [readMembers_readPlain ht, readMembers_readPlain ht]
    exact hprepend ih

/-- Members that begin further on are the same, shifted, wherever their container begins. -/
theorem readMembers_moved (e : Shift) (opener other : Nat) (code : Code) :
    (readMembers opener (code.map e.apply)).cursors =
        (readMembers other code).cursors.map (Cursor.shift e.amount) ∧
      (readMembers opener (code.map e.apply)).rest = (readMembers other code).rest.map e.apply := by
  have hsame := readMembers_opener opener (other + e.amount) (code.map e.apply)
  rwa [readMembers_shift] at hsame

/-! ## Sequences -/

/-- Labels make no difference to nested code. -/
theorem IsNested.map {outside : Token → Prop} (h : IsNested outside code) (e : Relabel) :
    IsNested outside (code.map e.apply) := by
  induction h with
  | nil => exact .nil
  | token hplain hout _ ih =>
    exact .token (by rwa [e.token]) (by rwa [e.token]) ih
  | @group outside bracket p q inside code hp hout _ hq _ ihInside ih =>
    rw [List.map_append, List.map_cons, List.map_cons]
    exact .group (by rwa [e.token]) (by rwa [e.token]) ihInside (by rwa [e.token]) ih

theorem IsMethod.map (h : IsMethod front) (e : Relabel) : IsMethod (front.map e.apply) := by
  obtain @⟨sign, t, semicolon, result, code, hsign, hresult, ht, hcode, hsemicolon⟩ := h
  have hresult : IsResult (result.map e.apply) := by
    cases hresult with
    | none => exact .none
    | some hp hinside hq =>
      rw [List.map_append, List.map_cons]
      exact .some (by rwa [e.token]) (hinside.map e) (by rwa [e.token])
  rw [List.map_cons, List.map_append, List.map_cons, List.map_append]
  exact .mk (by rwa [e.token]) hresult (by rwa [e.token]) (hcode.map e) (by rwa [e.token])

/-- The members of a container, up to its end, begin with an `@`-keyword or with a method. -/
theorem IsMemberSequence.begins (h : IsMemberSequence members) (hclose : IsAt "@end" close)
    (rest : Code) :
    (∃ t more, members ++ close :: rest = t :: more ∧ t.token = .atKeyword ∧
        ∀ u ∈ members.head?, u.token = .atKeyword) ∨
      ∃ front more, members ++ close :: rest = front ++ more ∧ IsMethod front ∧
        ¬∀ u ∈ members.head?, u.token = .atKeyword := by
  cases h with
  | nil => exact .inl ⟨close, rest, rfl, hclose.1, nofun⟩
  | @method front code hfront _ =>
    refine .inr ⟨front, code ++ close :: rest, List.append_assoc .., hfront, ?_⟩
    obtain @⟨sign, _, _, _, _, hsign, -⟩ := hfront
    intro hall
    have hkeyword : sign.token = .atKeyword := hall sign rfl
    rcases hsign with hsign | hsign <;> rw [hsign] at hkeyword <;> cases hkeyword
  | @property front code hfront _ =>
    obtain @⟨keyword, semicolon, inside, hkeyword, -, -⟩ := hfront
    refine .inl ⟨keyword, inside ++ semicolon :: (code ++ close :: rest), by simp, hkeyword.1, ?_⟩
    intro u hu
    obtain rfl : keyword = u := Option.some.inj hu
    exact hkeyword.1

theorem IsMemberSequence.atMembers (h : IsMemberSequence members) (hclose : IsAt "@end" close)
    (e : Relabel) (rest : Code) :
    AtMembers (members ++ close :: rest) ∧
      AtMembers ((members ++ close :: rest).map e.apply) := by
  obtain ⟨t, more, hcode, ht⟩ : AtMembers (members ++ close :: rest) := by
    rcases h.begins hclose rest with ⟨t, more, hcode, ht, -⟩ | ⟨front, more, hcode, hfront, -⟩
    · exact ⟨t, more, hcode, by simp [ht]⟩
    · obtain @⟨sign, _, _, _, _, hsign, -⟩ := hfront
      refine ⟨sign, _, hcode, ?_⟩
      rcases hsign with hsign | hsign <;> simp [hsign]
  refine ⟨⟨t, more, hcode, ht⟩, e.apply t, more.map e.apply, by rw [hcode]; rfl, ?_⟩
  rwa [e.token]

end DeclDoc.Declaration
