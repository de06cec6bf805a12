import DeclDoc.Proofs.Definitions
import DeclDoc.Proofs.Depth
import DeclDoc.Proofs.Variables

/-!
# Enumerations and their enumerators

An enumerator's value is any code in which the brackets of each form are paired and no comma stands
outside of them all. It is read up to the comma or brace behind it, since the depth is zero exactly
outside of all brackets (`enumerators_code`). So an enumeration is read with all of its enumerators,
whether a keyword or a macro introduces it, and with its name from behind the closing brace, from the
arguments of the macro or from behind the keyword (`scan_enumerators`).
-/

set_option autoImplicit false

namespace DeclDoc.Declaration

/-! ## Enumerators as they are written -/

/-- As many brackets of each form are opened in the code as closed. -/
def IsOutside (code : Code) : Prop := ∀ bracket : Bracket, bracket.excess code = 0

/-- A name and what stands behind it up to the next enumerator. The brackets of each form are paired,
whichever way the forms lie in each other, and no comma stands outside of all brackets. -/
structure WrittenEnumerator where
  name : CodeToken
  value : Code
  isName : name.token = .ident
  notAttribute : isAttribute name = false
  isPaired : ∀ bracket, IsPaired bracket value
  isOne : ∀ front comma back, value = front ++ comma :: back → comma.token = .comma →
    ¬IsOutside front

def WrittenEnumerator.code (written : WrittenEnumerator) : Code := written.name :: written.value

/-- Enumerators with a comma between each two, and perhaps with a comma behind the last one. -/
inductive IsEnumeratorList : List WrittenEnumerator → Code → Prop
  | none : IsEnumeratorList [] []
  | listed {list : List WrittenEnumerator} {code : Code} :
      IsListed WrittenEnumerator.code list code → IsEnumeratorList list code
  | trailing {list : List WrittenEnumerator} {comma : CodeToken} {code : Code} :
      IsEnumeratorList list code → comma.token = .comma → IsEnumeratorList list (code ++ [comma])

/-! ## Heads as they are written -/

/-- A name that an enumeration may have. -/
structure IsEnumName (t : CodeToken) : Prop where
  token : t.token = .ident
  notReserved : isReserved t = false
  notAttribute : isAttribute t = false

/-- The underlying type behind a colon, if it is given: plain words. A macro of enumerations is none; it
would be taken for what introduces the enumeration. -/
inductive IsUnderlyingType : Code → Prop
  | none : IsUnderlyingType []
  | some {colon : CodeToken} {type : Code} : colon.token = .colon →
      (∀ t ∈ type, t.token = .ident ∧ t.isWordOf enumMacros = false) →
      IsUnderlyingType (colon :: type)

/-- What stands before the values, behind the word `typedef` perhaps: the keyword with a tag and a type,
or a macro with a type and a name. -/
inductive IsEnumHead : (word name : Option CodeToken) → Code → Prop
  | ofKeyword {word tag : Option CodeToken} {keyword : CodeToken} {type : Code} :
      (∀ t ∈ word, t.isWord "typedef" = true) → keyword.isWord "enum" = true →
      (∀ t ∈ tag, IsEnumName t) → IsUnderlyingType type →
      IsEnumHead word tag (word.toList ++ keyword :: (tag.toList ++ type))
  | ofMacro {word keyword p comma name q : CodeToken} {type : Code} :
      word.isWord "typedef" = true → keyword.isWordOf enumMacros = true → p.token = .openParen →
      (∀ t ∈ type, t.token = .ident) → comma.token = .comma → IsEnumName name →
      q.token = .closeParen →
      IsEnumHead (some word) (some name) (word :: keyword :: p :: (type ++ [comma, name]) ++ [q])

/-! ## Enumerators as they are read -/

variable {t p q semicolon : CodeToken} {code head values rest : Code}
  {word name behind : Option CodeToken}

/-- A value is a span of its own before a comma or a closing brace. -/
theorem WrittenEnumerator.spanTop_value (written : WrittenEnumerator)
    (ht : endsEnumerator t.token = true) (rest : Code) :
    spanTop .initializers endsEnumerator 0 (written.value ++ t :: rest) =
      (written.value, t :: rest) := by
  have hfront : ∀ front back, written.value = front ++ back →
      ∀ bracket : Bracket, 0 ≤ bracket.excess front :=
    fun front back heq bracket => (written.isPaired bracket).excess.2 front back heq
  have hdepth : Nesting.initializers.depthOver 0 written.value = 0 := by
    have hsum := depthOver_eq_excess hfront
    simp only [(written.isPaired _).excess.1] at hsum
    omega
  have hstops : ∀ front u back, written.value = front ++ u :: back →
      endsEnumerator u.token = true → Nesting.initializers.depthOver 0 front ≠ 0 := by
    intro front u back heq hu hzero
    have hsum := @depthOver_eq_excess front fun first second hfirst bracket =>
      hfront first (second ++ u :: back) (by rw [heq, hfirst, List.append_assoc]) bracket
    have hopen (bracket : Bracket) : 0 ≤ bracket.excess front := hfront front _ heq bracket
    have hparen := hopen .paren
    have hsquare := hopen .square
    have hbrace := hopen .brace
    have houtside : IsOutside front := by
      rw [hzero] at hsum
      rintro (_ | _ | _) <;> omega
    rw [endsEnumerator, Bool.or_eq_true, beq_iff_eq, beq_iff_eq] at hu
    rcases hu with hu | hu
    · -- a brace outside of brackets would close one more than are open
      have hclosed := hfront (front ++ [u]) back (by rw [heq]; simp) .brace
      have hone : Bracket.brace.excess [u] = -1 := Bracket.excess_closing hu
      rw [Bracket.excess_append, houtside .brace, hone] at hclosed
      omega
    · exact written.isOne front u back heq hu houtside
  rw [spanTop_append_of_depth hstops, hdepth, spanTop_stop ht, List.append_nil]

/-- Commas between enumerators are passed over. -/
theorem enumerators_comma (h : t.token = .comma) (rest : Code) :
    enumerators (t :: rest) = enumerators rest := by
  rw [enumerators, h]

/-- An enumerator is read up to the comma or the closing brace behind it. -/
theorem enumerators_code (written : WrittenEnumerator) (ht : endsEnumerator t.token = true)
    (rest : Code) :
    enumerators (written.code ++ t :: rest) =
      (enumerator written.name :: (enumerators (t :: rest)).1, (enumerators (t :: rest)).2) := by
  have hafter : enumerators (afterEnumerator (written.value ++ t :: rest)) =
      enumerators (t :: rest) := by
    unfold afterEnumerator
    dsimp only
    rw [written.spanTop_value ht, nextIs_cons]
    split
    · next hcomma => rw [enumerators_comma (by simpa using hcomma), List.tail_cons]
    · rfl
  rw [WrittenEnumerator.code, List.cons_append, enumerators, written.isName]
  dsimp only
  rw [hafter, written.notAttribute, if_neg Bool.false_ne_true]

theorem enumerators_list {list : List WrittenEnumerator} (h : IsEnumeratorList list code)
    (ht : endsEnumerator t.token = true) (rest : Code) :
    enumerators (code ++ t :: rest) =
      (list.map (enumerator ·.name) ++ (enumerators (t :: rest)).1, (enumerators (t :: rest)).2) := by
  induction h generalizing t rest with
  | none => rfl
  | listed hlisted =>
    induction hlisted with
    | one written => exact enumerators_code written ht rest
    | @more written comma list code hcomma _ ih =>
      rw [List.append_assoc, List.cons_append, enumerators_code written (by rw [hcomma]; rfl),
        enumerators_comma hcomma, ih]
      rfl
  | @trailing list comma code _ hcomma ih =>
    rw [List.append_assoc, List.singleton_append, ih (by rw [hcomma]; rfl),
      enumerators_comma hcomma]

/-! ## Heads as they are read -/

theorem token_of_isWordOf {words : List String} (h : t.isWordOf words = true) :
    t.token = .ident := by
  simp only [CodeToken.isWordOf, Bool.and_eq_true, beq_iff_eq] at h
  exact h.1

/-- Macros of enumerations are attribute words. -/
theorem isAttribute_of_enumMacro (h : t.isWordOf enumMacros = true) : isAttribute t = true := by
  rw [CodeToken.isWordOf, Bool.and_eq_true, List.contains_iff_mem] at h
  have htext : t.text = t.word.toList := by rw [CodeToken.word, String.toList_ofList]
  have hall : ∀ macroWord ∈ enumMacros, isAttributeText macroWord.toList = true := by decide
  rw [isAttribute, h.1, htext, hall _ h.2]
  rfl

namespace IsEnumName

theorem notEnumMacro (h : IsEnumName t) : t.isWordOf enumMacros = false := by
  rw [Bool.eq_false_iff]
  intro hmacro
  have := isAttribute_of_enumMacro hmacro
  rw [h.notAttribute] at this
  cases this

/-- A name alone is a declarator. -/
theorem find?_singleton (h : IsEnumName t) : Declarator.find? [t] = some ⟨[], t, []⟩ := by
  have hisName : Declarator.isName t [] = true := by
    rw [Declarator.isName, h.token, h.notAttribute, h.notReserved]
    rfl
  simp [Declarator.find?, Declarator.findWrapped?, Declarator.findLast?, hisName]

end IsEnumName

namespace IsUnderlyingType

variable {type : Code}

/-- There are only words and a colon in a head with the keyword. -/
theorem forall_token (h : IsUnderlyingType type) {keyword : CodeToken}
    (hword : ∀ t ∈ word, t.isWord "typedef" = true) (hkeyword : keyword.isWord "enum" = true)
    (hname : ∀ t ∈ name, IsEnumName t) :
    ∀ u ∈ word.toList ++ keyword :: (name.toList ++ type), u.token = .ident ∨ u.token = .colon := by
  refine List.forall_mem_append.2 ⟨fun u hu => ?_, List.forall_mem_cons.2
    ⟨.inl (token_of_isWord hkeyword), List.forall_mem_append.2 ⟨fun u hu => ?_, ?_⟩⟩⟩
  · exact .inl (token_of_isWord (hword u (Option.mem_toList.1 hu)))
  · exact .inl (hname u (Option.mem_toList.1 hu)).token
  · cases h with
    | none => nofun
    | some hcolon htype =>
      exact List.forall_mem_cons.2 ⟨.inr hcolon, fun u hu => .inl (htype u hu).1⟩

theorem notEnumMacro (h : IsUnderlyingType type) : ∀ u ∈ type, u.isWordOf enumMacros = false := by
  cases h with
  | none => simp
  | some hc htype =>
    exact List.forall_mem_cons.2
      ⟨isWordOf_of_token (by rw [hc]; decide) _, fun u hu => (htype u hu).2⟩

/-- A tag and a type behind the keyword are read as the name and the type. -/
theorem ofKeyword_tag (h : IsUnderlyingType type) {tag : Option CodeToken}
    (htag : ∀ t ∈ tag, IsEnumName t) (keyword : CodeToken) :
    (EnumHead.ofKeyword keyword (tag.toList ++ type)).keyword = keyword ∧
      (EnumHead.ofKeyword keyword (tag.toList ++ type)).name = tag := by
  cases tag with
  | some t =>
    have hclass : t.isWordOf ["class", "struct"] = false :=
      isWordOf_mono (htag t rfl).notReserved (by decide)
    simp [EnumHead.ofKeyword, hclass, (htag t rfl).token]
  | none =>
    cases h with
    | none => exact ⟨rfl, rfl⟩
    | some hcolon _ =>
      have hident : ¬(Token.colon = .ident) := by decide
      have hclass := isWordOf_of_token (by rw [hcolon]; exact hident) ["class", "struct"]
      simp [EnumHead.ofKeyword, hclass, hcolon]

end IsUnderlyingType

namespace IsEnumHead

/-- There is nothing to stop at in a head, and its parentheses are nested. -/
theorem isNested (h : IsEnumHead word name head) : IsNestedWithout headStops head := by
  cases h with
  | @ofKeyword _ _ keyword type hword hkeyword hname htype =>
    refine .of_flat fun u hu => ?_
    rcases htype.forall_token hword hkeyword hname u hu with hu | hu <;> rw [hu] <;> decide
  | @ofMacro word keyword p comma name q type hword hkeyword hp htype hcomma hname hq =>
    have hinside : IsNested (fun _ => True) (type ++ [comma, name]) := by
      refine .of_flat <| List.forall_mem_append.2 ⟨fun u hu => by rw [htype u hu]; decide, ?_⟩
      simp [hcomma, hname.token, IsNoBracket, Nesting.initializers]
    have hgroup : IsNestedWithout headStops (p :: (type ++ [comma, name]) ++ q :: []) :=
      .group (by exact hp : p.token = Bracket.paren.opening) (by rw [hp]; decide) hinside hq .nil
    exact .token (by rw [token_of_isWord hword]; decide) (by rw [token_of_isWord hword]; decide)
      (.token (by rw [token_of_isWordOf hkeyword]; decide)
        (by rw [token_of_isWordOf hkeyword]; decide) hgroup)

theorem notAssigned (h : IsEnumHead word name head) : head.any (·.token == .equals) = false := by
  rw [List.any_eq_false]
  cases h with
  | @ofKeyword _ _ keyword type hword hkeyword hname htype =>
    intro u hu
    rcases htype.forall_token hword hkeyword hname u hu with hu | hu <;> simp [hu]
  | @ofMacro word keyword p comma name q type hword hkeyword hp htype hcomma hname hq =>
    have htype : ∀ u ∈ type, ¬u.token = .equals := fun u hu => by rw [htype u hu]; decide
    simpa [or_imp, forall_and, token_of_isWord hword, token_of_isWordOf hkeyword, hp, hcomma,
      hname.token, hq] using htype

/-- A head begins with a word, and with `typedef` where it has that word. -/
theorem first (h : IsEnumHead word name head) :
    ∃ t more, head = t :: more ∧ t.token = .ident ∧ t.isWord "typedef" = word.isSome := by
  cases h with
  | @ofKeyword _ _ keyword type hword hkeyword htag htype =>
    cases word with
    | some word => exact ⟨word, _, rfl, token_of_isWord (hword word rfl), hword word rfl⟩
    | none =>
      exact ⟨keyword, _, rfl, token_of_isWord hkeyword, isWordOf_of_isWord hkeyword (by decide)⟩
  | @ofMacro word _ _ _ _ _ _ hword => exact ⟨word, _, rfl, token_of_isWord hword, hword⟩

/-- The body of an enumeration is read under its head. -/
theorem braced_eq (h : IsEnumHead word name head) (code : Code) :
    ∃ read : EnumHead, read.name = name ∧
      braced head code = readEnumeration read word.isSome head.start code := by
  have hassigned := h.notAssigned
  have htypedef : head.head?.any (·.isWord "typedef") = word.isSome := by
    obtain ⟨t, more, rfl, -, ht⟩ := h.first
    exact ht
  cases h with
  | @ofKeyword _ _ keyword type hword hkeyword htag htype =>
    refine ⟨.ofKeyword keyword (name.toList ++ type), (htype.ofKeyword_tag htag keyword).2, ?_⟩
    have hdefined : findWord? enumMacros (word.toList ++ keyword :: (name.toList ++ type)) = none := by
      refine findWord?_eq_none <| List.forall_mem_append.2
        ⟨fun u hu => isWordOf_of_isWord (hword u (Option.mem_toList.1 hu)) (by decide),
          List.forall_mem_cons.2 ⟨isWordOf_of_isWord hkeyword (by decide),
            List.forall_mem_append.2 ⟨fun u hu => (htag u (Option.mem_toList.1 hu)).notEnumMacro,
              htype.notEnumMacro⟩⟩⟩
    have hopen : ∀ u ∈ word.toList ++ keyword :: (name.toList ++ type), u.token ≠ .openParen := by
      intro u hu
      rcases htype.forall_token hword hkeyword htag u hu with hu | hu <;> simp [hu]
    have hfound : findWord? ["enum"] (word.toList ++ keyword :: (name.toList ++ type)) =
        some (keyword, name.toList ++ type) :=
      findWord?_behind (fun u hu => isWordOf_of_isWord (hword u (Option.mem_toList.1 hu)) (by decide))
        hkeyword _
    unfold braced
    dsimp only
    rw [hassigned, if_neg Bool.false_ne_true, hdefined]
    dsimp only
    rw [function?_of_flat hopen]
    dsimp only
    rw [hfound, htypedef]
  | @ofMacro word keyword p comma name q type hword hkeyword hp htype hcomma hname hq =>
    have hother : word.isWordOf enumMacros = false := isWordOf_of_isWord hword (by decide)
    have hfound : findWord? enumMacros (word :: keyword :: p :: (type ++ [comma, name]) ++ [q]) =
        some (keyword, p :: ((type ++ [comma, name]) ++ [q])) :=
      findWord?_behind (List.forall_mem_singleton.2 hother) hkeyword _
    have hbalanced : IsBalanced (type ++ [comma, name]) := by
      refine .of_flat <| List.forall_mem_append.2 ⟨fun u hu => by rw [htype u hu]; decide, ?_⟩
      simp [hcomma, hname.token]
    refine ⟨.ofMacro keyword (p :: ((type ++ [comma, name]) ++ [q])), ?_, ?_⟩
    · rw [EnumHead.ofMacro, if_pos hp, close?_append hbalanced hq]
      simp [hname.token]
    · unfold braced
      dsimp only
      rw [hassigned, if_neg Bool.false_ne_true, hfound, htypedef]

end IsEnumHead

/-! ## Enumerations -/

/-- What a `typedef` names behind the closing brace, up to the semicolon. -/
theorem readTail_name (h : ∀ t ∈ behind, IsEnumName t) (hsemicolon : semicolon.token = .semicolon)
    (isTypedef : Bool) (rest : Code) :
    readTail isTypedef (behind.toList ++ semicolon :: rest) =
      (if isTypedef then behind else none, rest) := by
  have hnested : IsNestedWithout headStops behind.toList := .of_flat fun u hu => by
    rw [(h u (Option.mem_toList.1 hu)).token]
    decide
  have hspan := spanHead_nested hnested (by rw [hsemicolon]; rfl : endsHead semicolon.token = true)
    rest
  have hfind : (Declarator.find? behind.toList).map Declarator.name = behind := by
    cases behind with
    | none => rfl
    | some t =>
      rw [Option.toList_some, (h t rfl).find?_singleton]
      rfl
  unfold readTail
  dsimp only
  rw [hspan, dropSemicolon_cons hsemicolon, hfind]

/-- An enumeration is read as one with all of its enumerators, in order, under the name that a
`typedef` or a macro gives it, else under its tag, else under none, and what is behind its semicolon as
without it. -/
theorem scan_enumerators {list : List WrittenEnumerator} (hhead : IsEnumHead word name head)
    (hcomments : IsUninterrupted head) (hp : p.token = .openBrace)
    (hvalues : IsEnumeratorList list values) (hq : q.token = .closeBrace)
    (hbehind : ∀ t ∈ behind, IsEnumName t) (hsemicolon : semicolon.token = .semicolon)
    (rest : Code) :
    ∃ cursor : Cursor,
      scan (head ++ p :: (values ++ q :: (behind.toList ++ semicolon :: rest))) =
          (scan rest).after [cursor] [] ∧
        cursor.kind = .enumeration ∧
        cursor.spelling =
          (((if word.isSome then behind.or name else name).map CodeToken.word).getD "") ∧
        (∀ child ∈ cursor.children, child.kind = .enumerator) ∧
        cursor.children.map Cursor.spelling = list.map (·.name.word) := by
  have hspan := spanHead_nested hhead.isNested (by rw [hp]; rfl : endsHead p.token = true)
    (values ++ q :: (behind.toList ++ semicolon :: rest))
  obtain ⟨t, more, rfl, ht, -⟩ := hhead.first
  have hrestart : restart (t :: more) = t :: more := by
    have hfull : restart (t :: more ++ []) = t :: more ++ [] := restart_append hcomments rfl
    rwa [List.append_nil] at hfull
  obtain ⟨read, hread, hbraced⟩ :=
    hhead.braced_eq (values ++ q :: (behind.toList ++ semicolon :: rest))
  have hend (more : Code) : enumerators (q :: more) = ([], more) := by rw [enumerators, hq]
  have hbody : enumerators (values ++ q :: (behind.toList ++ semicolon :: rest)) =
      (list.map (enumerator ·.name), behind.toList ++ semicolon :: rest) := by
    rw [enumerators_list hvalues (by rw [hq]; rfl), hend, List.append_nil]
  have hplain : readPlain (t :: more ++ p :: (values ++ q :: (behind.toList ++ semicolon :: rest))) =
      readEnumeration read word.isSome (Code.start (t :: more))
        (values ++ q :: (behind.toList ++ semicolon :: rest)) := by
    unfold readPlain
    dsimp only
    rw [hspan]
    dsimp only
    rw [hp]
    dsimp only
    rw [hrestart, hbraced]
  have htail := readTail_name hbehind hsemicolon word.isSome rest
  rw [List.cons_append] at hplain ⊢
  rw [scan_plain ht, hplain]
  simp only [readEnumeration, enumeration, hbody, htail, hread]
  refine ⟨_, rfl, rfl, ?_, ?_, ?_⟩
  · cases word <;> rfl
  · simp [enumerator]
  · simp [enumerator, Function.comp_def]

/-- The value `= ([, )]`, whose brackets lie across each other. -/
def crossedValue : Code :=
  [looseToken .equals "=", looseToken .openParen "(", looseToken .openBracket "[",
    looseToken .comma ",", looseToken .closeParen ")", looseToken .closeBracket "]"]

/-- The enumerator `A = ([, )]`. -/
def crossedEnumerator : WrittenEnumerator where
  name := looseToken .ident "A"
  value := crossedValue
  isName := rfl
  notAttribute := by decide
  isPaired := by
    have hfirst : (looseToken .openParen "(").token = Bracket.paren.opening := rfl
    have hsecond : (looseToken .openBracket "[").token = Bracket.square.opening := rfl
    have hother {form : Bracket} {t : CodeToken} {code : Code}
        (h : t.token ≠ form.opening ∧ t.token ≠ form.closing) (hcode : IsPaired form code) :
        IsPaired form (t :: code) := .token h.1 h.2 hcode
    rintro (_ | _ | _)
    · exact hother (by decide) <|
        .group hfirst (hother (by decide) (hother (by decide) .nil)) rfl (hother (by decide) .nil)
    · exact hother (by decide) <| hother (by decide) <|
        .group hsecond (hother (by decide) (hother (by decide) .nil)) rfl .nil
    · exact hother (by decide) <| hother (by decide) <| hother (by decide) <| hother (by decide) <|
        hother (by decide) <| hother (by decide) .nil
  isOne := by
    intro front comma back heq hcomma houtside
    have hcommas : ∀ n < crossedValue.length, crossedValue[n]?.any (·.token == .comma) = true →
        Bracket.paren.excess (crossedValue.take n) ≠ 0 := by decide
    refine hcommas front.length ?_ ?_ ?_
    · rw [heq, List.length_append, List.length_cons]
      omega
    · simp [heq, hcomma]
    · rw [heq, List.take_left]
      exact houtside .paren

/-- The enumerator `B`. -/
def bareEnumerator : WrittenEnumerator where
  name := looseToken .ident "B" " "
  value := []
  isName := rfl
  notAttribute := by decide
  isPaired _ := .nil
  isOne := by simp

/-- In `typedef enum Tag : T { A = ([, )], B, } Name;` both enumerators are read. -/
theorem scan_enumerators_crossed :
    let head := [looseToken .ident "typedef", looseToken .ident "enum", looseToken .ident "Tag",
      looseToken .colon ":", looseToken .ident "T"]
    let values := crossedEnumerator.code ++ looseToken .comma "," :: bareEnumerator.code ++
      [looseToken .comma ","]
    ∃ cursor : Cursor,
      scan (head ++ looseToken .openBrace "\x7b" :: (values ++ looseToken .closeBrace "\x7d" ::
          ([looseToken .ident "Name"] ++ looseToken .semicolon ";" :: []))) =
          (scan []).after [cursor] [] ∧
        cursor.kind = .enumeration ∧ cursor.spelling = "Name" ∧
        cursor.children.map Cursor.spelling = ["A", "B"] := by
  intro head values
  have hname (text : String) (h : IsEnumName (looseToken .ident text)) :
      ∀ t ∈ some (looseToken .ident text), IsEnumName t := by simpa using h
  have hhead : IsEnumHead (some (looseToken .ident "typedef")) (some (looseToken .ident "Tag")) head :=
    .ofKeyword (by simp; decide) (by decide) (hname "Tag" ⟨by decide, by decide, by decide⟩)
      (.some rfl (by decide))
  have hvalues : IsEnumeratorList [crossedEnumerator, bareEnumerator] values :=
    .trailing (.listed (.more crossedEnumerator rfl (.one bareEnumerator))) rfl
  have hopen : (looseToken .openBrace "\x7b").token = .openBrace := rfl
  have hclose : (looseToken .closeBrace "\x7d").token = .closeBrace := rfl
  have hsemicolon : (looseToken .semicolon ";").token = .semicolon := rfl
  obtain ⟨cursor, hscan, hkind, hspelling, -, hchildren⟩ :=
    scan_enumerators hhead (by decide) hopen hvalues hclose
      (hname "Name" ⟨by decide, by decide, by decide⟩) hsemicolon []
  exact ⟨cursor, hscan, hkind, hspelling, hchildren⟩

end DeclDoc.Declaration
