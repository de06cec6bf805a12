import DeclDoc.Proofs.Nesting

/-!
# Code tokens under other labels

A `Relabel` keeps what code tokens are and how they are spelled; what stands before them, where they
begin and the marks that comments leave on them may change. Readers look at tokens and words only,
so each takes the same part off relabelled code and leaves the rest of it relabelled (`…_map`).
-/

set_option autoImplicit false

namespace DeclDoc

/-- A change of code tokens that keeps their kind and their text. -/
structure Relabel where
  apply : CodeToken → CodeToken
  token : ∀ t, (apply t).token = t.token
  text : ∀ t, (apply t).text = t.text

namespace Relabel

variable (e : Relabel)

attribute [simp] Relabel.token Relabel.text

@[simp] theorem word (t : CodeToken) : (e.apply t).word = t.word := by
  simp [CodeToken.word]

@[simp] theorem isWordOf (t : CodeToken) (words : List String) :
    (e.apply t).isWordOf words = t.isWordOf words := by
  simp [CodeToken.isWordOf]

@[simp] theorem isWord (t : CodeToken) (word : String) : (e.apply t).isWord word = t.isWord word :=
  e.isWordOf t [word]

@[simp] theorem isAttribute (t : CodeToken) :
    Declaration.isAttribute (e.apply t) = Declaration.isAttribute t := by
  simp [Declaration.isAttribute]

@[simp] theorem isStorage (t : CodeToken) :
    Declaration.isStorage (e.apply t) = Declaration.isStorage t := by
  simp [Declaration.isStorage]

@[simp] theorem isReserved (t : CodeToken) :
    Declaration.isReserved (e.apply t) = Declaration.isReserved t := by
  simp [Declaration.isReserved]

@[simp] theorem isPointerMark (t : CodeToken) :
    Declaration.isPointerMark (e.apply t) = Declaration.isPointerMark t := by
  simp [Declaration.isPointerMark]

end Relabel

variable {e : Relabel}

namespace Code

@[simp] theorem next?_map (code : Code) : next? (code.map e.apply) = code.next? := by
  cases code <;> simp [next?]

@[simp] theorem nextIs_map (code : Code) (token : Token) :
    nextIs (code.map e.apply) token = code.nextIs token := by
  simp [nextIs]

@[simp] theorem before_map (code : Code) (token : Token) :
    before (code.map e.apply) token = (code.before token).map e.apply := by
  simp [before, List.takeWhile_map, Function.comp_def]

end Code

namespace Declaration

/-! ## Questions about code tokens -/

theorem any_head?_map {p : CodeToken → Bool} (hp : ∀ t, p (e.apply t) = p t) (code : Code) :
    (code.map e.apply).head?.any p = code.head?.any p := by
  cases code <;> simp [hp]

theorem isAttribute_head?_map (code : Code) :
    (code.map e.apply).head?.any isAttribute = code.head?.any isAttribute :=
  any_head?_map e.isAttribute code

theorem isPointerMark_head?_map (code : Code) :
    (code.map e.apply).head?.any isPointerMark = code.head?.any isPointerMark :=
  any_head?_map e.isPointerMark code

theorem isWord_head?_map (word : String) (code : Code) :
    (code.map e.apply).head?.any (·.isWord word) = code.head?.any (·.isWord word) :=
  any_head?_map (e.isWord · word) code

theorem any_token_map (token : Token) (code : Code) :
    (code.map e.apply).any (·.token == token) = code.any (·.token == token) := by
  simp [List.any_map, Function.comp_def]

theorem isForward_map (head : Code) : isForward (head.map e.apply) = isForward head := by
  rw [isForward, isForward, List.length_map, any_head?_map (e.isWordOf · ("enum" :: recordWords))]

theorem isTransparent_map (head : Code) :
    isTransparent (head.map e.apply) = isTransparent head := by
  cases head <;> simp [isTransparent]

/-! ## Brackets and spans -/

/-- A group of relabelled code. -/
def Group.relabel (e : Relabel) (group : Group) : Group :=
  ⟨group.inside.map e.apply, e.apply group.close, group.after.map e.apply⟩

namespace Bracket

@[simp] theorem skip_map (bracket : Bracket) (depth : Nat) (code : Code) :
    bracket.skip depth (code.map e.apply) = (bracket.skip depth code).map e.apply := by
  induction code generalizing depth with
  | nil => rfl
  | cons t rest ih =>
    simp only [List.map_cons, skip, Relabel.token, ih]
    split
    · rfl
    · split
      · split <;> rfl
      · rfl

@[simp] theorem close?_map (bracket : Bracket) (depth : Nat) (code : Code) :
    bracket.close? depth (code.map e.apply) = (bracket.close? depth code).map (Group.relabel e) := by
  induction code generalizing depth with
  | nil => rfl
  | cons t rest ih =>
    have hdeeper : ∀ found : Option Group,
        (found.map (Group.relabel e)).map
            (fun group => { group with inside := e.apply t :: group.inside }) =
          (found.map fun group => { group with inside := t :: group.inside }).map
            (Group.relabel e) := by
      intro found
      cases found <;> rfl
    simp only [List.map_cons, close?, Relabel.token, ih, hdeeper]
    split
    · rfl
    · split
      · split <;> rfl
      · rfl

end Bracket

@[simp] theorem afterBraces_map (code : Code) :
    afterBraces (code.map e.apply) = (afterBraces code).map e.apply := by
  simp [afterBraces]

@[simp] theorem afterStatement_map (code : Code) :
    afterStatement (code.map e.apply) = (afterStatement code).map e.apply := by
  fun_induction afterStatement code with
  | case1 => simp [afterStatement]
  | case2 t rest ht | case3 t rest ht | case4 t rest ht | case5 t rest ht =>
    simp [afterStatement, ht]
  | case6 t rest bracket hsemicolon hkeyword hdirective hclose hbracket ih =>
    rw [List.map_cons, afterStatement]
    simp [hbracket, ih]
  | case7 t rest hsemicolon hkeyword hdirective hclose hbracket ih =>
    rw [List.map_cons, afterStatement]
    simp [hbracket, ih]

@[simp] theorem spanTop_map (nesting : Nesting) (stop : Token → Bool) (depth : Nat) (code : Code) :
    spanTop nesting stop depth (code.map e.apply) =
      ((spanTop nesting stop depth code).1.map e.apply,
        (spanTop nesting stop depth code).2.map e.apply) := by
  induction code generalizing depth with
  | nil => rfl
  | cons t rest ih =>
    simp only [List.map_cons, spanTop, Relabel.token, ih]
    split <;> rfl

@[simp] theorem spanHead_map (code : Code) :
    spanHead (code.map e.apply) = ((spanHead code).1.map e.apply, (spanHead code).2.map e.apply) := by
  simp [spanHead]

@[simp] theorem splitCommas_map (nesting : Nesting) (code : Code) :
    splitCommas nesting (code.map e.apply) = (splitCommas nesting code).map (List.map e.apply) := by
  fun_induction splitCommas nesting code with
  | case1 code hspan =>
    rw [splitCommas]
    split
    · simp
    · next hmap =>
      rw [spanTop_map, hspan] at hmap
      cases hmap
  | case2 code t more hspan ih =>
    rw [splitCommas]
    split
    · next hmap =>
      rw [spanTop_map, hspan] at hmap
      cases hmap
    · next hmap =>
      rw [spanTop_map, hspan] at hmap
      obtain ⟨-, rfl⟩ := List.cons.inj hmap
      simp [ih]

@[simp] theorem dropSemicolon_map (code : Code) :
    dropSemicolon (code.map e.apply) = (dropSemicolon code).map e.apply := by
  simp only [dropSemicolon, Code.nextIs_map]
  split <;> simp

@[simp] theorem findWord?_map (words : List String) (code : Code) :
    findWord? words (code.map e.apply) =
      (findWord? words code).map fun found => (e.apply found.1, found.2.map e.apply) := by
  induction code with
  | nil => rfl
  | cons t rest ih =>
    simp only [List.map_cons, findWord?, Relabel.isWordOf, ih]
    split <;> rfl

/-! ## Declarators -/

/-- The code behind an attribute word, past its arguments. -/
theorem dropStorage_attribute {t : CodeToken} (hstorage : isStorage t = false)
    (hattribute : isAttribute t = true) (p : CodeToken) (args : Code) :
    dropStorage (t :: p :: args) =
      if p.token = .openParen then
        ((Bracket.paren.close? 1 args).map fun group => dropStorage group.after).getD (p :: args)
      else dropStorage (p :: args) := by
  rw [dropStorage.eq_def]
  simp only [hstorage, hattribute, if_true, Bool.false_eq_true, if_false]
  split
  · split
    · next group hgroup => rw [hgroup]; rfl
    · next hgroup => rw [hgroup]; rfl
  · rfl

@[simp] theorem dropStorage_map (code : Code) :
    dropStorage (code.map e.apply) = (dropStorage code).map e.apply := by
  fun_induction dropStorage code with
  | case1 => simp [dropStorage]
  | case2 t rest hstorage ih =>
    rw [List.map_cons, dropStorage.eq_def]
    simp [hstorage, ih]
  | case3 t hstorage hattribute =>
    simp [dropStorage, hstorage, hattribute]
  | case4 t hstorage hattribute p args hparen group hgroup ih =>
    rw [List.map_cons, List.map_cons, dropStorage_attribute (by simpa using hstorage) (by simpa)]
    simp [hparen, hgroup, Group.relabel, ih]
  | case5 t hstorage hattribute p args hparen hgroup =>
    rw [List.map_cons, List.map_cons, dropStorage_attribute (by simpa using hstorage) (by simpa)]
    simp [hparen, hgroup]
  | case6 t hstorage hattribute p args hparen ih =>
    rw [List.map_cons, List.map_cons, dropStorage_attribute (by simpa using hstorage) (by simpa)]
    simpa [hparen] using ih
  | case7 t rest hstorage hattribute =>
    rw [List.map_cons, dropStorage.eq_def]
    simp [hstorage, hattribute]

namespace Declarator

/-- A declarator of relabelled code. -/
def relabel (e : Relabel) (declarator : Declarator) : Declarator :=
  ⟨declarator.before.map e.apply, e.apply declarator.name, declarator.after.map e.apply⟩

@[simp] theorem findWrapped?_map (code : Code) :
    findWrapped? (code.map e.apply) = (findWrapped? code).map (relabel e) := by
  fun_induction findWrapped? code with
  | case1 p mark name rest hname =>
    simp [findWrapped?, hname, relabel]
  | case2 p mark name rest hname ih =>
    have hprepend : ∀ found : Option Declarator,
        (found.map (relabel e)).map (prepend (e.apply p)) = (found.map (prepend p)).map (relabel e) := by
      intro found
      cases found <;> rfl
    rw [List.map_cons, List.map_cons, List.map_cons, findWrapped?]
    simp only [Relabel.token, Relabel.isPointerMark, hname, if_false]
    exact (congrArg (Option.map _) ih).trans (hprepend _)
  | case3 code hshort =>
    rw [findWrapped?]
    · rfl
    · intro p mark name rest hcode
      match code, hcode with
      | a :: b :: c :: more, _ => exact hshort a b c more rfl

@[simp] theorem isName_map (t : CodeToken) (after : Code) :
    isName (e.apply t) (after.map e.apply) = isName t after := by
  simp [isName]

@[simp] theorem findLast?_map (depth : Nat) (after reversed : Code) :
    findLast? depth (after.map e.apply) (reversed.map e.apply) =
      (findLast? depth after reversed).map (relabel e) := by
  induction reversed generalizing depth after with
  | nil => rfl
  | cons t more ih =>
    have hafter : e.apply t :: after.map e.apply = (t :: after).map e.apply := rfl
    rw [List.map_cons, findLast?, findLast?, isName_map, Relabel.token, hafter, ih]
    split
    · simp [relabel]
    · rfl

@[simp] theorem find?_map (code : Code) :
    find? (code.map e.apply) = (find? code).map (relabel e) := by
  have hlast := findLast?_map (e := e) 0 [] code.reverse
  rw [List.map_nil, List.map_reverse] at hlast
  rw [find?, find?, findWrapped?_map, hlast]
  cases findWrapped? code <;> rfl

@[simp] theorem typeTokens_relabel (declarator : Declarator) :
    (declarator.relabel e).typeTokens = declarator.typeTokens.map e.apply := by
  simp [typeTokens, relabel]

theorem isWrapped_relabel (declarator : Declarator) :
    (declarator.relabel e).isWrapped = declarator.isWrapped := by
  rw [isWrapped, isWrapped, relabel, ← List.map_reverse]
  rcases declarator.before.reverse with _ | ⟨mark, _ | ⟨p, more⟩⟩
  · rfl
  · rfl
  · simp

theorem dropWhile_isPointerMark_map (code : Code) :
    (code.map e.apply).dropWhile isPointerMark = (code.dropWhile isPointerMark).map e.apply := by
  simp [List.dropWhile_map, Function.comp_def]

end Declarator

/-! ## Variables and functions -/

@[simp] theorem withoutInitializer_map (code : Code) :
    withoutInitializer (code.map e.apply) = (withoutInitializer code).map e.apply := by
  simp [withoutInitializer]

@[simp] theorem variableDeclarator?_map (code : Code) :
    variableDeclarator? (code.map e.apply) =
      (variableDeclarator? code).map (Declarator.relabel e) := by
  rw [variableDeclarator?, variableDeclarator?, Declarator.find?_map]
  cases Declarator.find? code with
  | none => rfl
  | some declarator =>
    simp only [Option.map_some, Option.filter_some, Declarator.typeTokens_relabel, List.isEmpty_map]
    split <;> rfl

/-- The arguments of an attribute word are passed over. -/
theorem splitArguments?_attribute {reversed : Code} {t : CodeToken}
    (hattribute : reversed.head?.any isAttribute = true) (ht : t.token = .openParen) (rest : Code) :
    splitArguments? reversed (t :: rest) =
      (Bracket.paren.close? 1 rest).bind fun group =>
        splitArguments? (group.close :: group.inside.reverse ++ t :: reversed) group.after := by
  rw [splitArguments?.eq_def]
  simp only [ht, hattribute, if_true]
  split
  · next group hgroup => rw [hgroup]; rfl
  · next hgroup => rw [hgroup]; rfl

@[simp] theorem splitArguments?_map (reversed code : Code) :
    splitArguments? (reversed.map e.apply) (code.map e.apply) =
      (splitArguments? reversed code).map fun split => (split.1.map e.apply, split.2.map e.apply) := by
  fun_induction splitArguments? reversed code with
  | case1 => simp [splitArguments?]
  | case2 reversed t rest hparen hattribute group hgroup ih =>
    rw [List.map_cons, splitArguments?_attribute
      (by rwa [isAttribute_head?_map]) (by rwa [Relabel.token]), Bracket.close?_map, hgroup]
    simpa [Group.relabel] using ih
  | case3 reversed t rest hparen hattribute hgroup =>
    rw [List.map_cons, splitArguments?_attribute
      (by rwa [isAttribute_head?_map]) (by rwa [Relabel.token]), Bracket.close?_map, hgroup]
    rfl
  | case4 reversed t rest hparen hattribute =>
    rw [List.map_cons, splitArguments?.eq_def]
    simp only [Relabel.token, hparen, isAttribute_head?_map, hattribute, if_true, Bool.false_eq_true,
      if_false, Option.map_some]
  | case5 reversed t rest hparen ih =>
    rw [List.map_cons, splitArguments?.eq_def]
    simpa [hparen] using ih

/-! ## Enumerations and records -/

/-- The word that an enumeration may have behind its own is dropped from the same code. -/
theorem EnumHead.dropClass_map (after : Code) :
    (if (after.map e.apply).head?.any (·.isWordOf ["class", "struct"])
      then (after.map e.apply).tail else after.map e.apply) =
      (if after.head?.any (·.isWordOf ["class", "struct"]) then after.tail else after).map e.apply := by
  rw [any_head?_map (e.isWordOf · ["class", "struct"])]
  split <;> simp

@[simp] theorem afterEnumerator_map (code : Code) :
    afterEnumerator (code.map e.apply) = (afterEnumerator code).map e.apply := by
  simp only [afterEnumerator, spanTop_map, Code.nextIs_map]
  split <;> simp

@[simp] theorem readTail_map (isTypedef : Bool) (code : Code) :
    readTail isTypedef (code.map e.apply) =
      ((readTail isTypedef code).1.map e.apply, (readTail isTypedef code).2.map e.apply) := by
  simp only [readTail, spanHead_map, dropSemicolon_map, Declarator.find?_map]
  cases isTypedef with
  | false => rfl
  | true => cases Declarator.find? (spanHead code).1 <;> rfl

@[simp] theorem recordKind_apply (keyword : CodeToken) :
    recordKind (e.apply keyword) = recordKind keyword := by
  simp [recordKind]

/-- The tag of a record is looked for behind the arguments of an attribute. -/
theorem recordTag?_paren {t : CodeToken} (ht : t.token = .openParen) (rest : Code) :
    recordTag? (t :: rest) =
      (Bracket.paren.close? 1 rest).bind fun group => recordTag? group.after := by
  rw [recordTag?.eq_def]
  simp only [ht]
  split
  · next group hgroup => rw [hgroup]; rfl
  · next hgroup => rw [hgroup]; rfl

@[simp] theorem recordTag?_map (code : Code) :
    recordTag? (code.map e.apply) = (recordTag? code).map e.apply := by
  fun_induction recordTag? code with
  | case1 => simp [recordTag?]
  | case2 t rest ht hattribute ih =>
    rw [List.map_cons, recordTag?.eq_def]
    simp [ht, hattribute, ih]
  | case3 t rest ht hattribute =>
    rw [List.map_cons, recordTag?.eq_def]
    simp [ht, hattribute]
  | case4 t rest ht group hgroup ih =>
    rw [List.map_cons, recordTag?_paren (by rwa [Relabel.token]), Bracket.close?_map, hgroup]
    exact ih
  | case5 t rest ht hgroup =>
    rw [List.map_cons, recordTag?_paren (by rwa [Relabel.token]), Bracket.close?_map, hgroup]
    rfl
  | case6 t rest hident hparen =>
    rw [List.map_cons, recordTag?]
    simp

/-! ## Members and heads of containers -/

/-- The code after a group is the same code. -/
@[simp] theorem readParenText_map (code : Code) :
    (readParenText (code.map e.apply)).2 = (readParenText code).2.map e.apply := by
  rw [readParenText, readParenText, Bracket.close?_map]
  cases Bracket.paren.close? 1 code <;> rfl

@[simp] theorem readType_map (code : Code) :
    (readType (code.map e.apply)).2 = (readType code).2.map e.apply := by
  rw [readType, readType, Code.nextIs_map]
  split
  · rw [← List.map_tail, readParenText_map]
  · rfl

@[simp] theorem SelectorPart.read_map (keyword : Option String) (start : Nat) (code : Code) :
    (SelectorPart.read keyword start (code.map e.apply)).2 =
      (SelectorPart.read keyword start code).2.map e.apply := by
  rw [SelectorPart.read, SelectorPart.read, readType_map]
  cases (readType code).2 with
  | nil => rfl
  | cons t rest =>
    simp only [List.map_cons, Relabel.token, Code.nextIs_map]
    split <;> rfl

@[simp] theorem readVariadic_map (code : Code) :
    readVariadic (code.map e.apply) = ((readVariadic code).1, (readVariadic code).2.map e.apply) := by
  match code with
  | [] => rfl
  | [_] => rfl
  | c :: t :: rest =>
    simp only [List.map_cons, readVariadic, Relabel.token]
    split <;> rfl

@[simp] theorem afterMethod_map (code : Code) :
    afterMethod (code.map e.apply) = (afterMethod code).map e.apply := by
  fun_induction afterMethod code with
  | case1 => simp [afterMethod]
  | case2 t rest ht | case3 t rest ht => simp [afterMethod, ht]
  | case4 t rest ht ih => simp [afterMethod, ht, ih]
  | case5 t rest ht | case6 t rest ht | case7 t rest ht => simp [afterMethod, ht]
  | case8 t rest _ _ _ _ _ _ ih =>
    rw [List.map_cons, afterMethod]
    simpa using ih

@[simp] theorem readAttributes_map (code : Code) :
    (readAttributes (code.map e.apply)).2 = (readAttributes code).2.map e.apply := by
  rw [readAttributes, readAttributes, Code.nextIs_map, ← List.map_tail]
  split
  · exact readParenText_map code.tail
  · rfl

@[simp] theorem nameList_map (depth : Nat) (code : Code) :
    nameList depth (code.map e.apply) =
      ((nameList depth code).1, (nameList depth code).2.map e.apply) := by
  fun_induction nameList depth code with
  | case1 => rfl
  | case2 depth t rest ht ih => simp [nameList, ht, ih]
  | case3 depth t rest ht hdepth => simp [nameList, ht, hdepth]
  | case4 depth t rest ht hdepth ih => simp [nameList, ht, hdepth, ih]
  | case5 depth t rest ht | case6 depth t rest ht | case7 depth t rest ht => simp [nameList, ht]
  | case8 depth t rest ht more ih =>
    rw [List.map_cons, nameList]
    simp only [Relabel.token, ht, ih, Relabel.word]
    rfl
  | case9 depth t rest _ _ _ _ _ _ ih =>
    rw [List.map_cons, nameList]
    simpa using ih

@[simp] theorem readNames_map (code : Code) :
    readNames (code.map e.apply) = ((readNames code).1, (readNames code).2.map e.apply) := by
  rw [readNames, readNames, Code.nextIs_map, nameList_map]
  split <;> rfl

@[simp] theorem readSuperclass_map (code : Code) :
    readSuperclass (code.map e.apply) =
      ((readSuperclass code).1, (readSuperclass code).2.map e.apply) := by
  match code with
  | [] => rfl
  | [colon] =>
    simp only [List.map_cons, List.map_nil, readSuperclass, Relabel.token]
    split <;> rfl
  | colon :: t :: more =>
    simp only [List.map_cons, readSuperclass, Relabel.token, Relabel.word]
    split
    · split <;> rfl
    · rfl

@[simp] theorem afterVariables_map (code : Code) :
    afterVariables (code.map e.apply) = (afterVariables code).map e.apply := by
  rw [afterVariables, afterVariables, Code.nextIs_map, ← List.map_tail, afterBraces_map]
  split <;> rfl

end Declaration

end DeclDoc
