import DeclDoc.Proofs.Nested
import Mathlib.Algebra.GroupWithZero.Nat

/-!
# Selectors with and without keywords

The parts of a selector are read one behind the other, each with its type and the name of its
parameter. Whether a name stands behind a type is decided by what comes next: in front of a colon it
is taken for the keyword of the next part (`selectorParts_written`). So a method is read as it is
written exactly if every part behind the first has a keyword of its own, and exactly then its
selector is spelled as written (`readMembers_written`). A part without a keyword takes the name of
the parameter in front of it, which is left without one.
-/

set_option autoImplicit false

namespace DeclDoc.Declaration

/-! ## Methods as they are written -/

/-- A part of a selector: a keyword perhaps, a colon, a type in parentheses, and a name. -/
structure WrittenPart where
  keyword : Option CodeToken
  colon : CodeToken
  openParen : CodeToken
  type : Code
  closeParen : CodeToken
  name : CodeToken
  isKeyword : ∀ t ∈ keyword, t.token = .ident
  isColon : colon.token = .colon
  isOpen : openParen.token = .openParen
  isType : IsBalanced type
  isClose : closeParen.token = .closeParen
  isName : name.token = .ident
  nonempty : name.text ≠ []

namespace WrittenPart

/-- The part from its colon on. -/
def behind (part : WrittenPart) : Code :=
  part.colon :: part.openParen :: part.type ++ [part.closeParen, part.name]

def code (part : WrittenPart) : Code := part.keyword.toList ++ part.behind

/-- The part with this keyword and this name of its parameter. -/
def read (part : WrittenPart) (keyword : Option CodeToken) (name : String) : SelectorPart where
  keyword := keyword.map CodeToken.word
  typeName := Code.line part.type
  name
  start := (keyword.getD part.colon).start

/-- The part as it is written. -/
def asWritten (part : WrittenPart) : SelectorPart := part.read part.keyword part.name.word

end WrittenPart

/-- A method with at least one part, which may take further arguments. -/
structure WrittenMethod where
  flavor : Flavor
  sign : CodeToken
  openParen : CodeToken
  result : Code
  closeParen : CodeToken
  first : WrittenPart
  more : List WrittenPart
  ellipsis : Option (CodeToken × CodeToken)
  semicolon : CodeToken
  isSign : IsSign flavor sign
  isOpen : openParen.token = .openParen
  isResult : IsBalanced result
  isClose : closeParen.token = .closeParen
  isEllipsis : ∀ mark ∈ ellipsis, mark.1.token = .comma ∧ mark.2.token = .ellipsis
  isSemicolon : semicolon.token = .semicolon

namespace WrittenMethod

/-- What stands behind the selector. -/
def tail (method : WrittenMethod) : Code :=
  (method.ellipsis.map fun mark => [mark.1, mark.2]).getD [] ++ [method.semicolon]

def code (method : WrittenMethod) : Code :=
  method.sign :: method.openParen :: method.result ++ method.closeParen ::
    ((method.first :: method.more).flatMap WrittenPart.code ++ method.tail)

/-- The method whose selector has these parts. -/
def declaring (method : WrittenMethod) (parts : List SelectorPart) : Cursor where
  kind := if method.flavor = .ofClass then .classMethod else .instanceMethod
  spelling := String.join (parts.map SelectorPart.spelling)
  offset := (method.first.keyword.getD method.first.colon).start
  extent := method.sign.start
  detail :=
    { signature := .returns (Code.line method.result) :: parts.map SelectorPart.fragment ++
        if method.ellipsis.isSome then [.variadic] else [] }

/-- The method as it is written. -/
def asWritten (method : WrittenMethod) : Cursor :=
  method.declaring ((method.first :: method.more).map WrittenPart.asWritten)

end WrittenMethod

/-! ## Parts as they are read -/

/-- The parts as they are read, where `keyword` stands in front of the first one's colon. -/
def partsRead (keyword : Option CodeToken) (part : WrittenPart) :
    List WrittenPart → List SelectorPart
  | [] => [part.read keyword part.name.word]
  | next :: more =>
    match next.keyword with
    | some word => part.read keyword part.name.word :: partsRead (some word) next more
    | none => part.read keyword "" :: partsRead (some part.name) next more

/-- The method as it is read. -/
def WrittenMethod.asRead (method : WrittenMethod) : Cursor :=
  method.declaring (partsRead method.first.keyword method.first method.more)

variable {t : CodeToken} {rest : Code}

/-- A name is read where no colon follows it. -/
theorem SelectorPart.read_written (part : WrittenPart) (keyword : Option CodeToken) (rest : Code) :
    SelectorPart.read (keyword.map CodeToken.word) (keyword.getD part.colon).start
        (part.openParen :: (part.type ++ part.closeParen :: part.name :: rest)) =
      if rest.nextIs .colon then (part.read keyword "", part.name :: rest)
      else (part.read keyword part.name.word, rest) := by
  have hnext : Code.nextIs (part.openParen :: (part.type ++ part.closeParen :: part.name :: rest))
      .openParen = true := by
    rw [nextIs_cons, part.isOpen]
    rfl
  have htype : readType (part.openParen :: (part.type ++ part.closeParen :: part.name :: rest)) =
      (Code.line part.type, part.name :: rest) := by
    rw [readType, if_pos hnext, List.tail_cons, readParenText_append part.isType part.isClose]
  unfold SelectorPart.read
  dsimp only
  rw [htype]
  dsimp only
  cases hrest : rest.nextIs .colon with
  | false => rw [if_pos ⟨part.isName, by rfl⟩]; rfl
  | true => rw [if_neg (by simp)]; rfl

/-- One part is read from its keyword on. -/
theorem selectorParts_part (part : WrittenPart) {keyword : Option CodeToken}
    (hkeyword : ∀ t ∈ keyword, t.token = .ident) (rest : Code) :
    selectorParts (keyword.toList ++ (part.behind ++ rest)) =
      if rest.nextIs .colon then
        (part.read keyword "" :: (selectorParts (part.name :: rest)).1,
          (selectorParts (part.name :: rest)).2)
      else
        (part.read keyword part.name.word :: (selectorParts rest).1, (selectorParts rest).2) := by
  have hread := SelectorPart.read_written part keyword rest
  have hbehind : part.behind ++ rest =
      part.colon :: part.openParen :: (part.type ++ part.closeParen :: part.name :: rest) := by
    simp [WrittenPart.behind]
  rw [hbehind]
  cases keyword with
  | none =>
    rw [Option.toList_none, List.nil_append, selectorParts, if_pos part.isColon]
    dsimp only [Option.map_none, Option.getD_none] at hread ⊢
    rw [hread]
    split <;> rfl
  | some word =>
    have hword : word.token = .ident := hkeyword word rfl
    have hcolon : ¬word.token = .colon := by
      rw [hword]
      decide
    have hnext : Code.nextIs (part.colon :: part.openParen ::
        (part.type ++ part.closeParen :: part.name :: rest)) .colon = true := by
      rw [nextIs_cons, part.isColon]
      rfl
    rw [Option.toList_some, List.singleton_append, selectorParts, if_neg hcolon,
      if_pos ⟨hword, hnext⟩, List.tail_cons]
    dsimp only [Option.map_some, Option.getD_some] at hread ⊢
    rw [hread]
    split <;> rfl

/-- All parts are read, in front of code that begins no further one. -/
theorem selectorParts_written (part : WrittenPart) (more : List WrittenPart)
    {keyword : Option CodeToken} (hkeyword : ∀ t ∈ keyword, t.token = .ident)
    (hcolon : rest.nextIs .colon = false) (hrest : selectorParts rest = ([], rest)) :
    selectorParts (keyword.toList ++ (part.behind ++ (more.flatMap WrittenPart.code ++ rest))) =
      (partsRead keyword part more, rest) := by
  induction more generalizing part keyword with
  | nil =>
    rw [List.flatMap_nil, List.nil_append, selectorParts_part part hkeyword, hcolon, hrest]
    rfl
  | cons next more ih =>
    have hnext := ih next next.isKeyword
    have hcode : (next :: more).flatMap WrittenPart.code ++ rest = next.keyword.toList ++
        (next.behind ++ (more.flatMap WrittenPart.code ++ rest)) := by
      simp [WrittenPart.code]
    rw [selectorParts_part part hkeyword, hcode, partsRead]
    cases hword : next.keyword with
    | some word =>
      -- the name stands in front of a word, so it is the name of this part
      have hident : Code.nextIs (word :: (next.behind ++ (more.flatMap WrittenPart.code ++ rest)))
          .colon = false := by
        rw [nextIs_cons, next.isKeyword word hword]
        rfl
      rw [hword] at hnext
      rw [Option.toList_some, List.singleton_append, hident]
      exact congrArg (fun parts : List SelectorPart × Code =>
        (part.read keyword part.name.word :: parts.1, parts.2)) hnext
    | none =>
      -- the name stands in front of a colon, so it becomes the keyword of the next part
      have htaken := @ih next (some part.name) (by simpa using part.isName)
      have hbegins : Code.nextIs ([] ++ (next.behind ++ (more.flatMap WrittenPart.code ++ rest)))
          .colon = true := by
        rw [List.nil_append, WrittenPart.behind, List.cons_append, List.cons_append, nextIs_cons,
          next.isColon]
        rfl
      rw [Option.toList_none, hbegins]
      exact congrArg (fun parts : List SelectorPart × Code =>
        (part.read keyword "" :: parts.1, parts.2)) htaken

/-! ## Parts that are read as written -/

/-- Parts with keywords are read as they are written. -/
theorem partsRead_of_keywords {part : WrittenPart} {more : List WrittenPart}
    (h : ∀ next ∈ more, next.keyword.isSome = true) :
    partsRead part.keyword part more = (part :: more).map WrittenPart.asWritten := by
  induction more generalizing part with
  | nil => rfl
  | cons next more ih =>
    obtain ⟨hnext, hmore⟩ := List.forall_mem_cons.1 h
    obtain ⟨word, hword⟩ := Option.isSome_iff_exists.1 hnext
    have htail := @ih next hmore
    rw [hword] at htail
    rw [partsRead, hword, List.map_cons, ← htail]
    rfl

/-- How long the parts of a selector are when spelled. -/
def spelledLength (parts : List SelectorPart) : Nat :=
  (parts.map fun part => part.spelling.length).sum

theorem length_join_spelling (parts : List SelectorPart) :
    (String.join (parts.map SelectorPart.spelling)).length = spelledLength parts := by
  rw [String.length_join, List.map_map]
  rfl

/-- How long a keyword is when spelled. -/
def keywordLength (keyword : Option CodeToken) : Nat :=
  ((keyword.map CodeToken.word).getD "").length

theorem spelledLength_read_cons (part : WrittenPart) (keyword : Option CodeToken) (name : String)
    (parts : List SelectorPart) :
    spelledLength (part.read keyword name :: parts) =
      keywordLength keyword + 1 + spelledLength parts := by
  have hcolon : ":".length = 1 := rfl
  simp [spelledLength, SelectorPart.spelling, WrittenPart.read, keywordLength, String.length_append,
    hcolon]

/-- Each part that takes a name makes the selector longer by it. -/
theorem spelledLength_partsRead (keyword : Option CodeToken) (part : WrittenPart)
    (more : List WrittenPart) :
    keywordLength keyword + spelledLength ((part :: more).map WrittenPart.asWritten) ≤
        keywordLength part.keyword + spelledLength (partsRead keyword part more) ∧
      ((∃ next ∈ more, next.keyword = none) →
        keywordLength keyword + spelledLength ((part :: more).map WrittenPart.asWritten) <
          keywordLength part.keyword + spelledLength (partsRead keyword part more)) := by
  induction more generalizing part keyword with
  | nil =>
    refine ⟨?_, fun ⟨_, hnext, _⟩ => absurd hnext List.not_mem_nil⟩
    simp only [List.map_cons, List.map_nil, WrittenPart.asWritten, partsRead,
      spelledLength_read_cons]
    omega
  | cons next more ih =>
    rw [List.map_cons, WrittenPart.asWritten, spelledLength_read_cons, partsRead]
    cases hword : next.keyword with
    | some word =>
      obtain ⟨hle, hlt⟩ := ih (some word) next
      rw [hword] at hle hlt
      dsimp only
      rw [spelledLength_read_cons]
      refine ⟨by omega, fun ⟨other, hother, hnone⟩ => ?_⟩
      rcases List.mem_cons.1 hother with rfl | hmem
      · rw [hword] at hnone
        cases hnone
      · have := hlt ⟨other, hmem, hnone⟩
        omega
    | none =>
      obtain ⟨hle, -⟩ := ih (some part.name) next
      have htaken : 0 < keywordLength (some part.name) := by
        have hword : part.name.word ≠ "" := CodeToken.word_ne part.nonempty
        exact Nat.pos_of_ne_zero fun hzero => hword (String.length_eq_zero_iff.1 hzero)
      have hnone : keywordLength none = 0 := rfl
      rw [hword] at hle
      dsimp only
      rw [spelledLength_read_cons]
      exact ⟨by omega, fun _ => by omega⟩

/-! ## Methods -/

/-- The selector of a method, up to what stands behind it. -/
theorem readSelector_written (method : WrittenMethod) (hcolon : rest.nextIs .colon = false)
    (hrest : selectorParts rest = ([], rest)) :
    readSelector ((method.first :: method.more).flatMap WrittenPart.code ++ rest) =
      (some
        { spelling := method.asRead.spelling
          start := method.asRead.offset
          parameters :=
            (partsRead method.first.keyword method.first method.more).map SelectorPart.fragment },
        rest) := by
  have hcode : (method.first :: method.more).flatMap WrittenPart.code ++ rest =
      method.first.keyword.toList ++
        (method.first.behind ++ (method.more.flatMap WrittenPart.code ++ rest)) := by
    simp [WrittenPart.code]
  have hparts := selectorParts_written method.first method.more method.first.isKeyword hcolon hrest
  obtain ⟨part, parts, hread, hstart⟩ : ∃ part parts,
      partsRead method.first.keyword method.first method.more = part :: parts ∧
        part.start = method.asRead.offset := by
    unfold partsRead
    split
    · exact ⟨_, _, rfl, rfl⟩
    · split <;> exact ⟨_, _, rfl, rfl⟩
  rw [hcode]
  simp only [readSelector, hparts]
  rw [WrittenMethod.asRead, WrittenMethod.declaring, hread]
  simp only [hstart]
  rfl

theorem kind_of_sign (method : WrittenMethod) :
    (if method.sign.token = .plus then CursorKind.classMethod else .instanceMethod) =
      method.asRead.kind := by
  show _ = if method.flavor = .ofClass then _ else _
  rcases method.isSign.token with ⟨hflavor, hsign⟩ | ⟨hflavor, hsign⟩
  · rw [hflavor, hsign]; rfl
  · rw [hflavor, hsign]; rfl

/-- What stands behind the selector begins no part of it, and is passed over. -/
theorem readVariadic_tail (method : WrittenMethod) (rest : Code) :
    Code.nextIs (method.tail ++ rest) .colon = false ∧
      selectorParts (method.tail ++ rest) = ([], method.tail ++ rest) ∧
      readVariadic (method.tail ++ rest) =
        (if method.ellipsis.isSome then [.variadic] else [], method.semicolon :: rest) := by
  unfold WrittenMethod.tail
  cases hellipsis : method.ellipsis with
  | none =>
    refine ⟨?_, selectorParts_semicolon method.isSemicolon rest,
      readVariadic_semicolon method.isSemicolon rest⟩
    show Code.nextIs (method.semicolon :: rest) .colon = false
    rw [nextIs_cons, method.isSemicolon]
    rfl
  | some mark =>
    obtain ⟨hcomma, hmark⟩ := method.isEllipsis mark hellipsis
    refine ⟨?_, ?_, ?_⟩
    · show Code.nextIs (mark.1 :: mark.2 :: method.semicolon :: rest) .colon = false
      rw [nextIs_cons, hcomma]
      rfl
    · show selectorParts (mark.1 :: mark.2 :: method.semicolon :: rest) = _
      rw [selectorParts, hcomma]
      simp
    · show readVariadic (mark.1 :: mark.2 :: method.semicolon :: rest) = _
      rw [readVariadic, if_pos ⟨hcomma, hmark⟩]
      rfl

/-- A method is read up to its semicolon. -/
theorem readMethod_written (method : WrittenMethod) (rest : Code) :
    readMethod method.sign (method.openParen :: method.result ++ method.closeParen ::
        ((method.first :: method.more).flatMap WrittenPart.code ++ method.tail) ++ rest) =
      (.ok method.asRead, rest) := by
  have hcode : method.openParen :: method.result ++ method.closeParen ::
      ((method.first :: method.more).flatMap WrittenPart.code ++ method.tail) ++ rest =
      method.openParen :: (method.result ++ method.closeParen ::
        ((method.first :: method.more).flatMap WrittenPart.code ++ (method.tail ++ rest))) := by
    simp
  have hresult (behind : Code) :
      readType (method.openParen :: (method.result ++ method.closeParen :: behind)) =
        (Code.line method.result, behind) := by
    have hnext : Code.nextIs (method.openParen :: (method.result ++ method.closeParen :: behind))
        .openParen = true := by
      rw [nextIs_cons, method.isOpen]
      rfl
    rw [readType, if_pos hnext, List.tail_cons, readParenText_append method.isResult method.isClose]
  have hafter : afterMethod (method.semicolon :: rest) = rest := by
    rw [afterMethod, method.isSemicolon]
  obtain ⟨hcolon, hparts, hvariadic⟩ := readVariadic_tail method rest
  rw [hcode]
  simp only [readMethod, hresult, readSelector_written method hcolon hparts, hvariadic, hafter,
    kind_of_sign]
  rfl

/-- A method declaration in a container is read as one method, and the members behind its semicolon as
without it. It is read as written iff every part behind the first has its own keyword, and its selector
is spelled as written iff that is so. -/
theorem readMembers_written (method : WrittenMethod) (opener : Nat) (rest : Code) :
    readMembers opener (method.code ++ rest) =
        (readMembers opener rest).prepend [method.asRead] ∧
      (method.asRead = method.asWritten ↔ ∀ part ∈ method.more, part.keyword.isSome = true) ∧
      (method.asRead.spelling = method.asWritten.spelling ↔
        ∀ part ∈ method.more, part.keyword.isSome = true) := by
  have hkeyworded (h : ∀ part ∈ method.more, part.keyword.isSome = true) :
      method.asRead = method.asWritten := by
    rw [WrittenMethod.asRead, partsRead_of_keywords h]
    rfl
  have hspelled (h : method.asRead.spelling = method.asWritten.spelling) :
      ∀ part ∈ method.more, part.keyword.isSome = true := by
    have hlength := congrArg String.length h
    simp only [WrittenMethod.asRead, WrittenMethod.asWritten, WrittenMethod.declaring,
      length_join_spelling] at hlength
    intro part hpart
    by_contra hnone
    have hlonger := (spelledLength_partsRead method.first.keyword method.first method.more).2
      ⟨part, hpart, by simpa using hnone⟩
    omega
  refine ⟨?_, ⟨fun h => hspelled (congrArg Cursor.spelling h), hkeyworded⟩, hspelled,
    fun h => congrArg Cursor.spelling (hkeyworded h)⟩
  have hread := readMethod_written method rest
  have hcode : method.code ++ rest = method.sign :: (method.openParen :: method.result ++
      method.closeParen :: ((method.first :: method.more).flatMap WrittenPart.code ++ method.tail) ++
        rest) := rfl
  rw [hcode, readMembers_method (method.isSign.token.imp And.right And.right), hread]
  rfl

/-- The part `keyword:(int)name`. -/
def intPart (keyword : Option CodeToken) (hkeyword : ∀ t ∈ keyword, t.token = .ident)
    (name : String) (hname : name ≠ "") : WrittenPart where
  keyword
  colon := looseToken .colon ":"
  openParen := looseToken .openParen "("
  type := [looseToken .ident "int"]
  closeParen := looseToken .closeParen ")"
  name := looseToken .ident name
  isKeyword := hkeyword
  isColon := rfl
  isOpen := rfl
  isType := .token (by decide) (by decide) .nil
  isClose := rfl
  isName := rfl
  nonempty := by simpa [looseToken] using hname

/-- The method `- (void)m:(int)a :(int)b;`. -/
def secondUnnamed : WrittenMethod where
  flavor := .ofInstances
  sign := looseToken .minus "-"
  openParen := looseToken .openParen "("
  result := [looseToken .ident "void"]
  closeParen := looseToken .closeParen ")"
  first := intPart (some (looseToken .ident "m")) (by simp [looseToken]) "a" (by decide)
  more := [intPart none nofun "b" (by decide)]
  ellipsis := none
  semicolon := looseToken .semicolon ";"
  isSign := .minus rfl
  isOpen := rfl
  isResult := .token (by decide) (by decide) .nil
  isClose := rfl
  isEllipsis := by simp
  isSemicolon := rfl

/-- A part without a keyword behind one with a keyword takes the name of its parameter. -/
theorem readMembers_written_secondUnnamed :
    (readMembers 0 (secondUnnamed.code ++ [looseToken .atKeyword "@end"])).cursors =
        [secondUnnamed.asRead] ∧
      secondUnnamed.asRead.spelling = "m:a:" ∧ secondUnnamed.asWritten.spelling = "m::" ∧
      secondUnnamed.asRead ≠ secondUnnamed.asWritten := by
  obtain ⟨hread, hwritten, -⟩ :=
    readMembers_written secondUnnamed 0 [looseToken .atKeyword "@end"]
  refine ⟨?_, by decide, by decide, fun h => ?_⟩
  · rw [hread, readMembers_end rfl (by decide)]
    rfl
  · exact absurd (hwritten.1 h) (by decide)

end DeclDoc.Declaration
