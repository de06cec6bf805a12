import DeclDoc.Proofs.Recognition
import DeclDoc.Proofs.Words
import Mathlib.Algebra.GroupWithZero.Nat

/-!
# Prototypes and their parameters

Parameters are cut apart at the commas outside of parentheses and square brackets, and no heed is
taken of angle brackets. So a prototype keeps its parameters exactly if no type of a parameter has a
comma among its arguments in angle brackets, other than inside of further brackets
(`scan_prototype_parameters`); where one has, there are more parameters than declared.
-/

set_option autoImplicit false

namespace DeclDoc

theorem Text.tidy_append_of_isBlank {s blanks : List Char} (h : ∀ c ∈ blanks, isBlank c = true) :
    tidy (s ++ blanks) = tidy s := by rw [tidy, words_append_of_isBlank h, tidy]

namespace Declaration

/-! ## Parameters as they are declared -/

/-- A word, perhaps with arguments in angle brackets, and stars behind. -/
inductive IsGenericType : Code → Prop where
  | plain {word : CodeToken} {stars : Code} : IsIdentifier word →
      (∀ t ∈ stars, t.token = .star) → IsGenericType (word :: stars)
  | generic {word less greater : CodeToken} {arguments stars : Code} : IsIdentifier word →
      less.token = .less → greater.token = .greater → (∀ t ∈ stars, t.token = .star) →
      IsGenericType (word :: less :: arguments ++ greater :: stars)

/-- A parameter with a name that no brackets wrap and no comment precedes. -/
structure DeclaredParameter where
  type : Code
  name : CodeToken
  isType : IsGenericType type
  isName : IsIdentifier name
  isNested : IsNestedWithout [.openBrace] type
  isUnwrapped : Declarator.findWrapped? (type ++ [name]) = none
  isBlank : ∀ c ∈ name.lead, Text.isBlank c = true

namespace DeclaredParameter

def code (parameter : DeclaredParameter) : Code := parameter.type ++ [parameter.name]

/-- The parameter as it is declared. -/
def fragment (parameter : DeclaredParameter) : Fragment :=
  .parameter none (Code.line parameter.type) parameter.name.word

end DeclaredParameter

/-- Parameters with a comma between each two. -/
def IsParameterList (declared : List DeclaredParameter) (code : Code) : Prop :=
  IsListed DeclaredParameter.code declared code

variable {t name p q comma semicolon : CodeToken} {code type front rest : Code}

/-! ## One parameter -/

namespace IsGenericType

theorem head (h : IsGenericType type) : ∃ word more, type = word :: more ∧ IsIdentifier word := by
  cases h with
  | plain hword | generic hword => exact ⟨_, _, rfl, hword⟩

theorem dropStorage_eq (h : IsGenericType type) : dropStorage type = type := by
  obtain ⟨word, more, rfl, hword⟩ := h.head
  unfold dropStorage
  simp only [hword.notStorage, hword.notAttribute, Bool.false_eq_true, if_false]

/-- Before the stars at the end is a word or an angle bracket. -/
theorem exists_stars (h : IsGenericType type) :
    ∃ front u stars, type = front ++ u :: stars ∧ (u.token = .ident ∨ u.token = .greater) ∧
      ∀ t ∈ stars, t.token = .star := by
  cases h with
  | plain hword hstars => exact ⟨[], _, _, rfl, .inl hword.token, hstars⟩
  | generic hword _ hgreater hstars => exact ⟨_, _, _, rfl, .inr hgreater, hstars⟩

/-- What is behind such a type is not wrapped in parentheses. -/
theorem isWrapped_eq_false (h : IsGenericType type) (name : CodeToken) (after : Code) :
    (Declarator.mk type name after).isWrapped = false := by
  obtain ⟨front, u, stars, rfl, hu, hstars⟩ := h.exists_stars
  have hparen : (u.token == Token.openParen) = false := by
    rcases hu with hu | hu <;> rw [hu] <;> rfl
  have hmark : isPointerMark u = false := by
    rcases hu with hu | hu <;> rw [isPointerMark, hu] <;> rfl
  have hreverse : (front ++ u :: stars).reverse = stars.reverse ++ u :: front.reverse := by simp
  unfold Declarator.isWrapped
  dsimp only
  rw [hreverse]
  have hall : ∀ t ∈ stars.reverse, t.token = .star := by simpa using hstars
  cases hreversed : stars.reverse with
  | nil => cases front.reverse <;> simp [hmark]
  | cons first more =>
    cases more with
    | nil => simp [hparen]
    | cons second more =>
      have hsecond : second.token = .star := hall second (by simp [hreversed])
      simp [hsecond]

end IsGenericType

namespace DeclaredParameter

variable (parameter : DeclaredParameter)

theorem exists_code : ∃ word t more, parameter.code = word :: t :: more ∧ IsIdentifier word := by
  obtain ⟨word, more, htype, hword⟩ := parameter.isType.head
  rw [code, htype]
  cases more with
  | nil => exact ⟨word, parameter.name, [], rfl, hword⟩
  | cons t more => exact ⟨word, t, more ++ [parameter.name], rfl, hword⟩

/-- The code of a parameter alone is read as it is declared. -/
theorem parameter_code : Declaration.parameter parameter.code = parameter.fragment := by
  have hfind : Declarator.find? parameter.code = some ⟨parameter.type, parameter.name, []⟩ :=
    Declarator.find?_concat parameter.isUnwrapped parameter.isName
  have hnamed : canBeNamed parameter.code = true := by
    obtain ⟨word, t, more, hcode, -⟩ := parameter.exists_code
    have hlength : 1 < parameter.code.length := by rw [hcode]; simp
    have hlast : parameter.code.getLast? = some parameter.name := by simp [code]
    rw [canBeNamed, hlast, Option.any_some, parameter.isName.token, decide_eq_true hlength]
    rfl
  have htype : (Declarator.mk parameter.type parameter.name []).typeName =
      Code.line parameter.type := by
    obtain ⟨word, more, hword, -⟩ := parameter.isType.head
    have hne : parameter.type.isEmpty = false := by rw [hword]; rfl
    simp only [Declarator.typeName, Declarator.typeTokens, parameter.isType.dropStorage_eq, hne,
      parameter.isType.isWrapped_eq_false, Bool.false_eq_true, if_false, List.append_nil,
      Text.tidy_append_of_isBlank parameter.isBlank, Code.line]
  obtain ⟨word, t, more, hcode, -⟩ := parameter.exists_code
  rw [hcode] at hfind hnamed ⊢
  unfold Declaration.parameter
  dsimp only
  rw [if_pos hnamed, hfind]
  dsimp only
  rw [htype, fragment]

theorem code_isNested : IsNestedWithout [.openBrace] parameter.code :=
  parameter.isNested.append <| .of_flat fun u hu => by
    rw [List.mem_singleton.1 hu, parameter.isName.token]
    decide

end DeclaredParameter

/-! ## Commas -/

theorem spanTop_concat (nesting : Nesting) {stop : Token → Bool} (ht : stop t.token = false)
    (depth : Nat) (code : Code) :
    spanTop nesting stop depth (code ++ [t]) =
      if (spanTop nesting stop depth code).2 = [] then (code ++ [t], [])
      else ((spanTop nesting stop depth code).1, (spanTop nesting stop depth code).2 ++ [t]) := by
  induction code generalizing depth with
  | nil =>
    rw [List.nil_append, spanTop_cons (fun _ => ht) rfl]
    rfl
  | cons u more ih =>
    rw [List.cons_append]
    by_cases hstop : depth = 0 ∧ stop u.token
    · simp [spanTop, hstop]
    · simp only [spanTop, hstop, if_false, ih]
      split <;> rfl

/-- A token at the end that is no comma belongs to the last piece. -/
theorem splitCommas_concat (nesting : Nesting) (ht : t.token ≠ .comma) (code : Code) :
    ∃ front last, splitCommas nesting (code ++ [t]) = front ++ [last ++ [t]] := by
  have hstop : (t.token == Token.comma) = false := by simpa using ht
  induction hlength : code.length using Nat.strong_induction_on generalizing code with
  | _ length ih =>
    have hspan := @spanTop_concat t nesting (· == .comma) hstop 0 code
    cases hback : (spanTop nesting (· == .comma) 0 code).2 with
    | nil =>
      rw [hback, if_pos rfl] at hspan
      exact ⟨[], code, splitCommas_of_spanTop_nil hspan⟩
    | cons u more =>
      rw [hback, if_neg (List.cons_ne_nil u more)] at hspan
      have hshorter : more.length < length := by
        have := length_spanTop_le nesting (· == .comma) 0 code
        rw [hback, List.length_cons] at this
        omega
      obtain ⟨front, last, hmore⟩ := ih _ hshorter more rfl
      refine ⟨(spanTop nesting (· == .comma) 0 code).1 :: front, last, ?_⟩
      rw [List.cons_append] at hspan
      rw [splitCommas_of_spanTop_cons hspan, hmore]
      rfl

namespace DeclaredParameter

variable (parameter : DeclaredParameter)

/-- What becomes of the parameter where it is cut at its commas. -/
def pieces : List Code := splitCommas .arguments parameter.code

/-- How many of the pieces are not empty. -/
def pieceCount : Nat := (parameter.pieces.filter fun piece => !piece.isEmpty).length

theorem pieces_of_without_comma (h : IsNestedWithout [.openBrace, .comma] parameter.type) :
    parameter.pieces = [parameter.code] := by
  have hnested : IsNestedWithout [.openBrace, .comma] parameter.code :=
    h.append <| .of_flat fun u hu => by
      rw [List.mem_singleton.1 hu, parameter.isName.token]
      decide
  refine splitCommas_of_nested (.inl rfl) hnested
    ⟨fun token hout => ?_, arguments_counts (by simp)⟩
  simp only [List.mem_cons, not_or] at hout
  simpa using hout.2.1

theorem pieces_concat : ∃ front last, parameter.pieces = front ++ [last ++ [parameter.name]] :=
  splitCommas_concat .arguments (by rw [parameter.isName.token]; decide) parameter.type

/-- A comma in the type leaves something in front of it and the name behind it. -/
theorem pieces_of_comma (h : ¬IsNestedWithout [.openBrace, .comma] parameter.type) :
    ∃ first more last, first ≠ [] ∧
      parameter.pieces = first :: (more ++ [last ++ [parameter.name]]) := by
  have hplain : ∀ {front : Code}, IsNested (fun token => token ∉ [Token.openBrace] ∧ token ≠ .comma)
      front → IsNestedWithout [.openBrace, .comma] front := fun hfront =>
    hfront.mono fun token hout => by simpa using hout
  rcases parameter.isNested.split (· ≠ .comma) with hall | ⟨front, u, back, htype, hfront, hu, -⟩
  · exact absurd (hplain hall) h
  · have hu : u.token = .comma := not_not.1 hu
    have hne : front ≠ [] := by
      rintro rfl
      obtain ⟨word, more, hword, hident⟩ := parameter.isType.head
      rw [hword] at htype
      obtain ⟨rfl, -⟩ := List.cons.inj htype
      rw [hident.token] at hu
      cases hu
    have hcode : parameter.code = front ++ u :: (back ++ [parameter.name]) := by
      rw [code, htype]
      simp
    obtain ⟨more, last, hmore⟩ := splitCommas_concat .arguments (t := parameter.name)
      (by rw [parameter.isName.token]; decide) back
    refine ⟨front, more, last, hne, ?_⟩
    rw [pieces, hcode, splitCommas_comma (.inl rfl) hfront ?_ hu, hmore]
    exact ⟨fun token hout => by simpa using hout.2,
      fun bracket hout => arguments_counts (by simp) bracket hout.1⟩

theorem pieceCount_pos : 0 < parameter.pieceCount := by
  obtain ⟨front, last, hpieces⟩ := parameter.pieces_concat
  rw [pieceCount, hpieces, List.filter_append, List.length_append]
  simp

theorem one_lt_pieceCount (h : ¬IsNestedWithout [.openBrace, .comma] parameter.type) :
    1 < parameter.pieceCount := by
  obtain ⟨first, more, last, hfirst, hpieces⟩ := parameter.pieces_of_comma h
  have hkept : (!first.isEmpty) = true := by simpa using hfirst
  rw [pieceCount, hpieces, List.filter_cons, if_pos hkept, List.filter_append, List.length_cons,
    List.length_append]
  simp

theorem pieces_ne_singleton (t : CodeToken) : parameter.pieces ≠ [[t]] := by
  intro heq
  by_cases h : IsNestedWithout [.openBrace, .comma] parameter.type
  · rw [parameter.pieces_of_without_comma h] at heq
    obtain ⟨word, u, more, hcode, -⟩ := parameter.exists_code
    rw [hcode] at heq
    simp at heq
  · obtain ⟨first, more, last, -, hpieces⟩ := parameter.pieces_of_comma h
    rw [hpieces] at heq
    simp at heq

end DeclaredParameter

/-! ## Lists of parameters -/

namespace IsParameterList

variable {declared : List DeclaredParameter}

theorem isNested (h : IsParameterList declared code) : IsNested (fun _ => True) code :=
  IsListed.isNested h trivial fun parameter _ => parameter.code_isNested.mono fun _ _ => trivial

theorem not_isPointerMark (h : IsParameterList declared code) :
    code.head?.any isPointerMark = false := by
  obtain ⟨first, -, rest, -, rfl⟩ := h.exists_first
  obtain ⟨word, t, more, hcode, hword⟩ := first.exists_code
  rw [hcode, List.cons_append, List.head?_cons, Option.any_some, isPointerMark, hword.token]
  rfl

theorem splitCommas_eq (h : IsParameterList declared code) :
    splitCommas .arguments code = declared.flatMap DeclaredParameter.pieces :=
  IsListed.splitCommas_eq (.inl rfl) h (fun parameter _ => parameter.code_isNested)
    (arguments_counts (by simp))

/-- A name is at the end, so no piece is left out. -/
theorem parameterParts_eq (h : IsParameterList declared code) :
    parameterParts code = declared.flatMap DeclaredParameter.pieces := by
  obtain ⟨before, parameter, -, hcode⟩ := h.exists_last
  have hend : code = (before ++ parameter.type) ++ [parameter.name] := by
    rw [hcode, DeclaredParameter.code, List.append_assoc]
  obtain ⟨front, last, hsplit⟩ := splitCommas_concat .arguments (t := parameter.name)
    (by rw [parameter.isName.token]; decide) (before ++ parameter.type)
  rw [← hend] at hsplit
  rw [← h.splitCommas_eq, parameterParts, hsplit]
  simp

theorem parameters_eq (h : IsParameterList declared code) :
    parameters code =
      ((declared.flatMap DeclaredParameter.pieces).filter fun part => !part.isEmpty).map
        parameter := by
  have hmany : ∀ t, declared.flatMap DeclaredParameter.pieces ≠ [[t]] := by
    intro t heq
    cases h with
    | one parameter => exact parameter.pieces_ne_singleton t (by simpa using heq)
    | @more parameter comma declared code _ hmore =>
      obtain ⟨_, _, hfirst⟩ := parameter.pieces_concat
      have hlength := congrArg List.length heq
      cases hmore with
      | one other | more other =>
        obtain ⟨_, _, hsecond⟩ := other.pieces_concat
        simp only [List.flatMap_cons, hfirst, hsecond, List.length_append, List.length_cons,
          List.length_nil] at hlength
        omega
  unfold parameters
  rw [h.parameterParts_eq]
  split
  · next heq => exact absurd heq (hmany _)
  · rfl

/-- Parameters without such commas are read as they are declared. -/
theorem parameters_of_without_commas (h : IsParameterList declared code)
    (hcommas : ∀ parameter ∈ declared, IsNestedWithout [.openBrace, .comma] parameter.type) :
    parameters code = declared.map DeclaredParameter.fragment := by
  rw [h.parameters_eq]
  clear h
  induction declared with
  | nil => rfl
  | cons parameter more ih =>
    obtain ⟨hfirst, hmore⟩ := List.forall_mem_cons.1 hcommas
    obtain ⟨word, t, rest, hcode, -⟩ := parameter.exists_code
    have hkept : (!parameter.code.isEmpty) = true := by rw [hcode]; rfl
    rw [List.flatMap_cons, parameter.pieces_of_without_comma hfirst, List.singleton_append,
      List.filter_cons, if_pos hkept, List.map_cons, ih hmore, parameter.parameter_code,
      List.map_cons]

/-- Each parameter is read as one at least, and one with such a comma as more. -/
theorem length_parameters (h : IsParameterList declared code) :
    (parameters code).length = (declared.map DeclaredParameter.pieceCount).sum := by
  rw [h.parameters_eq, List.length_map]
  clear h
  induction declared with
  | nil => rfl
  | cons parameter more ih =>
    rw [List.flatMap_cons, List.filter_append, List.length_append, ih]
    rfl

theorem lt_length_parameters (h : IsParameterList declared code) {parameter : DeclaredParameter}
    (hmem : parameter ∈ declared)
    (hcomma : ¬IsNestedWithout [.openBrace, .comma] parameter.type) :
    declared.length < (parameters code).length := by
  rw [h.length_parameters]
  clear h
  have hlength : ∀ list : List DeclaredParameter,
      list.length ≤ (list.map DeclaredParameter.pieceCount).sum := by
    intro list
    induction list with
    | nil => exact Nat.le_refl 0
    | cons other more ih =>
      have := other.pieceCount_pos
      simp only [List.map_cons, List.sum_cons, List.length_cons]
      omega
  obtain ⟨front, back, rfl⟩ := List.append_of_mem hmem
  have hfront := hlength front
  have hback := hlength back
  have hmany := parameter.one_lt_pieceCount hcomma
  simp only [List.map_append, List.map_cons, List.sum_append, List.sum_cons, List.length_append,
    List.length_cons]
  omega

end IsParameterList

/-- A prototype is read as one function, and what is behind its semicolon as without it. The function
returns what is declared, and it takes the declared parameters in order iff no comma stands in the
angle brackets of one of their types, but inside of further brackets. -/
theorem scan_prototype_parameters {declared : List DeclaredParameter} (htype : IsType type)
    (hname : IsIdentifier name) (hhead : IsUninterrupted (type ++ [name]))
    (hp : p.token = .openParen) (hparameters : IsParameterList declared code)
    (hq : q.token = .closeParen) (hsemicolon : semicolon.token = .semicolon) (rest : Code) :
    ∃ cursor, scan (type ++ name :: p :: (code ++ q :: semicolon :: rest)) =
        (scan rest).after [cursor] [] ∧
      cursor.kind = .function ∧ cursor.spelling = name.word ∧ cursor.children = [] ∧
      (cursor.detail.signature =
          .returns (Code.line type) :: declared.map DeclaredParameter.fragment ↔
        ∀ parameter ∈ declared, IsNestedWithout [.openBrace, .comma] parameter.type) := by
  refine ⟨functionOf type name code, ?_, rfl, rfl, rfl, ?_⟩
  · exact scan_prototype htype hname hhead hp hparameters.isNested hparameters.not_isPointerMark hq
      hsemicolon rest
  · constructor
    · intro hsignature parameter hmem
      have hread : parameters code = declared.map DeclaredParameter.fragment :=
        (List.cons.inj hsignature).2
      by_contra hcomma
      have hmore := hparameters.lt_length_parameters hmem hcomma
      rw [hread, List.length_map] at hmore
      exact absurd hmore (Nat.lt_irrefl _)
    · intro hcommas
      exact congrArg _ (hparameters.parameters_of_without_commas hcommas)

/-- The parameter `NSDictionary<NSString *, id> *d`. -/
def dictionaryParameter : DeclaredParameter where
  type :=
    looseToken .ident "NSDictionary" :: looseToken .less "<" ::
      [looseToken .ident "NSString", looseToken .star "*" " ", looseToken .comma ",",
        looseToken .ident "id" " "] ++ looseToken .greater ">" :: [looseToken .star "*" " "]
  name := looseToken .ident "d"
  isType := .generic (by decide) rfl rfl (by simp [looseToken])
  isName := by decide
  isNested := .of_flat (by decide)
  isUnwrapped := by decide
  isBlank := nofun

/-- The comma among the arguments of a dictionary makes two parameters of one. -/
theorem scan_prototype_parameters_dictionary :
    ∃ cursor, scan (looseToken .ident "void" :: [looseToken .ident "f" " "] ++
          looseToken .openParen "(" :: (dictionaryParameter.code ++
            [looseToken .closeParen ")", looseToken .semicolon ";"])) =
        (scan []).after [cursor] [] ∧
      cursor.spelling = "f" ∧
      cursor.detail.signature ≠
        [.returns "void", .parameter none "NSDictionary<NSString *, id> *" "d"] := by
  have htype : IsType [looseToken .ident "void"] := .of_identifier (by decide)
  have hname : IsIdentifier (looseToken .ident "f" " ") := by decide
  have hopen : (looseToken .openParen "(").token = .openParen := rfl
  have hclose : (looseToken .closeParen ")").token = .closeParen := rfl
  have hsemicolon : (looseToken .semicolon ";").token = .semicolon := rfl
  obtain ⟨cursor, hscan, -, hspelling, -, hsignature⟩ :=
    scan_prototype_parameters htype hname (by decide) hopen (.one dictionaryParameter) hclose
      hsemicolon []
  refine ⟨cursor, hscan, hspelling, fun heq => ?_⟩
  have hcommas := hsignature.1 (heq.trans (by decide)) dictionaryParameter (by simp)
  -- the comma is the fifth token, and there are no brackets before it
  have hcomma := ((((hcommas.cons_inv.2 (by decide)).cons_inv.2 (by decide)).cons_inv.2
    (by decide)).cons_inv.2 (by decide)).cons_inv.1
  exact hcomma (by decide)

end Declaration

end DeclDoc
