import DeclDoc.Proofs.Recognition
import DeclDoc.Proofs.Shift
import DeclDoc.Proofs.LexerLocality

/-!
# Function definitions

A definition ends with its closing brace, and a text that ends so is lexed alone as it is in front of
any other (`lex_append`). So what is scanned behind a definition without default values is what is
scanned there alone, shifted by the length of the definition. A default value makes a variable of the
parameter that has it, and then the next statement is passed over (`scan_definition_default`). That
is the only exception (`scanText_definition`).
-/

set_option autoImplicit false

namespace DeclDoc

/-! ## Text behind a closing brace -/

/-- A closing brace is read alone. -/
theorem Lexer.Extent.read_closeBrace {c : Char} {s : List Char}
    (h : (read c s).token = some .closeBrace) : c = '\x7d' := by
  have hsingle : ∀ c, single? c = some .closeBrace → c = '\x7d' := by
    intro c hc
    unfold single? at hc
    split at hc <;> first | rfl | cases hc
  unfold read at h
  split at h
  · cases h
  split at h
  · cases h
  split at h
  · cases h
  · cases h
  · cases h
  · cases token_of_literal h
  · split at h <;> cases h
  · cases token_of_literal h
  · cases token_of_literal h
  · cases h
  · exact hsingle _ h

theorem Lexer.Extent.read_brace (s : List Char) : read '\x7d' s = ⟨some .closeBrace, 0⟩ :=
  read_of_alone ⟨rfl, rfl, by decide, fun h => absurd h (by decide), fun h => absurd h (by decide),
    fun h => absurd h (by decide)⟩

/-- A text that ends with a closing brace is lexed as it is alone, and so is what stands behind. -/
theorem lex_append {front : List Char} {before : List Lexeme} {last : Lexeme}
    (h : lex front = (before ++ [last], [])) (hlast : last.token = some .closeBrace)
    (source : List Char) :
    lex (front ++ source) =
      (before ++ last :: (lex source).1.map (·.shift (Text.byteLength front)), (lex source).2) := by
  obtain ⟨tail, hfront, htail, hother⟩ := lexFrom_writtenAll h
  obtain ⟨rest, rfl, hstart, hstands, hrest⟩ := lexFrom_eq_cons_iff.1 htail
  obtain ⟨rfl, -⟩ := lexFrom_eq_nil_iff.1 hrest
  obtain ⟨c, a, htext, -, hread⟩ := hstands.read
  obtain rfl : c = '\x7d' := Lexer.Extent.read_closeBrace (by rw [hread, hlast])
  obtain rfl : a = [] := by
    rw [Lexer.Extent.read_brace] at hread
    exact List.eq_nil_of_length_eq_zero (congrArg Lexer.Extent.more hread).symm
  have hwritten : last.written = last.gap ++ ['\x7d'] := by rw [Lexeme.written, htext]
  -- what stands behind the lexemes before begins alike, with or without the other text
  have hyields : Lexer.Yields (last.written ++ []) (last.written ++ source) := by
    rw [hwritten]
    cases hgap : last.gap with
    | nil => exact .inr ⟨'\x7d', [], '\x7d', source, rfl, rfl, rfl, .inl rfl⟩
    | cons d gap =>
      have hd : Lexer.isSpace d = true := hstands.gap d (by simp [hgap])
      exact .inr ⟨d, gap ++ ['\x7d'] ++ [], d, gap ++ ['\x7d'] ++ source, by simp, by simp,
        Lexer.endsToken_of_isSpace hd, .inl rfl⟩
  have hstop : last.stop = 0 + Text.byteLength front := by
    rw [Lexeme.stop, hstart, hfront]
    simp only [Lexeme.written, Text.byteLength_append, List.append_nil]
    omega
  have hlater : lexFrom (0 + Text.byteLength (Lexeme.writtenAll before)) (last.written ++ source) =
      (last :: (lex source).1.map (·.shift (Text.byteLength front)), (lex source).2) := by
    refine lexFrom_eq_cons_iff.2 ⟨source, rfl, hstart, ⟨hstands.gap, '\x7d', [], htext, by decide, ?_⟩,
      ?_⟩
    · rw [List.nil_append, Lexer.Extent.read_brace, hlast]
      rfl
    · rw [hstop]
      exact lexFrom_add 0 (Text.byteLength front) source
  have hsource : front ++ source = Lexeme.writtenAll before ++ (last.written ++ source) := by
    rw [hfront]
    simp
  rw [hsource]
  show lexFrom 0 _ = _
  rw [hother _ hyields, hlater]

namespace Code

/-- The code tokens behind a code token are those that are found there alone. -/
theorem ofLexemesAfter_append {x : Lexeme} {token : Token} (hx : x.token = some token)
    (hcode : token.isComment = false) (before behind : List Lexeme) (lead : List Char)
    (commented : Bool) :
    ofLexemesAfter lead commented (before ++ x :: behind) =
      ofLexemesAfter lead commented (before ++ [x]) ++ ofLexemes behind := by
  obtain ⟨front, hfront⟩ := exists_ofLexemesAfter_append before lead commented
  rw [hfront, hfront [x], List.append_assoc]
  simp only [ofLexemesAfter, hx, hcode, Bool.false_eq_true, if_false]
  rfl

/-- The last code token is that of the last lexeme. -/
theorem exists_ofLexemesAfter_concat {x : Lexeme} {token : Token} (hx : x.token = some token)
    (hcode : token.isComment = false) (before : List Lexeme) (lead : List Char)
    (commented : Bool) :
    ∃ front t, ofLexemesAfter lead commented (before ++ [x]) = front ++ [t] ∧ t.token = token := by
  obtain ⟨front, hfront⟩ := exists_ofLexemesAfter_append before lead commented
  rw [hfront]
  simp only [ofLexemesAfter, hx, hcode, Bool.false_eq_true, if_false]
  exact ⟨_, _, rfl, rfl⟩

theorem ofLexemesAfter_shift (n : Nat) (lexemes : List Lexeme) (lead : List Char)
    (commented : Bool) :
    ofLexemesAfter lead commented (lexemes.map (·.shift n)) =
      (ofLexemesAfter lead commented lexemes).map (Shift.of n).apply := by
  induction lexemes generalizing lead commented with
  | nil => rfl
  | cons x more ih =>
    have hwritten : (x.shift n).written = x.written := rfl
    have htoken : (x.shift n).token = x.token := rfl
    rw [List.map_cons, ofLexemesAfter, ofLexemesAfter, htoken, hwritten]
    cases x.token with
    | none => exact ih (lead ++ x.written) false
    | some token =>
      dsimp only
      split
      · exact ih (lead ++ x.written) true
      · rw [List.map_cons, ← ih]
        rfl

end Code

namespace Declaration

/-- What is scanned behind a closing brace is what is scanned there alone, further on. -/
theorem scanText_append {front : List Char} {before : List Lexeme} {last : Lexeme}
    (h : lex front = (before ++ [last], [])) (hlast : last.token = some .closeBrace)
    (source : List Char) :
    scanText (front ++ source) =
      scan (Code.ofLexemes (before ++ [last]) ++
        (Code.ofLexemes (lex source).1).map (Shift.of (Text.byteLength front)).apply) := by
  rw [scanText, lex_append h hlast source, Code.ofLexemes,
    Code.ofLexemesAfter_append hlast rfl before, Code.ofLexemes,
    Code.ofLexemesAfter_shift]
  rfl

/-! ## Parameters with default values -/

/-- A literal, or a word such as `nil` that stands for one. -/
def IsLiteral (t : CodeToken) : Prop :=
  t.token ∈ [Token.number, .stringLiteral, .charLiteral] ∨ IsIdentifier t

instance (t : CodeToken) : Decidable (IsLiteral t) := inferInstanceAs (Decidable (_ ∨ _))

/-- A parameter, and its default value behind an equals sign, if it has one. -/
structure DefaultedParameter where
  type : Code
  name : CodeToken
  default : Option (CodeToken × CodeToken)
  isType : IsType type
  isName : IsIdentifier name
  isDefault : ∀ value ∈ default, value.1.token = .equals ∧ IsLiteral value.2

def DefaultedParameter.code (parameter : DefaultedParameter) : Code :=
  parameter.type ++ parameter.name ::
    (parameter.default.map fun value => [value.1, value.2]).getD []

/-- Parameters with a comma between each two, or none at all. -/
inductive IsDefaulted : List DefaultedParameter → Code → Prop where
  | nil : IsDefaulted [] []
  | some {declared : List DefaultedParameter} {code : Code} :
      IsListed DefaultedParameter.code declared code → IsDefaulted declared code

variable {t name p q brace close : CodeToken} {code type front rest arguments body : Code}

/-! ## Heads -/

namespace DefaultedParameter

variable (parameter : DefaultedParameter)

/-- A parameter is made of plain words, stars, equals signs and literals. -/
theorem forall_code {P : CodeToken → Prop} (hword : ∀ t, IsIdentifier t → P t)
    (hother : ∀ t : CodeToken, t.token ∈ [Token.star, .equals, .number, .stringLiteral,
      .charLiteral] → P t) : ∀ u ∈ parameter.code, P u := by
  obtain ⟨names, stars, htype, -, hnames, hstars⟩ := parameter.isType.split
  rw [code, htype]
  refine List.forall_mem_append.2 ⟨List.forall_mem_append.2 ⟨fun u hu => hword u (hnames u hu),
    fun u hu => hother u (by simp [hstars u hu])⟩, List.forall_mem_cons.2 ⟨hword _ parameter.isName,
    ?_⟩⟩
  intro u hu
  cases hdefault : parameter.default with
  | none =>
    rw [hdefault] at hu
    cases hu
  | some value =>
    obtain ⟨hequals, hvalue⟩ := parameter.isDefault value hdefault
    have hu : u = value.1 ∨ u = value.2 := by simpa [hdefault] using hu
    rcases hu with rfl | rfl
    · exact hother _ (by simp [hequals])
    · rcases hvalue with hvalue | hvalue
      · exact hother _ (List.mem_cons_of_mem _ (List.mem_cons_of_mem _ hvalue))
      · exact hword _ hvalue

theorem code_head : ∃ u more, parameter.code = u :: more ∧ IsIdentifier u := by
  obtain ⟨u, more, htype, hu⟩ := parameter.isType.head
  rw [code, htype]
  exact ⟨u, _, rfl, hu⟩

end DefaultedParameter

namespace IsDefaulted

variable {declared : List DefaultedParameter}

/-- There are no other tokens in parameters than in each of them, and commas. -/
theorem forall_code (h : IsDefaulted declared arguments) {P : CodeToken → Prop}
    (hword : ∀ t, IsIdentifier t → P t)
    (hother : ∀ t : CodeToken, t.token ∈ [Token.star, .equals, .number, .stringLiteral,
      .charLiteral] → P t)
    (hcomma : ∀ t : CodeToken, t.token = .comma → P t) : ∀ u ∈ arguments, P u := by
  cases h with
  | nil => nofun
  | some hlist => exact hlist.forall_token (fun parameter _ => parameter.forall_code hword hother) hcomma

theorem isNested (h : IsDefaulted declared arguments) : IsNested (fun _ => True) arguments := by
  refine .of_flat <| h.forall_code (P := fun u => IsNoBracket u.token ∧ True) ?_ ?_ ?_
  · intro u hu
    rw [hu.token]
    decide
  · intro u hu
    simp only [List.mem_cons, List.not_mem_nil, or_false] at hu
    rcases hu with hu | hu | hu | hu | hu <;> rw [hu] <;> decide
  · intro u hu
    rw [hu]
    decide

theorem not_isPointerMark (h : IsDefaulted declared arguments) :
    arguments.head?.any isPointerMark = false := by
  cases h with
  | nil => rfl
  | some hlist =>
    obtain ⟨first, -, rest, -, rfl⟩ := hlist.exists_first
    obtain ⟨u, more, hcode, hu⟩ := first.code_head
    rw [hcode, List.cons_append, List.head?_cons, Option.any_some, isPointerMark, hu.token]
    rfl

/-- Without default values there is no equals sign. -/
theorem forall_ne_equals (h : IsDefaulted declared arguments)
    (hdefaults : ∀ parameter ∈ declared, parameter.default = none) :
    ∀ u ∈ arguments, u.token ≠ .equals := by
  have hplain (parameter : DefaultedParameter) (hnone : parameter.default = none) :
      ∀ u ∈ parameter.code, u.token ≠ .equals := by
    rw [DefaultedParameter.code, hnone]
    exact parameter.isType.forall_token_name (P := (· ≠ .equals)) parameter.isName (by decide)
      (by decide)
  cases h with
  | nil => nofun
  | some hlist =>
    refine hlist.forall_token (fun parameter hmem => hplain parameter (hdefaults parameter hmem)) ?_
    intro u hu
    rw [hu]
    decide

/-- The first default value stands behind the name of its parameter. -/
theorem exists_default (h : IsDefaulted declared arguments)
    (hdefault : ∃ parameter ∈ declared, parameter.default ≠ none) :
    ∃ parameter ∈ declared, ∃ front equals rest,
      arguments = front ++ parameter.name :: equals :: rest ∧ equals.token = .equals ∧
        ∀ u ∈ front, u.token ∈ [Token.ident, .star, .comma] := by
  have htype (parameter : DefaultedParameter) :
      ∀ u ∈ parameter.type, u.token ∈ [Token.ident, .star, .comma] :=
    parameter.isType.forall_token (P := (· ∈ [Token.ident, .star, .comma])) (by decide) (by decide)
  have hsome (parameter : DefaultedParameter) (hne : parameter.default ≠ none) :
      ∃ equals rest, parameter.code = parameter.type ++ parameter.name :: equals :: rest ∧
        equals.token = .equals := by
    obtain ⟨value, hvalue⟩ := Option.ne_none_iff_exists'.1 hne
    exact ⟨value.1, [value.2], by rw [DefaultedParameter.code, hvalue]; rfl,
      (parameter.isDefault value hvalue).1⟩
  cases h with
  | nil => exact absurd hdefault (by simp)
  | some hlist =>
    induction hlist with
    | one parameter =>
      have hne : parameter.default ≠ none := by simpa using hdefault
      obtain ⟨equals, rest, hcode, hequals⟩ := hsome parameter hne
      exact ⟨parameter, by simp, parameter.type, equals, rest, hcode, hequals, htype parameter⟩
    | @more parameter comma others code hcomma _ ih =>
      by_cases hnone : parameter.default = none
      · obtain ⟨other, hother, hne⟩ := hdefault
        have hother : other ∈ others := (List.mem_cons.1 hother).resolve_left fun heq =>
          hne (heq ▸ hnone)
        obtain ⟨found, hfound, front, equals, rest, rfl, hequals, hfront⟩ := ih ⟨other, hother, hne⟩
        refine ⟨found, List.mem_cons_of_mem _ hfound,
          parameter.type ++ parameter.name :: comma :: front, equals, rest, ?_, hequals, ?_⟩
        · rw [DefaultedParameter.code, hnone]
          simp
        · refine List.forall_mem_append.2 ⟨htype parameter, List.forall_mem_cons.2 ⟨?_,
            List.forall_mem_cons.2 ⟨?_, hfront⟩⟩⟩
          · rw [parameter.isName.token]
            decide
          · rw [hcomma]
            decide
      · obtain ⟨equals, rest, hcode, hequals⟩ := hsome parameter hnone
        exact ⟨parameter, by simp, parameter.type, equals, rest ++ comma :: code,
          by rw [hcode]; simp, hequals, htype parameter⟩

end IsDefaulted

/-! ## Definitions -/

theorem isWordOf_of_token (h : t.token ≠ .ident) (words : List String) :
    t.isWordOf words = false := by
  rw [CodeToken.isWordOf, beq_false_of_ne h, Bool.false_and]

/-- What holds of the tokens of a head, part by part. -/
theorem forall_head {P : CodeToken → Prop} (htype : ∀ u ∈ type ++ [name], P u) (hp : P p)
    (harguments : ∀ u ∈ arguments, P u) (hq : P q) :
    ∀ u ∈ type ++ name :: p :: (arguments ++ [q]), P u := by
  rw [List.append_cons]
  exact List.forall_mem_append.2 ⟨htype, List.forall_mem_cons.2 ⟨hp,
    List.forall_mem_append.2 ⟨harguments, by simpa using hq⟩⟩⟩

/-- A declaration before an opening brace is what its head declares. -/
theorem scan_of_braced {declared : List DefaultedParameter} {cursors : List Cursor} {behind : Code}
    (htype : IsType type) (hname : IsIdentifier name) (hhead : IsUninterrupted (type ++ [name]))
    (hp : p.token = .openParen) (harguments : IsDefaulted declared arguments)
    (hq : q.token = .closeParen) (hbrace : brace.token = .openBrace)
    (hbraced : braced (type ++ name :: p :: (arguments ++ [q])) rest = (cursors, behind)) :
    scan (type ++ name :: p :: (arguments ++ q :: brace :: rest)) =
      (scan behind).after cursors [] := by
  have hspan := spanHead_prototype htype hname hp harguments.isNested hq
    (by rw [hbrace]; rfl : endsHead brace.token = true) rest
  have hplain : readPlain (type ++ name :: p :: (arguments ++ q :: brace :: rest)) =
      (cursors, behind) := by
    unfold readPlain
    dsimp only
    rw [hspan]
    dsimp only
    rw [hbrace]
    dsimp only
    rw [restart_prototype htype hhead hp, hbraced]
  obtain ⟨t, more, rfl, ht⟩ := htype.head
  rw [List.cons_append] at hplain ⊢
  rw [scan_plain ht.token, hplain]

/-- A definition without default values declares its function and nothing else. -/
theorem scan_definition {declared : List DefaultedParameter} (htype : IsType type)
    (hname : IsIdentifier name) (hhead : IsUninterrupted (type ++ [name]))
    (hp : p.token = .openParen) (harguments : IsDefaulted declared arguments)
    (hq : q.token = .closeParen) (hbrace : brace.token = .openBrace) (hbody : IsPaired .brace body)
    (hclose : close.token = .closeBrace)
    (hdefaults : ∀ parameter ∈ declared, parameter.default = none) (rest : Code) :
    scan (type ++ name :: p :: (arguments ++ q :: brace :: (body ++ close :: rest))) =
      (scan rest).after [functionOf type name arguments] [] := by
  have hfunction := function?_prototype htype hname hp harguments.isNested
    harguments.not_isPointerMark hq
  have hequals : (type ++ name :: p :: (arguments ++ [q])).any (·.token == .equals) = false := by
    rw [List.any_eq_false]
    refine forall_head (P := fun u => ¬(u.token == Token.equals) = true) (fun u hu => ?_) (by simp [hp])
      (fun u hu => by simpa using harguments.forall_ne_equals hdefaults u hu) (by simp [hq])
    have := htype.forall_token_name (P := (· ≠ .equals)) hname (by decide) (by decide) u hu
    simpa using this
  have hmacros : findWord? enumMacros (type ++ name :: p :: (arguments ++ [q])) = none := by
    have hother {u : CodeToken} (hu : u.token ≠ .ident) : u.isWordOf enumMacros = false :=
      isWordOf_of_token hu enumMacros
    refine findWord?_eq_none <| forall_head (P := fun u => u.isWordOf enumMacros = false)
      (List.forall_mem_append.2 ⟨?_, by simpa using hname.notEnumMacro⟩)
      (hother (by rw [hp]; decide)) ?_ (hother (by rw [hq]; decide))
    · obtain ⟨names, stars, rfl, -, hnames, hstars⟩ := htype.split
      exact List.forall_mem_append.2 ⟨fun u hu => (hnames u hu).notEnumMacro,
        fun u hu => hother (by rw [hstars u hu]; decide)⟩
    · exact harguments.forall_code (fun u hu => hu.notEnumMacro)
        (fun u hu => hother fun heq => by simp [heq] at hu) fun u hu => hother (by rw [hu]; decide)
  refine scan_of_braced htype hname hhead hp harguments hq hbrace ?_
  unfold braced
  dsimp only
  rw [hequals, if_neg Bool.false_ne_true, hmacros]
  dsimp only
  rw [hfunction]
  dsimp only
  rw [afterBraces, skip_paired hbody hclose]

/-- The name in front of the first equals sign in a head is taken for a variable. -/
theorem variableOf?_head {other equals : CodeToken} (htype : IsType type) (hname : IsIdentifier name)
    (hp : p.token = .openParen) (hfront : ∀ u ∈ front, u.token ∈ [Token.ident, .star, .comma])
    (hmark : (front ++ [other]).head?.any isPointerMark = false) (hother : IsIdentifier other)
    (hequals : equals.token = .equals) (back : Code) :
    ∃ cursor, variableOf? (withoutInitializer
        (type ++ name :: p :: (front ++ other :: equals :: back))) = some cursor ∧
      cursor.kind = .variable ∧ cursor.spelling = other.word := by
  have hbefore : ∀ u ∈ type ++ [name], u.token ≠ .openParen ∧ u.token ≠ .equals :=
    htype.forall_token_name (P := fun token => token ≠ .openParen ∧ token ≠ .equals) hname
      (by decide) (by decide)
  have hinside : ∀ u ∈ front ++ [other], u.token ≠ .openParen ∧ u.token ≠ .equals := by
    have hplain : ∀ token ∈ [Token.ident, .star, .comma],
        token ≠ .openParen ∧ token ≠ .equals := by decide
    exact List.forall_mem_append.2 ⟨fun u hu => hplain _ (hfront u hu), by simp [hother.token]⟩
  have hcut : withoutInitializer (type ++ name :: p :: (front ++ other :: equals :: back)) =
      (type ++ [name]) ++ p :: (front ++ [other]) := by
    have hcode : type ++ name :: p :: (front ++ other :: equals :: back) =
        ((type ++ [name]) ++ p :: (front ++ [other])) ++ equals :: back := by simp
    have hall : ∀ u ∈ (type ++ [name]) ++ p :: (front ++ [other]),
        (u.token != Token.equals) = true :=
      List.forall_mem_append.2 ⟨fun u hu => by simpa using (hbefore u hu).2,
        List.forall_mem_cons.2 ⟨by simp [hp], fun u hu => by simpa using (hinside u hu).2⟩⟩
    rw [withoutInitializer, Code.before, hcode, List.takeWhile_append_of_pos hall,
      List.takeWhile_cons_of_neg (by simp [hequals]), List.append_nil]
  have hunwrapped : Declarator.findWrapped? ((type ++ [name]) ++ p :: (front ++ [other])) = none := by
    rw [Declarator.findWrapped?_skip fun u hu => (hbefore u hu).1,
      Declarator.findWrapped?_cons (.inr hmark),
      Declarator.findWrapped?_eq_none fun u hu => (hinside u hu).1]
    rfl
  have hfind : Declarator.find? ((type ++ [name]) ++ p :: (front ++ [other])) =
      some ⟨(type ++ [name]) ++ p :: front, other, []⟩ := by
    have hcode : (type ++ [name]) ++ p :: (front ++ [other]) =
        ((type ++ [name]) ++ p :: front) ++ [other] := by simp
    rw [hcode] at hunwrapped ⊢
    exact Declarator.find?_concat hunwrapped hother
  obtain ⟨t, more, rfl, ht⟩ := htype.head
  have htypeTokens : (Declarator.mk (t :: more ++ [name] ++ p :: front) other []).typeTokens =
      t :: more ++ [name] ++ p :: front := by
    rw [Declarator.typeTokens, List.cons_append, List.cons_append]
    unfold dropStorage
    simp only [ht.notStorage, ht.notAttribute, Bool.false_eq_true, if_false]
  rw [hcut, variableOf?, variableDeclarator?, hfind, Option.filter_some, htypeTokens]
  exact ⟨_, rfl, rfl, rfl⟩

/-- A default value makes a variable of its parameter, and what follows the definition is passed over
up to the end of the next statement. -/
theorem scan_definition_default {declared : List DefaultedParameter} (htype : IsType type)
    (hname : IsIdentifier name) (hhead : IsUninterrupted (type ++ [name]))
    (hp : p.token = .openParen) (harguments : IsDefaulted declared arguments)
    (hq : q.token = .closeParen) (hbrace : brace.token = .openBrace) (hbody : IsPaired .brace body)
    (hclose : close.token = .closeBrace)
    (hdefault : ∃ parameter ∈ declared, parameter.default ≠ none) (rest : Code) :
    ∃ cursor, scan (type ++ name :: p :: (arguments ++ q :: brace :: (body ++ close :: rest))) =
        (scan (afterStatement rest)).after [cursor] [] ∧
      cursor.kind = .variable ∧ ∃ parameter ∈ declared, cursor.spelling = parameter.name.word := by
  have hpointer := harguments.not_isPointerMark
  obtain ⟨parameter, hmem, front, equals, back, hcode, hequals, hfront⟩ :=
    harguments.exists_default hdefault
  have hmark : (front ++ [parameter.name]).head?.any isPointerMark = false := by
    rw [hcode] at hpointer
    cases front <;> exact hpointer
  have hhead' : type ++ name :: p :: (arguments ++ [q]) =
      type ++ name :: p :: (front ++ parameter.name :: equals :: (back ++ [q])) := by simp [hcode]
  obtain ⟨cursor, hvariable, hkind, hspelling⟩ :=
    variableOf?_head htype hname hp hfront hmark parameter.isName hequals (back ++ [q])
  have hassigned : (type ++ name :: p :: (arguments ++ [q])).any (·.token == .equals) = true :=
    List.any_eq_true.2 ⟨equals, by simp [hhead'], by simp [hequals]⟩
  refine ⟨cursor, scan_of_braced htype hname hhead hp harguments hq hbrace ?_, hkind, parameter, hmem,
    hspelling⟩
  unfold braced
  dsimp only
  rw [if_pos hassigned, hhead', hvariable, afterBraces, skip_paired hbody hclose]
  rfl

/-- What is scanned of a definition with any source behind it is its function and what is scanned of
that source alone, shifted by the length of the definition, iff no parameter has a default value. -/
theorem scanText_definition {definition : List Char} {before : List Lexeme} {last : Lexeme}
    {declared : List DefaultedParameter} (hlex : lex definition = (before ++ [last], []))
    (hlast : last.token = some .closeBrace)
    (hcode : Code.ofLexemes (before ++ [last]) =
      type ++ name :: p :: (arguments ++ q :: brace :: (body ++ [close])))
    (htype : IsType type) (hname : IsIdentifier name) (hhead : IsUninterrupted (type ++ [name]))
    (hp : p.token = .openParen) (harguments : IsDefaulted declared arguments)
    (hq : q.token = .closeParen) (hbrace : brace.token = .openBrace) (hbody : IsPaired .brace body)
    (source : List Char) :
    (∃ cursor : Cursor, scanText (definition ++ source) =
        ((scanText source).shift (Text.byteLength definition)).after [cursor] [] ∧
      cursor.kind = .function ∧ cursor.spelling = name.word ∧ cursor.children = []) ↔
      ∀ parameter ∈ declared, parameter.default = none := by
  have hclose : close.token = .closeBrace := by
    obtain ⟨front, t, hconcat, ht⟩ := Code.exists_ofLexemesAfter_concat hlast rfl before [] false
    rw [Code.ofLexemes, hconcat] at hcode
    have hlasts := congrArg List.getLast? hcode
    have hback : (type ++ name :: p :: (arguments ++ q :: brace :: (body ++ [close]))).getLast? =
        some close := by
      rw [show type ++ name :: p :: (arguments ++ q :: brace :: (body ++ [close])) =
        (type ++ name :: p :: (arguments ++ q :: brace :: body)) ++ [close] by simp,
        List.getLast?_concat]
    rw [List.getLast?_concat, hback] at hlasts
    rw [← Option.some.inj hlasts, ht]
  have hscan : scanText (definition ++ source) =
      scan (type ++ name :: p :: (arguments ++ q :: brace :: (body ++ close ::
        (Code.ofLexemes (lex source).1).map (Shift.of (Text.byteLength definition)).apply))) := by
    rw [scanText_append hlex hlast, hcode]
    simp
  have hsource : (scanText source).shift (Text.byteLength definition) =
      scan ((Code.ofLexemes (lex source).1).map (Shift.of (Text.byteLength definition)).apply) :=
    (scan_shift (e := Shift.of (Text.byteLength definition)) _).symm
  rw [hscan, hsource]
  constructor
  · rintro ⟨cursor, heq, hkind, -⟩
    by_contra hdefault
    obtain ⟨variableCursor, hread, hvariable, -⟩ := scan_definition_default htype hname hhead hp
      harguments hq hbrace hbody hclose (by simpa using hdefault)
      ((Code.ofLexemes (lex source).1).map (Shift.of (Text.byteLength definition)).apply)
    -- the first cursor is a variable, so it is no function
    rw [hread] at heq
    have hfirst : variableCursor = cursor :=
      (List.cons.inj (congrArg Outcome.cursors heq)).1
    rw [hfirst, hkind] at hvariable
    cases hvariable
  · intro hdefaults
    exact ⟨functionOf type name arguments, scan_definition htype hname hhead hp harguments hq hbrace
      hbody hclose hdefaults _, rfl, rfl, rfl⟩

/-- A definition with a default value. -/
def defaultedText : List Char := "int f(int a = 1) { return a; }".toList

def defaultedToken (i : Nat) : CodeToken := (Code.ofLexemes (lex defaultedText).1)[i]!

def defaultedParameter : DefaultedParameter where
  type := [defaultedToken 3]
  name := defaultedToken 4
  default := some (defaultedToken 5, defaultedToken 6)
  isType := .of_identifier (by decide +kernel)
  isName := by decide +kernel
  isDefault := by decide +kernel

/-- The function is lost, and with it the declaration behind it. -/
theorem scanText_definition_defaulted :
    let source := "\nint g(void);".toList
    (¬∃ cursor : Cursor, scanText (defaultedText ++ source) =
        ((scanText source).shift (Text.byteLength defaultedText)).after [cursor] [] ∧
      cursor.kind = .function ∧ cursor.spelling = (defaultedToken 1).word ∧ cursor.children = []) ∧
      (scanText source).cursors.map Cursor.spelling = ["g"] ∧
      (scanText (defaultedText ++ source)).cursors.map Cursor.spelling = ["a"] := by
  intro source
  have hlex : lex defaultedText =
      ((lex defaultedText).1.dropLast ++ [(lex defaultedText).1.getLast!], []) := by
    decide +kernel
  have hcode : Code.ofLexemes ((lex defaultedText).1.dropLast ++ [(lex defaultedText).1.getLast!]) =
      [defaultedToken 0] ++ defaultedToken 1 :: defaultedToken 2 :: (defaultedParameter.code ++
        defaultedToken 7 :: defaultedToken 8 ::
          ([defaultedToken 9, defaultedToken 10, defaultedToken 11] ++ [defaultedToken 12])) := by
    decide +kernel
  have hbody : IsNested (fun _ => True) [defaultedToken 9, defaultedToken 10, defaultedToken 11] :=
    .of_flat (by decide +kernel)
  have hexact := scanText_definition hlex (by decide +kernel) hcode
    (.of_identifier (by decide +kernel)) (by decide +kernel) (by decide +kernel) (by decide +kernel)
    (.some (.one defaultedParameter)) (by decide +kernel) (by decide +kernel)
    (hbody.isPaired .brace) source
  refine ⟨fun hread => ?_, by decide +kernel, by decide +kernel⟩
  have hnone := hexact.1 hread defaultedParameter (by simp)
  cases hnone

end Declaration

end DeclDoc
