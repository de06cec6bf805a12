import DeclDoc.Proofs.LexerLocality

/-!
# Closed comments

The lexer looks for the closing mark of a block comment from its start, the readers of comments look
for it at the end of the text. `Comment.body_eq_error_iff_of_lex`: they agree on the text of every
lexeme. A comment that is not closed reaches to the end of the source, so it stands before no
declaration, and no entity of a scanned source is given up for its comment (`comments_agree`).
-/

set_option autoImplicit false

namespace DeclDoc

/-! ## Bodies of comments -/

namespace Comment

/-- A block has no body if no closing mark stands behind its opening one. -/
theorem body_of_open {inside : List Char}
    (h : ∀ p, CloserAt ('/' :: '*' :: inside) p → p < 2) :
    body ('/' :: '*' :: inside) = .error .unterminated := by
  have htrim : Text.trim ('/' :: '*' :: inside) = '/' :: '*' :: Text.trimEnd inside := by
    rw [Text.trim, Text.trimStart_cons (by decide), Text.trimEnd_cons (by decide),
      Text.trimEnd_cons (by decide)]
  rw [body_eq_error_iff, htrim]
  refine ⟨rfl, ?_⟩
  by_contra hclosed
  obtain ⟨hends, hlength⟩ := not_or.1 hclosed
  rw [Bool.not_eq_false, Text.endsWith, Option.isSome_iff_exists] at hends
  obtain ⟨front, hfront⟩ := hends
  rw [Text.beforeSuffix?_eq_some_iff] at hfront
  obtain ⟨blanks, hinside, -⟩ := Text.exists_trimEnd inside
  have hcloser : CloserAt ('/' :: '*' :: inside) (Text.byteLength front) := by
    refine ⟨front, blanks, ?_, rfl⟩
    rw [hinside, ← List.cons_append, ← List.cons_append, hfront, List.append_assoc]
    rfl
  have hlt := h _ hcloser
  have hle := Text.length_le_byteLength front
  rw [hfront, List.length_append] at hlength
  simp only [closer, List.length_cons, List.length_nil] at hlength
  omega

/-- A closing mark behind the opening one, at the end of a block, closes it. -/
theorem text_of_closer {inside : List Char} {p : Nat}
    (hcloser : CloserAt ('/' :: '*' :: inside) p) (hbehind : 2 ≤ p)
    (hend : Text.byteLength ('/' :: '*' :: inside) = p + 2) :
    ∃ text, '/' :: '*' :: inside = '/' :: '*' :: (text ++ ['*', '/']) := by
  obtain ⟨front, back, hfront, rfl⟩ := hcloser
  have hopening : Text.byteLength ['/', '*'] = 2 := by decide
  have hclosing : Text.byteLength ['*', '/'] = 2 := by decide
  obtain ⟨text, rfl, hinside⟩ := closer_behind (a := ['/', '*']) hfront (hopening ▸ hbehind)
  have hback : back = [] := by
    have hlength : Text.byteLength back = 0 := by
      have hsplit : ['*', '/'] ++ back = '*' :: '/' :: back := rfl
      rw [hfront, ← hsplit] at hend
      simp only [Text.byteLength_append, hclosing] at hend
      omega
    have hle := Text.length_le_byteLength back
    exact List.eq_nil_of_length_eq_zero (by omega)
  exact ⟨text, by rw [hinside, hback]⟩

/-- Whether a block comment has a body is whether it holds a closing mark behind its opening one. -/
theorem body_eq_error_iff_of_lex {source : List Char} {x : Lexeme} (hx : x ∈ (lex source).1)
    (htoken : x.token = some .blockComment) :
    body x.text = .error .unterminated ↔ ∀ p, CloserAt x.text p → p < 2 := by
  obtain ⟨rest, htext⟩ := Lexeme.begins_of_blockComment hx htoken
  constructor
  · intro hbody
    have hmem : { x with gap := [], start := 0 } ∈ (lex x.text).1 := by
      rw [lex_text hx]
      exact List.mem_singleton_self _
    rcases comment_of_lex hmem htoken with ⟨p, hfirst, hstop⟩ | ⟨hnone, -⟩
    · have hbehind := hfirst.behind
      have hcloser := hfirst.closer
      rw [Lexeme.stop] at hstop
      dsimp only at hbehind hstop
      rw [Nat.zero_add] at hbehind hstop
      rw [htext] at hcloser hstop hbody
      obtain ⟨text, hblock⟩ := text_of_closer hcloser hbehind hstop
      rw [hblock] at hbody
      exact absurd hbody (body_of_block text _)
    · intro p hp
      simpa using hnone p hp
  · intro hopen
    rw [htext] at hopen ⊢
    exact body_of_open hopen

/-- A reader of either dialect fails where there is no body. -/
theorem reader_eq_error_iff {dialect : Dialect} {raw : List Char} {e : Malformed} :
    dialect.reader.read raw = .error e ↔ body raw = .error e := by
  have hread : read dialect raw = .error e ↔ body raw = .error e := read_eq_error_iff
  rw [← hread, Dialect.reader]
  dsimp only
  cases read dialect raw <;> simp [Except.map]

theorem exists_parsed_of_body (dialect : Dialect) {raw : List Char}
    (h : ∀ e, body raw ≠ .error e) : ∃ parsed, dialect.reader.read raw = .ok parsed := by
  cases hread : dialect.reader.read raw with
  | error e => exact absurd (reader_eq_error_iff.1 hread) (h e)
  | ok parsed => exact ⟨parsed, rfl⟩

end Comment

/-- A line comment begins with two slashes. -/
theorem Lexeme.begins_of_lineComment {source : List Char} {x : Lexeme} (hx : x ∈ (lex source).1)
    (h : x.token = some .lineComment) : ∃ rest, x.text = '/' :: '/' :: rest := by
  obtain ⟨behind, hstands⟩ := standsBefore_of_lex hx
  obtain ⟨c, a, htext, -, hread⟩ := hstands.read
  obtain ⟨rfl, tail, htail⟩ := Lexer.Extent.read_lineComment (by rw [hread, h])
  cases a with
  | nil =>
    rw [htail] at hread
    exact absurd (congrArg Lexer.Extent.more hread) (Nat.succ_ne_zero _)
  | cons d a =>
    obtain ⟨rfl, -⟩ := List.cons.inj htail
    exact ⟨a, htext⟩

/-! ## Readers that give nothing up -/

/-- The reader that takes a comment it cannot read for one that says nothing, so that no entity is
given up for its comment. -/
def Comment.Reader.lenient (reader : Comment.Reader) : Comment.Reader where
  read raw :=
    match reader.read raw with
    | .ok parsed => .ok parsed
    | .error _ => .ok ⟨{ raw := String.ofList raw }, []⟩

theorem Comment.Reader.lenient_read {reader : Comment.Reader} {raw : List Char}
    {parsed : Comment.Parsed} (h : reader.read raw = .ok parsed) :
    reader.lenient.read raw = .ok parsed := by
  rw [lenient]
  dsimp only
  rw [h]

/-- An entity whose comment can be read is read the same. -/
theorem Reading.readStep_lenient (settings : Settings) {reader : Comment.Reader} (reading : Reading)
    {step : List Diagnostic × Option Entity}
    (h : ∀ entity, step.2 = some entity → ∃ parsed, reader.read entity.rawComment = .ok parsed) :
    reading.readStep settings reader.lenient step = reading.readStep settings reader step := by
  unfold readStep
  cases hentity : step.2 with
  | none => rfl
  | some entity =>
    obtain ⟨parsed, hparsed⟩ := h entity hentity
    simp only [readEntity, hparsed, Comment.Reader.lenient_read hparsed]

/-! ## Scanned sources -/

/-- The comments of a source that the scanner takes can be read. -/
theorem TranslationUnit.exists_parsed {arguments : List String} {path : String}
    {source : List Char} {unit : TranslationUnit}
    (h : FrontEnd.scanner.translate arguments path source = .ok unit) (dialect : Comment.Dialect)
    {entity : Entity} (hentity : entity ∈ (unit.steps (.ofText path source)).filterMap (·.2)) :
    ∃ parsed, dialect.reader.read entity.rawComment = .ok parsed := by
  rw [FrontEnd.eq_of_translate_scanner h,
    (steps_of_tidy _ (Declaration.tidy_scanText source)).1] at hentity
  exact Comment.exists_parsed_of_body dialect (Extraction.body_scanned path source entity hentity)

/-- Reading a source that is scanned does not depend on what becomes of malformed comments. -/
theorem Extraction.readSource_lenient (settings : Settings) (dialect : Comment.Dialect)
    (store : Store) (path : String) (source : List Char) :
    ({ settings, dialect := dialect.reader.lenient, frontEnd := .scanner } : Extraction).readSource
        store path source =
      ({ settings, dialect := dialect.reader, frontEnd := .scanner } : Extraction).readSource
        store path source := by
  unfold readSource
  dsimp only
  split
  · rfl
  cases hunit : FrontEnd.scanner.translate settings.compilerArguments path source with
  | error fault => rfl
  | ok unit =>
    dsimp only
    rw [List.foldl_ext]
    intro reading step hstep
    refine Reading.readStep_lenient settings reading fun entity hentity => ?_
    exact TranslationUnit.exists_parsed hunit dialect (List.mem_filterMap.2 ⟨step, hstep, hentity⟩)

/-- The lexer and the readers of comments agree on which comments are closed, so no entity of a
scanned source is given up for its comment. -/
theorem comments_agree (source : List Char) (dialect : Comment.Dialect) :
    (∀ x ∈ (lex source).1, x.token = some .blockComment →
      (dialect.reader.read x.text = .error .unterminated ↔ ∀ p, CloserAt x.text p → p < 2)) ∧
    (∀ x ∈ (lex source).1, x.token = some .lineComment →
      ∃ parsed, dialect.reader.read x.text = .ok parsed) ∧
    ∀ path, (∀ arguments unit, FrontEnd.scanner.translate arguments path source = .ok unit →
        ∀ entity ∈ (unit.steps (.ofText path source)).filterMap (·.2),
          ∃ parsed, dialect.reader.read entity.rawComment = .ok parsed) ∧
      ∀ settings store,
        ({ settings, dialect := dialect.reader.lenient, frontEnd := .scanner } :
            Extraction).readSource store path source =
          ({ settings, dialect := dialect.reader, frontEnd := .scanner } :
            Extraction).readSource store path source := by
  refine ⟨fun x hx htoken => ?_, fun x hx htoken => ?_, fun path => ⟨?_, ?_⟩⟩
  · rw [Comment.reader_eq_error_iff]
    exact Comment.body_eq_error_iff_of_lex hx htoken
  · obtain ⟨rest, htext⟩ := Lexeme.begins_of_lineComment hx htoken
    rw [htext]
    exact Comment.exists_parsed_of_body dialect (Comment.body_of_line rest)
  · intro arguments unit hunit entity hentity
    exact TranslationUnit.exists_parsed hunit dialect hentity
  · intro settings store
    exact Extraction.readSource_lenient settings dialect store path source

/-- Comments in both styles before two variables, and a comment that is not closed. -/
def halfOpenHeader : List Char := "/** One */\nint x;\n/// Two\nint y; /*/".toList

theorem comments_agree_halfOpenHeader :
    let halfOpen : Lexeme := ⟨[' '], some .blockComment, 33, ['/', '*', '/']⟩
    let two : Lexeme := ⟨['\n'], some .lineComment, 18, "/// Two".toList⟩
    halfOpen ∈ (lex halfOpenHeader).1 ∧ two ∈ (lex halfOpenHeader).1 ∧
      Comment.Reader.markup.read halfOpen.text = .error .unterminated ∧
      (∃ parsed, Comment.Reader.markup.read two.text = .ok parsed) ∧
      ∃ unit, FrontEnd.scanner.translate [] "C.h" halfOpenHeader = .ok unit ∧
        ((unit.steps (.ofText "C.h" halfOpenHeader)).filterMap (·.2)).map (fun entity =>
          (entity.name, String.ofList entity.rawComment)) = [("x", "/** One */"), ("y", "/// Two")] ∧
        ∀ entity ∈ (unit.steps (.ofText "C.h" halfOpenHeader)).filterMap (·.2),
          ∃ parsed, Comment.Reader.markup.read entity.rawComment = .ok parsed := by
  intro halfOpen two
  have hline : two ∈ (lex halfOpenHeader).1 := by decide +kernel
  have hmem : halfOpen ∈ (lex halfOpenHeader).1 := by decide +kernel
  have hopen : ∀ p, CloserAt halfOpen.text p → p < 2 := by
    rintro p ⟨front, back, hfront, rfl⟩
    match front, hfront with
    | [], _ => exact Nat.zero_lt_two
    | [c], hfront =>
      obtain ⟨rfl, -⟩ := List.cons.inj hfront
      decide
    | _ :: _ :: _, hfront => exact absurd (congrArg List.length hfront) (by simp [halfOpen]; omega)
  have hpath : (Language.ofPath? "C.h").isSome = true := by decide +kernel
  have hsource : '\x00' ∉ halfOpenHeader := by decide
  have hunit := Extraction.translate_scanner hpath hsource []
  obtain ⟨hblock, hlines, hscanned⟩ := comments_agree halfOpenHeader .markup
  refine ⟨hmem, hline, (hblock halfOpen hmem rfl).2 hopen, hlines two hline rfl, _, hunit, ?_,
    (hscanned "C.h").1 [] _ hunit⟩
  decide +kernel

end DeclDoc
