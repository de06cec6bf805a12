import DeclDoc.Proofs.Definitions
import DeclDoc.Proofs.Transparency

/-!
# Texts on lines of their own

A line break ends every lexeme but a directive and an open comment. So a text without these is lexed
in front of a line break as it is alone, and what stands below it is lexed as it is alone, further on
(`lex_lineBreak`). The code tokens below are the same too, but for what is found in front of the first
one (`Code.ofLexemes_lineBreak`).
-/

set_option autoImplicit false

namespace DeclDoc

/-! ## Tokens in front of a line break -/

namespace Lexer

variable {s : List Char}

theorem run_lineBreak {part : Char → Bool} (hpart : part '\n' = false) (s source : List Char) :
    run part (s ++ '\n' :: source) = run part s := by
  rw [run, run, List.takeWhile_append]
  split
  · next hall => simp [hpart, hall]
  · rfl

/-- What stands behind the closing mark of a comment is no part of it. -/
theorem blockCommentTail_closed {inside back : List Char} (h : s = inside ++ '*' :: '/' :: back)
    (source : List Char) : blockCommentTail (s ++ source) = blockCommentTail s := by
  induction s generalizing inside with
  | nil => simp at h
  | cons c s ih =>
    cases inside with
    | nil =>
      obtain ⟨rfl, rfl⟩ := List.cons.inj h
      rfl
    | cons d inside =>
      obtain ⟨rfl, hs⟩ := List.cons.inj h
      have hne : s ≠ [] := by simp [hs]
      rw [List.cons_append, blockCommentTail_cons, blockCommentTail_cons, ih hs,
        List.head?_append_of_ne_nil _ hne]

theorem literalBody_lineBreak {quote : Char} (hquote : quote ≠ '\n') (s source : List Char) :
    literalBody quote (s ++ '\n' :: source) = literalBody quote s := by
  fun_induction literalBody quote s with
  | case1 => exact literalBody_break hquote source
  | case2 => rfl
  | case3 => simp [literalBody]
  | case4 c s hbreak ih => simp [literalBody, hbreak, ih]
  | case5 s hlast hescape =>
    rw [List.cons_append, literalBody_close (ne_backslash hlast hescape)]
  | case6 => simp [literalBody, hquote.symm]
  | case7 c s hlast hescape hc hbreak ih =>
    rw [List.cons_append, literalBody_cons hc hbreak (ne_backslash hlast hescape), ih]

namespace Extent

theorem literal_lineBreak {token : Token} {quote : Char} (hquote : quote ≠ '\n') {opening : Nat}
    (h : opening ≤ s.length) (source : List Char) :
    literal token quote opening (s ++ '\n' :: source) = literal token quote opening s := by
  simp only [literal, List.drop_append_of_le_length h, literalBody_lineBreak hquote]

/-- A line break gives no meaning to the character before it. -/
theorem Alone.lineBreak {c : Char} (h : Alone c s) (source : List Char) :
    Alone c (s ++ '\n' :: source) where
  ident := h.ident
  digit := h.digit
  marks := h.marks
  slash hc d hd := by
    cases s with
    | nil =>
      obtain rfl : '\n' = d := Option.some.inj hd
      decide
    | cons e s => exact h.slash hc d hd
  atSign hc d hd := by
    cases s with
    | nil =>
      obtain rfl : '\n' = d := Option.some.inj hd
      decide
    | cons e s => exact h.atSign hc d hd
  dots hc tail hs := by
    match s, hs with
    | [], hs => cases hs
    | [d], hs => simp at hs
    | d :: e :: s, hs =>
      simp only [List.cons_append, List.cons.injEq] at hs
      obtain ⟨rfl, rfl, -⟩ := hs
      exact h.dots hc s rfl

/-- What begins before a line break ends before it, but for directives and open comments. -/
theorem read_lineBreak {c : Char} (hdirective : (read c s).token ≠ some .directive)
    (hclosed : (read c s).token = some .blockComment →
      ∃ inside back, s.tail = inside ++ '*' :: '/' :: back) (source : List Char) :
    read c (s ++ '\n' :: source) = read c s := by
  fun_cases read c s with
  | case1 c s hident => rw [read_ident hident, run_lineBreak (by decide)]
  | case2 c s hident hdigit => rw [read_number hident hdigit, run_lineBreak (by decide)]
  | case3 tail => exact congrArg (Extent.mk _) (run_lineBreak (by decide) ('/' :: tail) source)
  | case4 body =>
    obtain ⟨inside, back, hbody⟩ := hclosed rfl
    exact congrArg (Extent.mk _ <| · + 1) (blockCommentTail_closed hbody _)
  | case5 s => exact absurd rfl hdirective
  | case6 tail =>
    exact literal_lineBreak (s := '"' :: tail) (by decide) (Nat.le_add_left 1 _) source
  | case7 d tail hquote hstart =>
    rw [List.cons_append, read_at hquote, if_pos hstart]
    exact congrArg (Extent.mk _) (run_lineBreak (by decide) (d :: tail) source)
  | case8 d tail hquote hstart =>
    rw [List.cons_append, read_at hquote, if_neg hstart]
  | case9 s | case10 s => exact literal_lineBreak (by decide) (Nat.zero_le _) source
  | case11 tail => rfl
  | case12 c s hident hdigit hsharp hstring hchar hline hblock hquote hword hdots =>
    have halone : Alone c s :=
      .of_unmatched hident hdigit ⟨hsharp, hstring, hchar⟩ hline hblock hword hdots
    exact read_of_alone (halone.lineBreak source)

end Extent

end Lexer

/-! ## Lexemes in front of a line break -/

/-- A line break behind the lexeme stands behind it still when further text follows. -/
structure Lexeme.EndsAtBreak (x : Lexeme) : Prop where
  ne_directive : x.token ≠ some .directive
  closed : x.token = some .blockComment → x.IsClosed

theorem Lexeme.StandsBefore.lineBreak {x : Lexeme} {rest : List Char} (h : x.StandsBefore rest)
    (hends : x.EndsAtBreak) (source : List Char) : x.StandsBefore (rest ++ '\n' :: source) := by
  obtain ⟨c, a, htext, hc, hread⟩ := h.read
  refine ⟨h.gap, c, a, htext, hc, ?_⟩
  have hclosed : (Lexer.Extent.read c (a ++ rest)).token = some .blockComment →
      ∃ inside back, (a ++ rest).tail = inside ++ '*' :: '/' :: back := by
    intro hblock
    obtain ⟨body, rfl, hbody, -⟩ := Lexer.Extent.read_blockComment hblock
    rw [hread] at hblock
    obtain ⟨d, a, rfl⟩ : ∃ d tail, a = d :: tail := by
      refine List.exists_cons_of_ne_nil ?_
      rintro rfl
      rw [hbody] at hread
      cases congrArg Lexer.Extent.more hread
    obtain ⟨rfl, -⟩ := List.cons.inj hbody
    obtain ⟨inside, rfl⟩ := hends.closed hblock a htext
    exact ⟨inside, rest, by simp⟩
  rw [← List.append_assoc, Lexer.Extent.read_lineBreak _ hclosed, hread]
  rw [hread]
  exact hends.ne_directive

theorem lexFrom_lineBreak {offset : Nat} {front trail : List Char} {lexemes : List Lexeme}
    (h : lexFrom offset front = (lexemes, trail)) (hends : ∀ x ∈ lexemes, x.EndsAtBreak)
    (source : List Char) :
    (lexFrom offset (front ++ '\n' :: source)).1 =
      lexemes ++ (lexFrom (offset + Text.byteLength (front ++ ['\n'])) source).1.modifyHead
        (·.behindSpace (trail ++ ['\n'])) := by
  induction lexemes generalizing offset front with
  | nil =>
    obtain ⟨rfl, hspace⟩ := lexFrom_eq_nil_iff.1 h
    have hspace : ∀ c ∈ front ++ ['\n'], Lexer.isSpace c = true :=
      List.forall_mem_append.2 ⟨hspace, List.forall_mem_singleton.2 rfl⟩
    rw [List.append_cons, lexFrom_space_append hspace]
    rfl
  | cons x lexemes ih =>
    obtain ⟨rest, rfl, hstart, hstands, hrest⟩ := lexFrom_eq_cons_iff.1 h
    obtain ⟨hx, hlexemes⟩ := List.forall_mem_cons.1 hends
    have hstop : x.stop + Text.byteLength (rest ++ ['\n']) =
        offset + Text.byteLength (x.written ++ rest ++ ['\n']) := by
      simp only [Lexeme.stop, hstart, Lexeme.written, Text.byteLength_append]
      omega
    have hfirst : lexFrom offset (x.written ++ (rest ++ '\n' :: source)) =
        (x :: (lexFrom x.stop (rest ++ '\n' :: source)).1,
          (lexFrom x.stop (rest ++ '\n' :: source)).2) :=
      lexFrom_eq_cons_iff.2 ⟨_, rfl, hstart, hstands.lineBreak hx source, rfl⟩
    rw [List.append_assoc, hfirst, ih hrest hlexemes, hstop]
    rfl

/-- A text is lexed in front of a line break as it is alone, and so is what stands below it. -/
theorem lex_lineBreak {front : List Char} (h : ∀ x ∈ (lex front).1, x.EndsAtBreak)
    (source : List Char) :
    (lex (front ++ '\n' :: source)).1 =
      (lex front).1 ++
        ((lex source).1.map (·.shift (Text.byteLength (front ++ ['\n'])))).modifyHead
          (·.behindSpace ((lex front).2 ++ ['\n'])) := by
  have hbelow := lexFrom_add 0 (Text.byteLength (front ++ ['\n'])) source
  rw [lex, lexFrom_lineBreak rfl h source, hbelow]
  rfl

/-! ## Code in front of a line break -/

/-- The code token with further text in front. -/
def CodeToken.behind (front : List Char) (t : CodeToken) : CodeToken :=
  { t with lead := front ++ t.lead }

namespace Code

theorem ofLexemesAfter_front (front lead : List Char) (commented : Bool) (lexemes : List Lexeme) :
    ofLexemesAfter (front ++ lead) commented lexemes =
      (ofLexemesAfter lead commented lexemes).modifyHead (·.behind front) := by
  induction lexemes generalizing lead commented with
  | nil => rfl
  | cons x more ih =>
    rw [ofLexemesAfter, ofLexemesAfter, List.append_assoc, List.append_assoc]
    cases x.token with
    | none => exact ih ..
    | some token =>
      dsimp only
      split
      · exact ih ..
      · rfl

/-- White space before the first lexeme stands before the first code token. -/
theorem ofLexemesAfter_behindSpace (lead space : List Char) (lexemes : List Lexeme) :
    ofLexemesAfter lead false (lexemes.modifyHead (·.behindSpace space)) =
      (ofLexemes lexemes).modifyHead (·.behind (lead ++ space)) := by
  cases lexemes with
  | nil => rfl
  | cons x more =>
    have hwritten : lead ++ (x.behindSpace space).written = (lead ++ space) ++ x.written := by
      simp [Lexeme.written, Lexeme.behindSpace]
    rw [List.modifyHead_cons, ofLexemes, ofLexemesAfter, ofLexemesAfter, hwritten]
    cases hx : x.token with
    | none =>
      simp only [Lexeme.behindSpace, hx]
      exact ofLexemesAfter_front ..
    | some token =>
      simp only [Lexeme.behindSpace, hx]
      split
      · exact ofLexemesAfter_front ..
      · simp [CodeToken.behind]

/-- Below a text that ends with no comment stands the code of what is there alone, further on. -/
theorem ofLexemes_lineBreak {front : List Char} (h : ∀ x ∈ (lex front).1, x.EndsAtBreak)
    (hlast : (lex front).1.getLast?.elim false Lexeme.isComment = false) (source : List Char) :
    ∃ lead, ofLexemes (lex (front ++ '\n' :: source)).1 =
      ofLexemes (lex front).1 ++
        ((ofLexemes (lex source).1).map
          (Shift.of (Text.byteLength (front ++ ['\n']))).apply).modifyHead (·.behind lead) := by
  obtain ⟨lead, hlead⟩ := exists_ofLexemesAfter_append (lex front).1 [] false
  refine ⟨lead ++ ((lex front).2 ++ ['\n']), ?_⟩
  rw [lex_lineBreak h, ofLexemes, hlead, hlast, ofLexemesAfter_behindSpace, ofLexemes,
    ofLexemesAfter_shift]
  rfl

end Code

end DeclDoc
