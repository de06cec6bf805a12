import DeclDoc.Proofs.LineBreaks
import DeclDoc.Proofs.Leads

/-!
# Words above a comment

The first token below a comment on lines of its own restarts a declaration. So words that stand above
such a comment, whatever they mean elsewhere, are no part of what is declared below it
(`scan_words`), and the comment documents what the text below begins with
(`scanText_preface`).
-/

set_option autoImplicit false

namespace DeclDoc

/-! ## Code below words -/

namespace Declaration

variable {words code rest : Code} {t : CodeToken}

/-- A head begins anew at a marked token, if it does not behind it. -/
theorem lastRestart?_words (h : ∀ w ∈ words, w.token = .ident) (ht : t.token = .ident)
    (hmark : t.afterComment = true) (code : Code) :
    lastRestart? (words ++ t :: code) = some ((lastRestart? code).getD (t :: code)) := by
  induction words with
  | nil =>
    rw [List.nil_append, lastRestart?, ht, if_neg (by decide), hmark]
    cases lastRestart? code <;> rfl
  | cons w words ih =>
    obtain ⟨hw, hwords⟩ := List.forall_mem_cons.1 h
    rw [List.cons_append, lastRestart?, hw, if_neg (by decide), ih hwords]
    rfl

theorem restart_words_above (h : ∀ w ∈ words, w.token = .ident) (ht : t.token = .ident)
    (hmark : t.afterComment = true) (code : Code) :
    restart (words ++ t :: code) = restart (t :: code) := by
  cases words with
  | nil => rfl
  | cons w words =>
    rw [restart, List.cons_append, List.tail_cons,
      lastRestart?_words (List.forall_mem_cons.1 h).2 ht hmark]
    rfl

theorem readPlain_words (h : ∀ w ∈ words, w.token = .ident) (ht : t.token = .ident)
    (hmark : t.afterComment = true) (rest : Code) :
    readPlain (words ++ t :: rest) = readPlain (t :: rest) := by
  have hfirst : spanHead (t :: rest) = (t :: (spanHead rest).1, (spanHead rest).2) :=
    spanHead_identifiers (by simp [ht] : ∀ w ∈ [t], w.token = .ident) rest
  have hempty : (words ++ t :: (spanHead rest).1).isEmpty = false := by simp
  unfold readPlain
  rw [spanHead_identifiers h, hfirst]
  dsimp only
  rw [restart_words_above h ht hmark, hempty]
  rfl

/-- Words are interrupted by what is no part of a plain declaration. -/
theorem spanHead_interrupted (h : ∀ w ∈ words, w.token = .ident)
    (ht : t.token = .atKeyword ∨ t.token = .directive) (rest : Code) :
    spanHead (words ++ t :: rest) = (words, t :: rest) := by
  have hends : endsHead t.token = true := by rcases ht with ht | ht <;> rw [ht] <;> rfl
  rw [spanHead_identifiers h, spanHead, spanTop_stop hends, List.append_nil]

/-- Words before a token that begins anew are passed over. -/
theorem scan_words (h : ∀ w ∈ words, w.token = .ident)
    (ht : t.token = .ident ∧ t.afterComment = true ∨ t.token = .atKeyword ∨ t.token = .directive)
    (rest : Code) : scan (words ++ t :: rest) = scan (t :: rest) := by
  cases words with
  | nil => rfl
  | cons w words =>
    rw [List.cons_append, scan_plain (h w List.mem_cons_self), ← List.cons_append]
    rcases ht with ⟨ht, hmark⟩ | ht
    · rw [readPlain_words h ht hmark, ← scan_plain ht]
    · rw [readPlain_interrupted (spanHead_interrupted h ht rest) (List.cons_ne_nil w words) ht]
      rfl

end Declaration

/-! ## Texts below words and a comment -/

/-- Words, and a comment on lines of its own below them. -/
structure Preface where
  words : List Char
  comment : List Char
  note : Lexeme
  isWord : ∀ w ∈ (lex words).1, w.token = some .ident
  lex_comment : (lex comment).1 = [note]
  isComment : note.isComment = true
  isClosed : note.token = some .blockComment → note.IsClosed

namespace Preface

variable (preface : Preface)

/-- The words and the comment without the line break below it. -/
def front : List Char := preface.words ++ '\n' :: preface.comment

def text : List Char := preface.front ++ ['\n']

/-- The comment as it stands below the words. -/
def below : Lexeme :=
  (preface.note.shift (Text.byteLength (preface.words ++ ['\n']))).behindSpace
    ((lex preface.words).2 ++ ['\n'])

theorem lex_front : (lex preface.front).1 = (lex preface.words).1 ++ [preface.below] := by
  have hends : ∀ w ∈ (lex preface.words).1, w.EndsAtBreak := by
    intro w hw
    constructor <;> rw [preface.isWord w hw] <;> simp
  rw [front, lex_lineBreak hends, preface.lex_comment]
  rfl

/-- What stands behind the comment stands behind it below the words. -/
theorem trail_front : (lex preface.front).2 = (lex preface.comment).2 := by
  have hfront := flatten_written_lex preface.front
  have hwords := flatten_written_lex preface.words
  have hcomment := flatten_written_lex preface.comment
  have hbelow : preface.below.written = (lex preface.words).2 ++ '\n' :: preface.note.written := by
    simp [below, Lexeme.behindSpace, Lexeme.shift, Lexeme.written]
  rw [preface.lex_comment] at hcomment
  rw [preface.lex_front] at hfront
  simp only [List.map_append, List.flatten_append, List.map_cons, List.map_nil, List.flatten_cons,
    List.flatten_nil, List.append_nil, hbelow] at hfront hcomment
  rw [← List.append_assoc, hwords] at hfront
  have hsame : (preface.words ++ '\n' :: preface.note.written) ++ (lex preface.front).2 =
      (preface.words ++ '\n' :: preface.note.written) ++ (lex preface.comment).2 := by
    rw [hfront, front, List.append_assoc, List.cons_append, hcomment]
  exact List.append_cancel_left hsame

variable {source : List Char} {first : Lexeme} {more : List Lexeme}

/-- The lexeme that a text begins with, as it stands below the comment. -/
def next (first : Lexeme) : Lexeme :=
  (first.shift (Text.byteLength preface.text)).behindSpace ((lex preface.comment).2 ++ ['\n'])

theorem lex_text_append (h : (lex source).1 = first :: more) :
    (lex (preface.text ++ source)).1 = (lex preface.words).1 ++ preface.below ::
      preface.next first :: more.map (·.shift (Text.byteLength preface.text)) := by
  have hends : ∀ x ∈ (lex preface.front).1, x.EndsAtBreak := by
    rw [lex_front]
    refine List.forall_mem_append.2 ⟨fun w hw => ?_, List.forall_mem_singleton.2 ⟨fun hx => ?_, ?_⟩⟩
    · constructor <;> rw [preface.isWord w hw] <;> simp
    · have hcomment := preface.isComment
      rw [Lexeme.isComment, show preface.note.token = some .directive from hx] at hcomment
      cases hcomment
    · exact preface.isClosed
  have happend : preface.text ++ source = preface.front ++ '\n' :: source := by simp [text]
  rw [happend, lex_lineBreak hends, h, lex_front, trail_front, List.append_assoc]
  rfl

/-- The words are code above the comment, and the text below it begins with a marked token. -/
theorem code_append {token : Token} (h : (lex source).1 = first :: more)
    (htoken : first.token = some token) (hcode : token.isComment = false) :
    ∃ words t rest lead, Code.ofLexemes (lex (preface.text ++ source)).1 =
        words ++ { t with lead, afterComment := true } :: rest ∧
      (∀ w ∈ words, w.token = .ident) ∧ t.token = token ∧
      (Code.ofLexemes (lex source).1).map (Shift.of (Text.byteLength preface.text)).apply =
        t :: rest := by
  obtain ⟨lead, hlead⟩ := Code.exists_ofLexemesAfter_append
    ((lex preface.words).1 ++ [preface.below]) [] false
  have hbelow : preface.below.isComment = true := preface.isComment
  have hbreak : (preface.next first).gap.contains '\n' = true := by simp [next, Lexeme.behindSpace]
  have hnext : (preface.next first).token = some token := htoken
  have hsource : Code.ofLexemes (lex source).1 =
      ⟨token, first.text, first.start, first.gap, false⟩ :: Code.ofLexemes more := by
    rw [h, Code.ofLexemes, Code.ofLexemesAfter, htoken]
    simp only [hcode, Bool.false_eq_true, if_false]
    rfl
  refine ⟨Code.ofLexemes ((lex preface.words).1 ++ [preface.below]),
    ⟨token, first.text, first.start + Text.byteLength preface.text, first.gap, false⟩,
    (Code.ofLexemes more).map (Shift.of (Text.byteLength preface.text)).apply,
    lead ++ (preface.next first).gap, ?_, ?_, ?_, ?_⟩
  rotate_left
  · intro w hw
    obtain ⟨x, hx, hcomment, hkind, -⟩ := Code.exists_lexeme hw
    have hword : x.token = some .ident := by
      rcases List.mem_append.1 hx with hx | hx
      · exact preface.isWord x hx
      · rw [List.mem_singleton.1 hx, hbelow] at hcomment
        cases hcomment
    exact Option.some.inj (hkind.symm.trans hword)
  · exact rfl
  · rw [hsource, List.map_cons]
    rfl
  · have hlast : ((lex preface.words).1 ++ [preface.below]).getLast?.elim false Lexeme.isComment =
        true := by simp [hbelow]
    rw [preface.lex_text_append h, Code.ofLexemes, List.append_cons, hlead, hlast,
      Code.ofLexemesAfter, hnext]
    simp only [hcode, Bool.false_eq_true, if_false, Bool.true_and, hbreak,
      Code.ofLexemesAfter_shift]
    rfl

end Preface

/-! ## What is declared below -/

/-- A documentation comment right before a lexeme, with no line comment above it, is the comment of
what begins there. -/
theorem SourceFile.commentBefore_alone {path : String} {source : List Char}
    {before behind : List Lexeme} {x next : Lexeme}
    (h : (lex source).1 = before ++ x :: next :: behind) (hstyle : x.docStyle?.isSome = true)
    (hnear : lineBreaks next.gap ≤ 1)
    (habove : ∀ previous ∈ before.getLast?, previous.token ≠ some .lineComment) :
    (ofText path source).commentBefore next.start = x.text := by
  have hbehind : (lex source).1 = (before ++ [x]) ++ next :: behind := by
    rw [h, List.append_assoc]
    rfl
  have hgap : Text.slice x.stop next.start (ofText path source).text = next.gap :=
    (Positional.Comments.slice_gap h).2
  have hapart : x.stop ≤ next.start := by
    have hordered := (lex_spec source).1
    rw [h, List.pairwise_append] at hordered
    exact (List.pairwise_cons.1 hordered.2.1).1 next List.mem_cons_self
  have hplace : ¬(next.start < x.stop ∨ 1 < lineBreaks next.gap) := by omega
  unfold commentBefore
  rw [lexemes_ofText, takeWhile_start_lt hbehind, List.reverse_append, List.reverse_singleton,
    List.singleton_append]
  dsimp only
  rw [hgap, if_neg hplace]
  split
  · next hnone => rw [hnone] at hstyle; cases hstyle
  · rfl
  · cases hreverse : before.reverse with
    | nil => rfl
    | cons previous earlier =>
      have hlast : previous ∈ before.getLast? := by
        rw [← List.head?_reverse, hreverse]
        rfl
      rw [joinLineComments, if_neg fun hjoin => habove previous hlast hjoin.1]

namespace Declaration

open Cursor (preorderAll)

/-- What is scanned below words and a comment is what is scanned there alone, further on. A
documentation comment on the line above is that of what begins where the text below does. -/
theorem scanText_preface (preface : Preface) {source : List Char} {first : Lexeme}
    (hfirst : (lex source).1.head? = some first)
    (htoken : first.token ∈ [some .ident, some .atKeyword, some .directive]) :
    scanText (preface.text ++ source) =
        (scanText source).shift (Text.byteLength preface.text) ∧
      ∀ arguments path unit,
        FrontEnd.scanner.translate arguments path (preface.text ++ source) = .ok unit →
        preface.note.docStyle?.isSome = true →
        SourceFile.lineBreaks ((lex preface.comment).2 ++ '\n' :: first.gap) = 1 →
        List.Forall₂
          (fun entity cursor =>
            entity.TellsOf (.ofText path (preface.text ++ source)) cursor ∧
              (cursor.extent = first.start + Text.byteLength preface.text →
                entity.rawComment = preface.note.text))
          ((unit.steps (.ofText path (preface.text ++ source))).filterMap (·.2))
          ((preorderAll unit.cursors).filter (!·.isUnnamedEnum)) := by
  obtain ⟨more, hlex⟩ := List.head?_eq_some_iff.1 hfirst
  constructor
  · obtain ⟨token, hfirstToken, hbegins⟩ : ∃ token, first.token = some token ∧
        (token = .ident ∨ token = .atKeyword ∨ token = .directive) := by
      simp only [List.mem_cons, List.not_mem_nil, or_false] at htoken
      rcases htoken with h | h | h
      · exact ⟨_, h, .inl rfl⟩
      · exact ⟨_, h, .inr (.inl rfl)⟩
      · exact ⟨_, h, .inr (.inr rfl)⟩
    have hcode : token.isComment = false := by rcases hbegins with rfl | rfl | rfl <;> rfl
    obtain ⟨words, t, rest, lead, hsplit, hwords, ht, hbelow⟩ :=
      preface.code_append hlex hfirstToken hcode
    have hascending : Code.Ascending ({ t with lead, afterComment := true } :: rest) := by
      have hall := Code.Ascending.ofLexemes (preface.text ++ source)
      rw [hsplit] at hall
      exact hall.right
    have hrestarts : t.token = .ident ∧ (true : Bool) = true ∨ t.token = .atKeyword ∨
        t.token = .directive := by simpa [ht] using hbegins
    -- the first token may stand behind any text and be marked or not
    have hsame : scan (t :: rest) = scan ({ t with lead, afterComment := true } :: rest) :=
      scan_lead hascending t.lead t.afterComment
    rw [scanText, hsplit, scan_words hwords hrestarts, ← hsame, ← hbelow, scan_shift]
    rfl
  · intro arguments path unit hunit hstyle hbreaks
    have hlexemes := preface.lex_text_append hlex
    have hcomment : (SourceFile.ofText path (preface.text ++ source)).commentBefore
        (preface.next first).start = preface.below.text := by
      refine SourceFile.commentBefore_alone hlexemes hstyle ?_ fun previous hprevious => ?_
      · show SourceFile.lineBreaks (((lex preface.comment).2 ++ ['\n']) ++ first.gap) ≤ 1
        rw [List.append_assoc]
        exact Nat.le_of_eq hbreaks
      · rw [preface.isWord previous (List.mem_of_getLast? hprevious)]
        decide
    refine (FrontEnd.tellsOf_scanner hunit).imp fun entity cursor htells => ⟨htells, fun hextent => ?_⟩
    rw [htells.rawComment, hextent]
    exact hcomment

/-- Words that begin other declarations, above a comment and a function. -/
def junkPreface : Preface where
  words := "NS_ASSUME_NONNULL_BEGIN\ntypedef struct".toList
  comment := "/** Doc. */".toList
  note := ⟨[], some .blockComment, 0, "/** Doc. */".toList⟩
  isWord := by decide +kernel
  lex_comment := by decide +kernel
  isComment := rfl
  isClosed _ body hbody := by
    obtain rfl : body = "* Doc. */".toList := (List.cons.inj (List.cons.inj hbody).2).2.symm
    exact ⟨"* Doc. ".toList, rfl⟩

def belowJunk : List Char := "int f(void);\nint g;".toList

theorem scanText_preface_junk :
    let first : Lexeme := ⟨[], some .ident, 0, "int".toList⟩
    let source := junkPreface.text ++ belowJunk
    let file := SourceFile.ofText "A.h" source
    String.ofList source =
        "NS_ASSUME_NONNULL_BEGIN\ntypedef struct\n/** Doc. */\nint f(void);\nint g;" ∧
      (lex belowJunk).1.head? = some first ∧
      scanText source = (scanText belowJunk).shift 51 ∧
      (scanText belowJunk).cursors.map (fun cursor => (cursor.spelling, cursor.extent)) =
        [("f", 0), ("g", 13)] ∧
      ∃ unit, FrontEnd.scanner.translate [] "A.h" source = .ok unit ∧
        ((unit.steps file).filterMap (·.2)).map (fun entity =>
            (entity.name, String.ofList entity.rawComment)) =
          [("f", "/** Doc. */"), ("g", "")] ∧
        List.Forall₂
          (fun entity cursor => entity.TellsOf file cursor ∧
            (cursor.extent = 51 → entity.rawComment = "/** Doc. */".toList))
          ((unit.steps file).filterMap (·.2))
          ((preorderAll unit.cursors).filter (!·.isUnnamedEnum)) := by
  intro first source file
  have hfirst : (lex belowJunk).1.head? = some first := by decide +kernel
  have hpath : (Language.ofPath? "A.h").isSome = true := by decide +kernel
  have hsource : '\x00' ∉ source := by decide +kernel
  have hunit := Extraction.translate_scanner hpath hsource []
  have hlength : Text.byteLength junkPreface.text = 51 := by decide +kernel
  obtain ⟨hscan, hcomments⟩ := scanText_preface junkPreface hfirst (by decide)
  have htells := hcomments [] "A.h" _ hunit (by decide +kernel) (by decide +kernel)
  rw [hlength] at hscan htells
  exact ⟨by decide +kernel, hfirst, hscan, by decide +kernel, _, hunit, by decide +kernel, htells⟩

end Declaration

end DeclDoc
