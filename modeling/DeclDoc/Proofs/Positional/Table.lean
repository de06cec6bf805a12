import DeclDoc.Cursor
import DeclDoc.Declaration.Code
import DeclDoc.Proofs.Lexemes
import DeclDoc.Proofs.Positions

/-!
# Tokens by their positions

Code can be read at positions in a table of its tokens, and its text by byte offsets. What may go
wrong then is a `Crash`: a position behind the last token, a slice that is out of bounds or inside a
character, a number below zero. `Scanner.Has s code`: the table of `s` is that of `code`, and
`s.pos rest` the position at which an end of it begins. There reading comes to the token that the rest
begins with (`Has.token?_pos`, `Has.text_pos`), and text between two positions to what stands there
(`Has.textBetween_pos`). `Scanner.has_ofSource`: the table of a source has its code.
-/

set_option autoImplicit false

namespace DeclDoc

/-! ## Slices -/

namespace Text

/-- A text cut at a byte offset; `none` inside a character and behind the end. -/
def cut? (n : Nat) : List Char → Option (List Char × List Char)
  | [] => if n = 0 then some ([], []) else none
  | c :: rest =>
    if n = 0 then some ([], c :: rest)
    else if c.utf8Size ≤ n then (cut? (n - c.utf8Size) rest).map fun (front, back) => (c :: front, back)
    else none

/-- The text from one byte offset to another. -/
def slice? (start stop : Nat) (s : List Char) : Option (List Char) :=
  if start ≤ stop then (cut? start s).bind fun (_, back) => (cut? (stop - start) back).map (·.1)
  else none

theorem cut?_append (front back : List Char) :
    cut? (byteLength front) (front ++ back) = some (front, back) := by
  induction front with
  | nil => cases back <;> rfl
  | cons c front ih =>
    have hpos := c.utf8Size_pos
    rw [byteLength_cons, List.cons_append, cut?, if_neg (by omega), if_pos (Nat.le_add_right _ _),
      Nat.add_sub_cancel_left, ih]
    rfl

theorem slice?_append (before mid behind : List Char) :
    slice? (byteLength before) (byteLength before + byteLength mid) (before ++ (mid ++ behind)) =
      some mid := by
  rw [slice?, if_pos (Nat.le_add_right _ _), cut?_append, Nat.add_sub_cancel_left]
  show (cut? (byteLength mid) (mid ++ behind)).map (·.1) = some mid
  rw [cut?_append]
  rfl

end Text

/-! ## Code as it lies in its text -/

/-- Every token begins behind the text of the tokens before it and its lead. -/
def Code.Laid (code : Code) : Prop :=
  ∀ front t back, code = front ++ t :: back →
    t.start = Text.byteLength (trail front) + Text.byteLength t.lead

/-- Lexemes lie one behind the other from a byte offset on. -/
def Lexeme.Laid : (offset : Nat) → List Lexeme → Prop
  | _, [] => True
  | offset, x :: rest => x.start = offset + Text.byteLength x.gap ∧ Laid x.stop rest

theorem Lexeme.laid_lexFrom (offset : Nat) (s : List Char) : Laid offset (lexFrom offset s).1 := by
  fun_induction lexFrom offset s with
  | case1 => exact trivial
  | case2 offset s gap c rest hs start extent text after ih => exact ⟨rfl, ih⟩

namespace Code

/-- More code behind both keeps an end an end. -/
theorem suffix_append_right {back code : Code} (h : back <:+ code) (rest : Code) :
    back ++ rest <:+ code ++ rest := by
  obtain ⟨front, rfl⟩ := h
  exact ⟨front, (List.append_assoc ..).symm⟩

theorem next?_cons (t : CodeToken) (rest : Code) : next? (t :: rest) = some t.token := rfl

theorem nextIs_iff {code : Code} {token : Token} : code.nextIs token = true ↔ code.next? = some token :=
  beq_iff_eq

theorem trail_append (xs ys : Code) : trail (xs ++ ys) = trail xs ++ trail ys :=
  List.flatMap_append

theorem trail_cons (t : CodeToken) (rest : Code) :
    trail (t :: rest) = t.lead ++ (t.text ++ trail rest) := by
  rw [trail, List.flatMap_cons, List.append_assoc]
  rfl

/-- The lead of the first token, then the text of all. -/
theorem trail_eq (t : CodeToken) (rest : Code) :
    trail (t :: rest) = t.lead ++ text (t :: rest) := trail_cons t rest

theorem start_of_ofLexemesAfter {offset : Nat} {lead : List Char} {commented : Bool}
    {lexemes : List Lexeme} (h : Lexeme.Laid (offset + Text.byteLength lead) lexemes)
    {front back : Code} {t : CodeToken}
    (hcode : ofLexemesAfter lead commented lexemes = front ++ t :: back) :
    t.start = offset + Text.byteLength (trail front) + Text.byteLength t.lead := by
  induction lexemes generalizing offset lead commented front with
  | nil => cases front <;> cases hcode
  | cons x rest ih =>
    obtain ⟨hstart, hrest⟩ := h
    have hpassed : Lexeme.Laid (offset + Text.byteLength (lead ++ x.written)) rest := by
      have hstop : x.stop = offset + Text.byteLength (lead ++ x.written) := by
        rw [Lexeme.stop, hstart, Lexeme.written, Text.byteLength_append, Text.byteLength_append]
        omega
      rwa [← hstop]
    rw [ofLexemesAfter] at hcode
    split at hcode
    · exact ih hpassed hcode
    · split at hcode
      · exact ih hpassed hcode
      · cases front with
        | nil =>
          obtain ⟨rfl, -⟩ := List.cons.inj hcode
          show x.start = offset + 0 + Text.byteLength (lead ++ x.gap)
          rw [hstart, Text.byteLength_append]
          omega
        | cons first front =>
          obtain ⟨rfl, hrest'⟩ := List.cons.inj hcode
          have hbehind : Lexeme.Laid (x.stop + Text.byteLength []) rest := hrest
          rw [ih hbehind hrest', Lexeme.stop, hstart, trail_cons]
          simp only [Text.byteLength_append]
          omega

theorem laid_ofLexemes (source : List Char) : Laid (ofLexemes (lex source).1) := by
  intro front t back hcode
  have hlaid : Lexeme.Laid (0 + Text.byteLength []) (lex source).1 := Lexeme.laid_lexFrom 0 source
  have := start_of_ofLexemesAfter hlaid hcode
  omega

theorem exists_trail_ofLexemesAfter (lead : List Char) (commented : Bool) (lexemes : List Lexeme) :
    ∃ behind, lead ++ (lexemes.map Lexeme.written).flatten =
      trail (ofLexemesAfter lead commented lexemes) ++ behind := by
  induction lexemes generalizing lead commented with
  | nil => exact ⟨lead, by simp [ofLexemesAfter, trail]⟩
  | cons x rest ih =>
    rw [ofLexemesAfter, List.map_cons, List.flatten_cons]
    split
    · rw [← List.append_assoc]
      exact ih ..
    · split
      · rw [← List.append_assoc]
        exact ih ..
      · obtain ⟨behind, hbehind⟩ := ih [] false
        refine ⟨behind, ?_⟩
        rw [List.nil_append] at hbehind
        rw [hbehind, trail_cons, Lexeme.written]
        simp only [List.append_assoc]

/-- A source is the text of its code and what stands behind. -/
theorem exists_trail_ofLexemes (source : List Char) :
    ∃ behind, source = trail (ofLexemes (lex source).1) ++ behind := by
  obtain ⟨behind, hbehind⟩ := exists_trail_ofLexemesAfter [] false (lex source).1
  refine ⟨behind ++ (lex source).2, ?_⟩
  rw [← List.append_assoc, ofLexemes, ← hbehind, List.nil_append, flatten_written_lex]

end Code

/-! ## Tables -/

namespace Positional

/-- What may go wrong in reading by position. -/
inductive Crash where
  /-- There is no token or lexeme at a position. -/
  | position
  /-- A slice out of bounds, the wrong way round, or inside a character. -/
  | slice
  /-- A number below zero. -/
  | underflow
  /-- An iteration of a loop that does not come further. -/
  | stuck
deriving DecidableEq, Repr

@[simp] theorem ok_bind {α β : Type} (a : α) (f : α → Except Crash β) :
    (Except.ok a >>= f) = f a := rfl

@[simp] theorem pure_eq_ok {α : Type} (a : α) : (pure a : Except Crash α) = .ok a := rfl

/-- What is there, or a crash. -/
def expect {α : Type} (crash : Crash) : Option α → Except Crash α
  | some a => .ok a
  | none => .error crash

/-- One number less another. -/
def minus (a b : Nat) : Except Crash Nat := if b ≤ a then .ok (a - b) else .error .underflow

theorem minus_of_le {a b : Nat} (h : b ≤ a) : minus a b = .ok (a - b) := if_pos h

/-- A code token by where it stands in the source. -/
structure Tok where
  token : Token
  start : Nat
  stop : Nat
  afterComment : Bool
deriving DecidableEq, Repr

def Tok.ofCode (t : CodeToken) : Tok where
  token := t.token
  start := t.start
  stop := t.start + Text.byteLength t.text
  afterComment := t.afterComment

@[simp] theorem Tok.token_ofCode (t : CodeToken) : (ofCode t).token = t.token := rfl

@[simp] theorem Tok.start_ofCode (t : CodeToken) : (ofCode t).start = t.start := rfl

@[simp] theorem Tok.afterComment_ofCode (t : CodeToken) :
    (ofCode t).afterComment = t.afterComment := rfl

/-- A source and the table of its code tokens. -/
structure Scanner where
  file : String
  source : List Char
  lines : Text.LineIndex
  toks : List Tok

/-- The text between two byte offsets. -/
def slice (start stop : Nat) (source : List Char) : Except Crash (List Char) :=
  expect .slice (Text.slice? start stop source)

theorem slice_of_append (before text behind : List Char) {source : List Char} {start stop : Nat}
    (hsource : source = before ++ (text ++ behind)) (hstart : start = Text.byteLength before)
    (hstop : stop = Text.byteLength (before ++ text)) : slice start stop source = .ok text := by
  rw [slice, hsource, hstart, hstop, Text.byteLength_append, Text.slice?_append]
  rfl

namespace Scanner

variable (s : Scanner)

/-- The kind of the token at a position, if there is one. -/
def token? (i : Nat) : Option Token := s.toks[i]?.map Tok.token

/-- The token that has to be at a position. -/
def tok (i : Nat) : Except Crash Tok := expect .position s.toks[i]?

/-- The text of the token at a position. -/
def text (i : Nat) : Except Crash (List Char) := do
  let t ← s.tok i
  slice t.start t.stop s.source

def word (i : Nat) : Except Crash String := do
  let text ← s.text i
  pure (String.ofList text)

/-- There is an identifier at a position, and it is one of `words`. -/
def isWordOf (i : Nat) (words : List String) : Except Crash Bool :=
  if s.token? i = some .ident then do
    let word ← s.word i
    pure (words.contains word)
  else pure false

/-- The place of a byte offset. Lines and columns are counted modulo 2 ^ 32. -/
def location (offset : Nat) : Except Crash Location := do
  let line ← minus (max (s.lines.starts.takeWhile (· ≤ offset)).length 1) 1
  let start ← expect .position s.lines.starts[line]?
  let column ← minus offset start
  pure ⟨s.file, UInt32.ofNat line + 1, UInt32.ofNat column + 1⟩

/-- The cursor of a declaration that is named at one position and begins at another. Its location
can be had from its offset. -/
def cursor (kind : CursorKind) (spelling : String) (name start : Nat) : Except Crash Cursor := do
  let named ← s.tok name
  let begun ← s.tok start
  let _ ← s.location named.start
  pure { kind, spelling, offset := named.start, extent := begun.start }

/-- A warning about the token at a position, or about the end of the source. -/
def warn (i : Nat) (message : String) : Except Crash Diagnostic := do
  let location ← s.location ((s.toks[i]?.map Tok.start).getD (Text.byteLength s.source))
  pure { severity := .warning, location := some location, message }

/-- The text of the tokens from one position up to another, on one line. -/
def textBetween (start stop : Nat) : Except Crash String :=
  if stop ≤ start ∨ s.toks.length < stop then pure ""
  else do
    let first ← s.tok start
    let last ← s.tok (← minus stop 1)
    let text ← slice first.start last.stop s.source
    pure (String.ofList (Text.tidy text))

/-- Where an end of the code begins. -/
def pos (rest : Code) : Nat := s.toks.length - rest.length

/-- The table of `s` holds the tokens of `code`, and its source the text that they were read from. -/
structure Has (code : Code) : Prop where
  toks : s.toks = code.map Tok.ofCode
  laid : code.Laid
  worded : ∀ t ∈ code, t.text ≠ []
  source : ∃ behind, s.source = code.trail ++ behind
  lines : s.lines = .ofText s.source

variable {s} {full : Code} (h : s.Has full)

theorem pos_le (s : Scanner) {rest code : Code} (hrest : rest <:+ code) :
    s.pos code ≤ s.pos rest := by
  have := hrest.length_le
  unfold pos
  omega

theorem pos_le_length (s : Scanner) (rest : Code) : s.pos rest ≤ s.toks.length := Nat.sub_le ..

theorem pos_nil (s : Scanner) : s.pos [] = s.toks.length := rfl

namespace Has

include h

theorem length_eq : s.toks.length = full.length := by
  rw [h.toks, List.length_map]

/-! ## Positions -/

theorem pos_append {mid rest : Code} (hrest : mid ++ rest <:+ full) :
    s.pos (mid ++ rest) + mid.length = s.pos rest := by
  have := hrest.length_le
  rw [List.length_append, ← h.length_eq] at this
  unfold pos
  rw [List.length_append]
  omega

/-- A range is empty exactly when it ends where it begins. -/
theorem pos_le_iff {mid rest : Code} (hrest : mid ++ rest <:+ full) :
    s.pos rest ≤ s.pos (mid ++ rest) ↔ mid = [] := by
  rw [← h.pos_append hrest, ← List.length_eq_zero_iff]
  omega

theorem pos_cons {t : CodeToken} {rest : Code} (hrest : t :: rest <:+ full) :
    s.pos (t :: rest) + 1 = s.pos rest := by
  have hone : [t] ++ rest <:+ full := hrest
  exact h.pos_append hone

theorem pos_lt {t : CodeToken} {rest behind : Code} (hrest : t :: rest <:+ full)
    (hbehind : behind <:+ rest) : s.pos (t :: rest) < s.pos behind := by
  have := h.pos_cons hrest
  have := s.pos_le hbehind
  omega

/-- A position is the number of tokens before it. -/
theorem pos_eq_length {front rest : Code} (hfull : front ++ rest = full) :
    s.pos rest = front.length := by
  rw [pos, h.length_eq, ← hfull, List.length_append]
  omega

/-- What is there at a position. -/
theorem getElem?_pos {rest : Code} (hrest : rest <:+ full) :
    s.toks[s.pos rest]? = rest.head?.map Tok.ofCode := by
  obtain ⟨front, hfull⟩ := hrest
  rw [h.pos_eq_length hfull, h.toks, ← hfull, List.getElem?_map,
    List.getElem?_append_right (Nat.le_refl _), Nat.sub_self, List.head?_eq_getElem?]

theorem token?_pos {rest : Code} (hrest : rest <:+ full) : s.token? (s.pos rest) = rest.next? := by
  rw [token?, h.getElem?_pos hrest, Option.map_map]
  rfl

theorem tok_pos {t : CodeToken} {rest : Code} (hrest : t :: rest <:+ full) :
    s.tok (s.pos (t :: rest)) = .ok (.ofCode t) := by
  rw [tok, h.getElem?_pos hrest]
  rfl

/-! ## Text -/

/-- The source behind a part of the code. -/
theorem source_append {front rest : Code} (hfull : full = front ++ rest) :
    ∃ behind, s.source = front.trail ++ (rest.trail ++ behind) := by
  obtain ⟨behind, hsource⟩ := h.source
  exact ⟨behind, by rw [hsource, hfull, Code.trail_append, List.append_assoc]⟩

/-- The source before a token, and where the token begins. -/
theorem start_eq {front rest : Code} {t : CodeToken} (hfull : full = front ++ t :: rest) :
    t.start = Text.byteLength (front.trail ++ t.lead) := by
  rw [Text.byteLength_append, h.laid front t rest hfull]

/-- Where a token ends. -/
theorem stop_eq {front rest : Code} {t : CodeToken} (hfull : full = front ++ t :: rest) :
    (Tok.ofCode t).stop = Text.byteLength (front ++ [t]).trail := by
  show t.start + Text.byteLength t.text = _
  rw [h.start_eq hfull, Code.trail_append, Code.trail_cons]
  simp only [Text.byteLength_append]
  show _ = _ + (_ + (_ + 0))
  omega

/-- Where the last token of a part of the code ends. -/
theorem stop_getLast {front mid rest : Code} {t : CodeToken} (hfull : full = front ++ (mid ++ rest))
    (ht : mid.getLast? = some t) : (Tok.ofCode t).stop = Text.byteLength (front.trail ++ mid.trail) := by
  obtain ⟨first, rfl⟩ := List.getLast?_eq_some_iff.1 ht
  have hlast : full = (front ++ first) ++ t :: rest := by
    rw [hfull]
    simp only [List.append_assoc, List.singleton_append]
  rw [h.stop_eq hlast, ← Code.trail_append, List.append_assoc]

/-- The last token of a part of the code stands right before its end. -/
theorem tok_getLast {mid rest : Code} {t : CodeToken} (hrest : mid ++ rest <:+ full)
    (ht : mid.getLast? = some t) :
    minus (s.pos rest) 1 = .ok (s.pos (t :: rest)) ∧ s.tok (s.pos (t :: rest)) = .ok (.ofCode t) := by
  obtain ⟨first, rfl⟩ := List.getLast?_eq_some_iff.1 ht
  have hlast : t :: rest <:+ full := by
    refine .trans ?_ hrest
    rw [List.append_assoc]
    exact List.suffix_append ..
  have := h.pos_cons hlast
  refine ⟨?_, h.tok_pos hlast⟩
  rw [minus_of_le (by omega), ← this, Nat.add_sub_cancel]

theorem text_pos {t : CodeToken} {rest : Code} (hrest : t :: rest <:+ full) :
    s.text (s.pos (t :: rest)) = .ok t.text := by
  obtain ⟨front, hfull⟩ := hrest
  obtain ⟨behind, hsource⟩ := h.source_append hfull.symm
  rw [text, h.tok_pos ⟨front, hfull⟩, ok_bind]
  refine slice_of_append (Code.trail front ++ t.lead) t.text (Code.trail rest ++ behind) ?_
    (h.start_eq hfull.symm) ?_
  · rw [hsource, Code.trail_cons]
    simp only [List.append_assoc]
  · rw [h.stop_eq hfull.symm, Code.trail_append, Code.trail_cons, List.append_assoc]
    simp [Code.trail]

theorem word_pos {t : CodeToken} {rest : Code} (hrest : t :: rest <:+ full) :
    s.word (s.pos (t :: rest)) = .ok t.word := by
  rw [word, h.text_pos hrest]
  rfl

theorem isWordOf_pos {rest : Code} (hrest : rest <:+ full) (words : List String) :
    s.isWordOf (s.pos rest) words = .ok (rest.head?.any (·.isWordOf words)) := by
  unfold isWordOf
  rw [h.token?_pos hrest]
  cases rest with
  | nil => rfl
  | cons t rest =>
    rw [h.word_pos hrest]
    by_cases ht : t.token = .ident <;> simp [Code.next?, CodeToken.isWordOf, ht]

theorem textBetween_pos {mid rest : Code} (hrest : mid ++ rest <:+ full) :
    s.textBetween (s.pos (mid ++ rest)) (s.pos rest) = .ok (Code.line mid) := by
  cases mid with
  | nil =>
    rw [textBetween, if_pos (.inl (Nat.le_refl _))]
    simp [Code.line, Code.text, Text.tidy, Text.words, Text.spaced]
  | cons t more =>
    have hlast : (t :: more).getLast? = some _ := List.getLast?_eq_some_getLast (List.cons_ne_nil _ _)
    obtain ⟨hminus, htok⟩ := h.tok_getLast hrest hlast
    have hlt : s.pos (t :: (more ++ rest)) < s.pos rest := h.pos_lt hrest (List.suffix_append ..)
    have := s.pos_le_length rest
    rw [List.cons_append] at hrest ⊢
    rw [textBetween, if_neg (by omega), h.tok_pos hrest, ok_bind, hminus, ok_bind, htok, ok_bind]
    obtain ⟨front, hfull⟩ := hrest
    obtain ⟨behind, hsource⟩ := h.source_append hfull.symm
    have htext : slice t.start (Tok.ofCode ((t :: more).getLast (List.cons_ne_nil _ _))).stop
        s.source = .ok (Code.text (t :: more)) := by
      refine slice_of_append (Code.trail front ++ t.lead) _ (Code.trail rest ++ behind) ?_
        (h.start_eq hfull.symm) ?_
      · rw [hsource, ← List.cons_append, Code.trail_append, Code.trail_eq]
        simp only [List.append_assoc]
      · rw [h.stop_getLast hfull.symm hlast, Code.trail_eq, List.append_assoc]
    rw [Tok.start_ofCode, htext]
    rfl

/-! ## Places -/

/-- Every offset has a place, also one behind the source. -/
theorem location_eq (offset : Nat) :
    s.location offset = .ok (.ofPosition s.file (s.lines.position offset)) := by
  have hbegun : s.lines.begun offset ≠ [] := by
    rw [h.lines, Text.LineIndex.begun, Text.LineIndex.ofText, List.takeWhile_cons_of_pos (by simp)]
    exact List.cons_ne_nil _ _
  obtain ⟨first, start, hsplit⟩ := (List.eq_nil_or_concat (s.lines.begun offset)).resolve_left hbegun
  have hle : start ≤ offset := by simpa [hsplit] using s.lines.getLast?_begun_le offset
  have hat : s.lines.starts[first.length]? = some start := by
    rw [← List.takeWhile_append_dropWhile (p := (· ≤ offset)) (l := s.lines.starts)]
    show (s.lines.begun offset ++ _)[first.length]? = some start
    simp [hsplit]
  rw [location, Text.LineIndex.position_eq, ← Text.LineIndex.begun, hsplit]
  simp [minus, hat, expect, hle, Location.ofPosition]

theorem cursor_pos (kind : CursorKind) (spelling : String) {name start : CodeToken}
    {behind rest : Code} (hname : name :: behind <:+ full) (hstart : start :: rest <:+ full) :
    s.cursor kind spelling (s.pos (name :: behind)) (s.pos (start :: rest)) =
      .ok { kind, spelling, offset := name.start, extent := start.start } := by
  rw [cursor, h.tok_pos hname, ok_bind, h.tok_pos hstart, ok_bind, h.location_eq]
  rfl

theorem warn_pos {t : CodeToken} {rest : Code} (hrest : t :: rest <:+ full) (message : String) :
    s.warn (s.pos (t :: rest)) message =
      .ok { severity := .warning
            location := some (.ofPosition s.file (s.lines.position t.start))
            message } := by
  rw [warn, h.getElem?_pos hrest, h.location_eq]
  rfl

end Has

end Scanner

/-! ## The table of a source -/

/-- The code tokens among lexemes; `commentStop` is where a comment ends that comes right before. -/
def readToks (source : List Char) (commentStop : Option Nat) : List Lexeme → Except Crash (List Tok)
  | [] => .ok []
  | x :: rest =>
    match x.token with
    | none => readToks source none rest
    | some token =>
      if token.isComment then readToks source (some x.stop) rest
      else do
        let afterComment ←
          match commentStop with
          | some stop => do
            let gap ← slice stop x.start source
            pure (gap.contains '\n')
          | none => pure false
        let toks ← readToks source none rest
        pure (⟨token, x.start, x.stop, afterComment⟩ :: toks)

def Scanner.ofSource (file : String) (source : List Char) : Except Crash Scanner := do
  let toks ← readToks source none (lex source).1
  pure { file, source, lines := .ofText source, toks }

theorem readToks_eq {source : List Char} (before behind lead : List Char) (commented : Bool)
    {lexemes : List Lexeme} (hlaid : Lexeme.Laid (Text.byteLength before) lexemes)
    (hsource : source = before ++ ((lexemes.map Lexeme.written).flatten ++ behind)) :
    readToks source (if commented then some (Text.byteLength before) else none) lexemes =
      .ok ((Code.ofLexemesAfter lead commented lexemes).map Tok.ofCode) := by
  induction lexemes generalizing before lead commented with
  | nil => rfl
  | cons x rest ih =>
    obtain ⟨hstart, hrest⟩ := hlaid
    have hstop : x.stop = Text.byteLength (before ++ x.written) := by
      rw [Lexeme.stop, hstart, Lexeme.written, Text.byteLength_append, Text.byteLength_append]
      omega
    rw [hstop] at hrest
    have hsplit : source =
        (before ++ x.written) ++ ((rest.map Lexeme.written).flatten ++ behind) := by
      rw [hsource, List.map_cons, List.flatten_cons]
      simp only [List.append_assoc]
    have hgap : slice (Text.byteLength before) x.start source = .ok x.gap := by
      refine slice_of_append before x.gap (x.text ++ ((rest.map Lexeme.written).flatten ++ behind))
        ?_ rfl ?_
      · rw [hsplit, Lexeme.written]
        simp only [List.append_assoc]
      · rw [hstart, Text.byteLength_append]
    rw [readToks, Code.ofLexemesAfter]
    cases x.token with
    | none => exact ih _ _ false hrest hsplit
    | some token =>
      by_cases htoken : token.isComment
      · simp only [htoken, if_true, hstop]
        exact ih _ _ true hrest hsplit
      · have hbehind := ih _ [] false hrest hsplit
        simp only [Bool.false_eq_true, if_false] at hbehind
        cases commented <;> simp [htoken, hgap, hbehind, Tok.ofCode, Lexeme.stop]

/-- The table of a source can be made, and has its code. -/
theorem has_ofSource (file : String) (source : List Char) :
    ∃ s, Scanner.ofSource file source = .ok s ∧ s.Has (Code.ofLexemes (lex source).1) ∧
      s.file = file ∧ s.source = source := by
  have hread : readToks source none (lex source).1 =
      .ok ((Code.ofLexemes (lex source).1).map Tok.ofCode) := by
    refine readToks_eq [] (lex source).2 [] false (Lexeme.laid_lexFrom 0 source) ?_
    rw [flatten_written_lex]
    rfl
  refine ⟨_, by rw [Scanner.ofSource, hread]; rfl, ?_, rfl, rfl⟩
  exact ⟨rfl, Code.laid_ofLexemes source, (Code.Ascending.ofLexemes source).nonempty,
    Code.exists_trail_ofLexemes source, rfl⟩

end Positional

end DeclDoc
