import DeclDoc.Proofs.LexerLocality
import DeclDoc.Proofs.RecastScan

/-!
# Comments that leave no trace

Where a comment is blanked out, the lexer finds the other lexemes as before (`lexemes_blankOut`). The
code tokens are the same too, but for the source text in front of the next one and for its mark
(`recasts_behindSpace`). So the scanner sees a comment only where that mark decides where a plain
declaration begins (`comment_transparent`).
-/

set_option autoImplicit false

namespace DeclDoc

/-! ## Blank text -/

namespace Text

/-- White space of the same length, with the line breaks of the text. -/
def blanked (s : List Char) : List Char :=
  s.flatMap fun c => if c = '\n' ∨ c = '\r' then [c] else List.replicate c.utf8Size ' '

theorem byteLength_spaces (n : Nat) : byteLength (List.replicate n ' ') = n := by
  induction n with
  | zero => rfl
  | succ n ih =>
    have hspace : (' ' : Char).utf8Size = 1 := by decide
    rw [List.replicate_succ, byteLength_cons, ih, hspace, Nat.add_comm]

theorem blanked_cons (c : Char) (s : List Char) :
    blanked (c :: s) =
      (if c = '\n' ∨ c = '\r' then [c] else List.replicate c.utf8Size ' ') ++ blanked s :=
  List.flatMap_cons

@[simp] theorem byteLength_blanked (s : List Char) : byteLength (blanked s) = byteLength s := by
  induction s with
  | nil => rfl
  | cons c s ih =>
    rw [blanked_cons, byteLength_append, ih, byteLength_cons]
    split
    · rw [byteLength_cons, byteLength_nil, Nat.add_zero]
    · rw [byteLength_spaces]

theorem isSpace_of_mem_blanked {s : List Char} {c : Char} (h : c ∈ blanked s) :
    Lexer.isSpace c = true := by
  obtain ⟨d, -, hd⟩ := List.mem_flatMap.1 h
  split at hd
  · next hbreak =>
    rw [List.mem_singleton.1 hd]
    rcases hbreak with rfl | rfl <;> decide
  · rw [List.eq_of_mem_replicate hd]
    decide

/-- The line breaks stay where they are. -/
@[simp] theorem lineFeed_mem_blanked {s : List Char} : '\n' ∈ blanked s ↔ '\n' ∈ s := by
  constructor
  · intro h
    obtain ⟨d, hd, hmem⟩ := List.mem_flatMap.1 h
    split at hmem
    · rwa [List.mem_singleton.1 hmem]
    · exact absurd (List.eq_of_mem_replicate hmem) (by decide)
  · intro h
    exact List.mem_flatMap.2 ⟨'\n', h, by simp⟩

end Text

/-! ## The lexemes around blank text -/

/-- A source with this lexeme of it replaced by white space, its line breaks kept. -/
def Lexeme.blankOut (x : Lexeme) (source : List Char) : List Char :=
  Text.takeBytes x.start source ++ Text.blanked x.text ++ Text.dropBytes x.stop source

/-- The lexeme with further white space in front. -/
def Lexeme.behindSpace (space : List Char) (x : Lexeme) : Lexeme := { x with gap := space ++ x.gap }

/-- White space in front of a text stands before its first lexeme. -/
theorem lexFrom_space_append {space : List Char} (hspace : ∀ c ∈ space, Lexer.isSpace c = true)
    (offset : Nat) (s : List Char) :
    (lexFrom offset (space ++ s)).1 =
      (lexFrom (offset + Text.byteLength space) s).1.modifyHead (·.behindSpace space) := by
  cases h : lexFrom (offset + Text.byteLength space) s with
  | mk lexemes trail =>
  cases lexemes with
  | nil =>
    obtain ⟨rfl, htrail⟩ := lexFrom_eq_nil_iff.1 h
    have hall : ∀ c ∈ space ++ s, Lexer.isSpace c = true := fun c hc =>
      (List.mem_append.1 hc).elim (hspace c) (htrail c)
    rw [lexFrom_eq_nil_iff.2 ⟨rfl, hall⟩]
    rfl
  | cons y behind =>
    obtain ⟨rest, rfl, hstart, hstands, hrest⟩ := lexFrom_eq_cons_iff.1 h
    have hgap : ∀ c ∈ space ++ y.gap, Lexer.isSpace c = true := fun c hc =>
      (List.mem_append.1 hc).elim (hspace c) (hstands.gap c)
    have hfirst : lexFrom offset (space ++ (y.written ++ rest)) =
        (y.behindSpace space :: behind, trail) := by
      refine lexFrom_eq_cons_iff.2 ⟨rest, ?_, ?_, ⟨hgap, hstands.read⟩, hrest⟩
      · simp only [Lexeme.written, Lexeme.behindSpace, List.append_assoc]
      · simp only [Lexeme.behindSpace, Text.byteLength_append, hstart, Nat.add_assoc]
    rw [hfirst]
    rfl

/-- White space may come to stand in the place of a comment. -/
theorem Lexeme.yields_blanked {x : Lexeme} {rest : List Char} (hstands : x.StandsBefore rest)
    (hcomment : x.isComment = true) :
    Lexer.Yields (x.written ++ rest) ((x.gap ++ Text.blanked x.text) ++ rest) := by
  obtain ⟨c, a, htext, -, hread⟩ := hstands.read
  obtain ⟨token, htoken, hkind⟩ := (Option.any_eq_true _ _).1 hcomment
  obtain ⟨rfl, -⟩ := Lexer.Extent.read_comment (by rw [hread, htoken]) hkind
  have hblank : Text.blanked x.text = ' ' :: Text.blanked a := by
    rw [htext, Text.blanked_cons]
    rfl
  rw [Lexeme.written]
  cases hgap : x.gap with
  | nil =>
    refine .inr ⟨'/', a ++ rest, ' ', Text.blanked a ++ rest, ?_, ?_, rfl, .inr ⟨rfl, by decide⟩⟩
    · rw [htext, List.nil_append, List.cons_append]
    · rw [hblank, List.nil_append, List.cons_append]
  | cons d gap =>
    have hd : Lexer.isSpace d = true := hstands.gap d (by simp [hgap])
    exact .inr ⟨d, _, d, _, rfl, rfl, Lexer.endsToken_of_isSpace hd, .inl rfl⟩

/-- The lexemes of a source that has one of its comments blanked out. -/
theorem lexemes_blankOut {source : List Char} {before behind : List Lexeme} {x : Lexeme}
    (h : (lex source).1 = before ++ x :: behind) (hcomment : x.isComment = true) :
    (lex (x.blankOut source)).1 =
      before ++ behind.modifyHead (·.behindSpace (x.gap ++ Text.blanked x.text)) := by
  obtain ⟨s, hs, hbehind, hother⟩ := lexFrom_writtenAll
    (show lexFrom 0 source = (before ++ x :: behind, (lex source).2) from Prod.ext h rfl)
  obtain ⟨rest, rfl, hstart, hstands, hrest⟩ := lexFrom_eq_cons_iff.1 hbehind
  have hsource : source = (Lexeme.writtenAll before ++ x.gap) ++ (x.text ++ rest) := by
    rw [hs, Lexeme.written]
    simp only [List.append_assoc]
  have hfront : Text.byteLength (Lexeme.writtenAll before ++ x.gap) = x.start := by
    rw [hstart, Nat.zero_add, Text.byteLength_append]
  have htake : Text.takeBytes x.start source = Lexeme.writtenAll before ++ x.gap := by
    rw [← hfront, hsource, Text.takeBytes_byteLength_append]
  have hdrop : Text.dropBytes x.stop source = rest := by
    rw [Lexeme.stop, ← hfront, ← Text.byteLength_append, hsource, ← List.append_assoc,
      Text.dropBytes_byteLength_append]
  have hblankOut : x.blankOut source =
      Lexeme.writtenAll before ++ ((x.gap ++ Text.blanked x.text) ++ rest) := by
    rw [Lexeme.blankOut, htake, hdrop]
    simp only [List.append_assoc]
  have hspace : ∀ c ∈ x.gap ++ Text.blanked x.text, Lexer.isSpace c = true := fun c hc =>
    (List.mem_append.1 hc).elim (hstands.gap c) Text.isSpace_of_mem_blanked
  have hstop : 0 + Text.byteLength (Lexeme.writtenAll before) +
      Text.byteLength (x.gap ++ Text.blanked x.text) = x.stop := by
    rw [Text.byteLength_append, Text.byteLength_blanked, Lexeme.stop, hstart, Nat.add_assoc,
      Nat.add_assoc, Nat.add_assoc]
  rw [lex, hblankOut, hother _ (x.yields_blanked hstands hcomment)]
  dsimp only
  rw [lexFrom_space_append hspace, hstop, hrest]

/-! ## The code around blank text -/

/-- What stands behind these lexemes and this white space is on a line below a comment. -/
def belowComment (before : List Lexeme) (gap : List Char) : Bool :=
  before.getLast?.elim false Lexeme.isComment && gap.contains '\n'

theorem belowComment_concat {x : Lexeme} (h : x.isComment = true) (before : List Lexeme)
    (gap : List Char) : belowComment (before ++ [x]) gap = gap.contains '\n' := by
  simp [belowComment, h]

/-- Of the text behind the lexemes only its line breaks matter. -/
theorem belowComment_congr {s other : List Char} (h : '\n' ∈ s ↔ '\n' ∈ other)
    (before : List Lexeme) (gap : List Char) :
    belowComment before (s ++ gap) = belowComment before (other ++ gap) := by
  simp [belowComment, h]

/-- The same token in other code. Its mark is the same unless it begins at one of the places. -/
structure CodeToken.Recasts (places : Nat → Bool) (t other : CodeToken) : Prop where
  token : other.token = t.token
  text : other.text = t.text
  start : other.start = t.start
  mark : places t.start = false → other.afterComment = t.afterComment

namespace Code

variable {places : Nat → Bool}

/-- Text that stands before the first code token changes nothing else. -/
theorem recasts_lead (lead other : List Char) (commented : Bool) (lexemes : List Lexeme) :
    List.Forall₂ (CodeToken.Recasts places) (ofLexemesAfter lead commented lexemes)
      (ofLexemesAfter other commented lexemes) := by
  induction lexemes generalizing lead other commented with
  | nil => exact .nil
  | cons x behind ih =>
    rw [ofLexemesAfter, ofLexemesAfter]
    cases x.token with
    | none => exact ih ..
    | some token =>
      dsimp only
      split
      · exact ih ..
      · exact .cons ⟨rfl, rfl, rfl, fun _ => rfl⟩ (ih ..)

/-- Lexemes in front leave the code behind them as it is but for what stands before it and whether it
follows a comment. -/
theorem recasts_append {before behind other : List Lexeme} {commented : Bool}
    (h : ∀ lead, List.Forall₂ (CodeToken.Recasts places)
      (ofLexemesAfter lead (before.getLast?.elim commented Lexeme.isComment) behind)
      (ofLexemesAfter lead (before.getLast?.elim commented Lexeme.isComment) other))
    (lead : List Char) :
    List.Forall₂ (CodeToken.Recasts places) (ofLexemesAfter lead commented (before ++ behind))
      (ofLexemesAfter lead commented (before ++ other)) := by
  obtain ⟨front, hfront⟩ := exists_ofLexemesAfter_append before lead commented
  rw [hfront, hfront]
  refine List.rel_append (List.forall₂_same.2 fun t _ => ?_) (h front)
  exact ⟨rfl, rfl, rfl, fun _ => rfl⟩

/-- The places at which a token stands right behind the comment `x` and has another mark without it. -/
def markChanges (before : List Lexeme) (x : Lexeme) (behind : List Lexeme) (place : Nat) : Bool :=
  behind.head?.any fun y => y.start == place &&
    belowComment (before ++ [x]) y.gap != belowComment before (x.written ++ y.gap)

theorem markChanges_iff {before behind : List Lexeme} {x : Lexeme} {place : Nat} :
    markChanges before x behind place = true ↔ ∃ y ∈ behind.head?, y.start = place ∧
      belowComment (before ++ [x]) y.gap ≠ belowComment before (x.written ++ y.gap) := by
  simp [markChanges, Option.any_eq_true]

/-- The code without a comment, when white space with the same line breaks stands in its place. -/
theorem recasts_behindSpace (before behind : List Lexeme) {x : Lexeme} {space : List Char}
    (hcomment : x.isComment = true) (hspace : '\n' ∈ space ↔ '\n' ∈ x.written) :
    List.Forall₂ (CodeToken.Recasts (markChanges before x behind))
      (ofLexemes (before ++ x :: behind))
      (ofLexemes (before ++ behind.modifyHead (·.behindSpace space))) := by
  refine recasts_append (fun lead => ?_) []
  obtain ⟨kind, hkind, hkindComment⟩ := (Option.any_eq_true _ _).1 hcomment
  rw [ofLexemesAfter, hkind]
  simp only [hkindComment, if_true]
  cases behind with
  | nil => exact .nil
  | cons y more =>
    rw [List.modifyHead_cons, ofLexemesAfter, ofLexemesAfter, Lexeme.behindSpace]
    cases y.token with
    | none => exact recasts_lead ..
    | some token =>
      dsimp only
      split
      · exact recasts_lead ..
      · refine .cons ⟨rfl, rfl, rfl, fun hsame => ?_⟩ (recasts_lead ..)
        have hmarks : belowComment (before ++ [x]) y.gap =
            belowComment before (x.written ++ y.gap) := by
          by_contra hchanges
          rw [markChanges_iff.2 ⟨y, rfl, rfl, hchanges⟩] at hsame
          cases hsame
        rw [belowComment_concat hcomment, ← belowComment_congr hspace] at hmarks
        show belowComment before (space ++ y.gap) = (true && y.gap.contains '\n')
        rw [hmarks, Bool.true_and]

end Code

/-- Tokens as they stand in other code, with the marks from there at the places only. -/
def Recast.into (other : Code) (places : Nat → Bool) : Recast where
  apply t :=
    match other.find? (·.start == t.start) with
    | some u =>
      { t with
        lead := u.lead
        afterComment := if places t.start then u.afterComment else t.afterComment }
    | none => t
  token t := by split <;> rfl
  text t := by split <;> rfl
  start t := by split <;> rfl

namespace Recast

variable {places : Nat → Bool}

theorem afterComment_into (other : Code) {t : CodeToken} (h : places t.start = false) :
    ((into other places).apply t).afterComment = t.afterComment := by
  rw [into]
  dsimp only
  split
  · simp [h]
  · rfl

theorem into_eq {other : Code} {t u : CodeToken} (h : t.Recasts places u)
    (hfind : other.find? (·.start == u.start) = some u) : (into other places).apply t = u := by
  obtain ⟨htoken, htext, hstart, hmark⟩ := h
  rw [hstart] at hfind
  simp only [into, hfind]
  cases t
  cases u
  dsimp only at htoken htext hstart hmark ⊢
  subst htoken htext hstart
  split
  · rfl
  · next hplace => rw [hmark (by simpa using hplace)]

/-- Tokens are found in code by where they begin. -/
theorem find?_start {code : Code} (hcode : code.Ascending) {u : CodeToken} (hu : u ∈ code) :
    code.find? (·.start == u.start) = some u := by
  obtain ⟨front, back, rfl⟩ := List.append_of_mem hu
  have hfront : ∀ t ∈ front, ¬(t.start == u.start) = true := by
    intro t ht
    have hapart := (List.pairwise_append.1 hcode.apart).2.2 t ht u List.mem_cons_self
    have hpos := Text.byteLength_pos (hcode.nonempty t (by simp [ht]))
    rw [beq_iff_eq]
    omega
  rw [List.find?_append, List.find?_eq_none.2 hfront, Option.none_or]
  exact List.find?_cons_of_pos (beq_self_eq_true u.start)

theorem map_into {code other : Code} (h : List.Forall₂ (CodeToken.Recasts places) code other)
    (hother : other.Ascending) : code.map (into other places).apply = other := by
  have hpart : ∀ {part front : Code}, List.Forall₂ (CodeToken.Recasts places) part front →
      (∀ u ∈ front, u ∈ other) → part.map (into other places).apply = front := by
    intro part front hrecasts
    induction hrecasts with
    | nil => exact fun _ => rfl
    | cons hrecast _ ih =>
      intro hmem
      rw [List.map_cons, into_eq hrecast (find?_start hother (hmem _ List.mem_cons_self)),
        ih fun u hu => hmem u (List.mem_cons_of_mem _ hu)]
  exact hpart h fun _ hu => hu

end Recast

/-! ## What is scanned around blank text -/

namespace Declaration

open Cursor (bares)

/-- Where the tokens begin whose marks decide where the plain declarations of a source begin. -/
def restartPlaces (source : List Char) : List Nat :=
  (plainHeads (Code.ofLexemes (lex source).1)).flatMap fun head =>
    (restartPoints head.tail).map CodeToken.start

/-- A comment changes nothing of what is scanned but details, unless the mark on the token right
behind it is another one without the comment and decides where a plain declaration begins. -/
theorem comment_transparent {source : List Char} {before behind : List Lexeme} {x : Lexeme}
    (h : (lex source).1 = before ++ x :: behind) (hcomment : x.isComment = true)
    (hkept : ∀ y ∈ behind.head?, y.start ∈ restartPlaces source →
      belowComment (before ++ [x]) y.gap = belowComment before (x.written ++ y.gap)) :
    bares (scanText (x.blankOut source)).cursors = bares (scanText source).cursors ∧
      (scanText (x.blankOut source)).remarks = (scanText source).remarks := by
  have hbreaks : '\n' ∈ x.gap ++ Text.blanked x.text ↔ '\n' ∈ x.written := by
    simp [Lexeme.written]
  have hrecasts := Code.recasts_behindSpace before behind hcomment hbreaks
  rw [← h, ← lexemes_blankOut h hcomment] at hrecasts
  -- the two scans are of one code and of a recast of it
  have hcode := Recast.map_into hrecasts (.ofLexemes (x.blankOut source))
  rw [scanText, scanText, ← hcode]
  refine scan_recast _ fun head hhead t ht => Recast.afterComment_into _ ?_
  rw [← Bool.not_eq_true, Code.markChanges_iff]
  rintro ⟨y, hy, hstart, hmarks⟩
  have hplace : y.start ∈ restartPlaces source := by
    rw [hstart]
    exact List.mem_flatMap.2 ⟨head, hhead, List.mem_map_of_mem ht⟩
  exact hmarks (hkept y hy hplace)

/-- A function with a comment between its parameters, and a variable. -/
def parameterHeader : List Char := "int f(int a, // first\n  int b);\nint g;".toList

def parameterComment : Lexeme := ⟨[' '], some .lineComment, 13, "// first".toList⟩

/-- The token behind the comment loses its mark, but stands in brackets. -/
theorem comment_transparent_parameters :
    let before := (lex parameterHeader).1.take 6
    let behind := (lex parameterHeader).1.drop 7
    (lex parameterHeader).1 = before ++ parameterComment :: behind ∧
      parameterComment.isComment = true ∧
      (∀ y ∈ behind.head?, y.start ∉ restartPlaces parameterHeader ∧
        belowComment (before ++ [parameterComment]) y.gap ≠
          belowComment before (parameterComment.written ++ y.gap)) ∧
      String.ofList (parameterComment.blankOut parameterHeader) =
        "int f(int a,         \n  int b);\nint g;" ∧
      bares (scanText (parameterComment.blankOut parameterHeader)).cursors =
        bares (scanText parameterHeader).cursors ∧
      (scanText parameterHeader).cursors.map Cursor.spelling = ["f", "g"] := by
  intro before behind
  have hlex : (lex parameterHeader).1 = before ++ parameterComment :: behind := by decide +kernel
  have hcomment : parameterComment.isComment = true := by decide
  have hbehind : ∀ y ∈ behind.head?, y.start ∉ restartPlaces parameterHeader ∧
      belowComment (before ++ [parameterComment]) y.gap ≠
        belowComment before (parameterComment.written ++ y.gap) := by decide +kernel
  have hsame := comment_transparent hlex hcomment fun y hy hplace =>
    absurd hplace (hbehind y hy).1
  exact ⟨hlex, hcomment, hbehind, by decide +kernel, hsame.1, by decide +kernel⟩

/-- Where variables stand below each other, a comment between them hides them all. -/
example :
    let source := "int a, // first\nb;".toList
    let comment : Lexeme := ⟨[' '], some .lineComment, 7, "// first".toList⟩
    comment ∈ (lex source).1 ∧ comment.docStyle? = none ∧
      (scanText source).cursors.map Cursor.spelling = [] ∧
      (scanText (comment.blankOut source)).cursors.map Cursor.spelling = ["a", "b"] := by
  decide +kernel

end Declaration

end DeclDoc
