import DeclDoc.Proofs.Positional.Table
import DeclDoc.SourceFile

/-!
# Comments by byte offsets

The pieces of a source are known by their byte offsets, and comments are sliced out of the source.
`preceding_eq`, `groupBetween_eq`: before the boundary of two characters and between any two offsets
every slice is one of the source, and it is the comment or group title that stands there.
-/

set_option autoImplicit false

namespace DeclDoc

/-- The source text of lexemes with what stands before each. -/
def Lexeme.writtenAll (lexemes : List Lexeme) : List Char := (lexemes.map written).flatten

theorem Lexeme.writtenAll_append (xs ys : List Lexeme) :
    writtenAll (xs ++ ys) = writtenAll xs ++ writtenAll ys := by
  rw [writtenAll, List.map_append, List.flatten_append]
  rfl

theorem Lexeme.writtenAll_singleton (x : Lexeme) : writtenAll [x] = x.gap ++ x.text := by
  simp [writtenAll, written]

theorem Lexeme.start_of_laid {offset : Nat} {before behind : List Lexeme} {x : Lexeme}
    (h : Laid offset (before ++ x :: behind)) :
    x.start = offset + Text.byteLength (writtenAll before ++ x.gap) := by
  induction before generalizing offset with
  | nil => exact h.1
  | cons first more ih =>
    have hfirst := h.1
    have hx := ih h.2
    have hsplit : writtenAll (first :: more) = first.gap ++ (first.text ++ writtenAll more) := by
      simp [writtenAll, written]
    simp only [hsplit, Text.byteLength_append, stop] at hx ⊢
    omega

/-- A lexeme in its source. -/
theorem Lexeme.source_of_lex {source : List Char} {before behind : List Lexeme} {x : Lexeme}
    (h : (lex source).1 = before ++ x :: behind) :
    (∃ rest, source = writtenAll before ++ x.gap ++ (x.text ++ rest)) ∧
      x.start = Text.byteLength (writtenAll before ++ x.gap) := by
  constructor
  · refine ⟨writtenAll behind ++ (lex source).2, ?_⟩
    have hsource := flatten_written_lex source
    rw [← writtenAll, h, writtenAll_append, ← List.singleton_append, writtenAll_append,
      writtenAll_singleton] at hsource
    refine hsource.symm.trans ?_
    simp only [List.append_assoc]
  · have hlaid : Laid 0 (before ++ x :: behind) := h ▸ laid_lexFrom 0 source
    rw [start_of_laid hlaid, Nat.zero_add]

theorem Text.slice_append (before mid behind : List Char) :
    slice (byteLength before) (byteLength (before ++ mid)) (before ++ (mid ++ behind)) = mid := by
  rw [slice, byteLength_append, Nat.add_sub_cancel_left, dropBytes_byteLength_append,
    takeBytes_byteLength_append]

/-- A character of the text begins at the offset, or the text ends there. -/
def Text.IsBoundary (s : List Char) (offset : Nat) : Prop :=
  ∃ front back, s = front ++ back ∧ offset = byteLength front

/-- Between two boundaries stands a part of the text. -/
theorem Text.IsBoundary.exists_between {s : List Char} {start stop : Nat} (hstart : IsBoundary s start)
    (hstop : IsBoundary s stop) (hle : start ≤ stop) :
    ∃ before mid behind, s = before ++ (mid ++ behind) ∧ start = byteLength before ∧
      stop = byteLength (before ++ mid) := by
  obtain ⟨before, back, hbefore, rfl⟩ := hstart
  obtain ⟨front, behind, hfront, rfl⟩ := hstop
  rcases List.append_eq_append_iff.1 (hbefore.symm.trans hfront) with
    ⟨mid, rfl, rfl⟩ | ⟨extra, rfl, rfl⟩
  · exact ⟨before, mid, behind, hbefore, rfl, rfl⟩
  · -- The two boundaries are one: nothing stands between the later offset and the earlier.
    have hextra : extra = [] := by
      have := length_le_byteLength extra
      rw [byteLength_append] at hle
      exact List.length_eq_zero_iff.1 (by omega)
    rw [hextra, List.append_nil]
    exact ⟨front, [], _, hfront, rfl, by rw [List.append_nil]⟩

namespace Positional

/-- All of a list can be done if each of it can. -/
theorem mapM_eq_ok {α β : Type} {f : α → Except Crash β} {g : α → β} {xs : List α}
    (h : ∀ x ∈ xs, f x = .ok (g x)) : xs.mapM f = .ok (xs.map g) := by
  induction xs with
  | nil => rfl
  | cons x xs ih =>
    rw [List.mapM_cons, h x List.mem_cons_self, ok_bind,
      ih fun y hy => h y (List.mem_cons_of_mem x hy)]
    rfl

/-- A lexeme by where it stands in the source. -/
structure Piece where
  token : Option Token
  start : Nat
  stop : Nat

def Piece.ofLexeme (x : Lexeme) : Piece := ⟨x.token, x.start, x.stop⟩

def Piece.isComment (piece : Piece) : Bool := piece.token.any Token.isComment

/-- A source and its pieces. -/
structure Comments where
  source : List Char
  pieces : List Piece

namespace Comments

def ofSource (source : List Char) : Comments := ⟨source, (lex source).1.map .ofLexeme⟩

variable (comments : Comments)

/-! ## Operations -/

def text (piece : Piece) : Except Crash (List Char) := slice piece.start piece.stop comments.source

/-- The style of a comment that documents what follows it. -/
def docStyle (piece : Piece) : Except Crash (Option DocStyle) :=
  if piece.isComment then do
    let text ← comments.text piece
    pure (if (groupTitle? text).isNone then DocStyle.ofText? text else none)
  else pure none

/-- Where the line comments begin that run up to the one at a position, which begins at `start`. -/
def firstLine : (i start : Nat) → Except Crash Nat
  | 0, start => pure start
  | i + 1, start => do
    let before ← expect .position comments.pieces[i]?
    let below ← expect .position comments.pieces[i + 1]?
    let gap ← slice before.stop below.start comments.source
    let style ← comments.docStyle before
    if before.token = some .lineComment ∧ style = some .line ∧ SourceFile.lineBreaks gap = 1 then
      firstLine i before.start
    else pure start

/-- The documentation comment of a piece that ends right before an offset. -/
def documentation (i : Nat) (last : Piece) : Except Crash (List Char) := do
  match ← comments.docStyle last with
  | none => pure []
  | some .block => comments.text last
  | some .line =>
    let start ← comments.firstLine i last.start
    slice start last.stop comments.source

/-- The documentation comment that ends right before an offset, on the line above at the latest. -/
def preceding (offset : Nat) : Except Crash (List Char) :=
  match (comments.pieces.takeWhile (·.start < offset)).length with
  | 0 => pure []
  | i + 1 =>
    match comments.pieces[i]? with
    | none => pure []
    | some last =>
      if offset < last.stop then pure []
      else do
        let gap ← slice last.stop offset comments.source
        if 1 < SourceFile.lineBreaks gap then pure [] else comments.documentation i last

/-- The title of the last group marker between two offsets. -/
def groupBetween (start stop : Nat) : Except Crash (Option String) := do
  let between := (comments.pieces.dropWhile (·.start < start)).takeWhile (·.stop ≤ stop)
  let titles ← (between.filter Piece.isComment).mapM fun piece => do
    pure (groupTitle? (← comments.text piece))
  pure ((titles.filterMap id).getLast?.map String.ofList)

/-! ## Laws -/

variable {source : List Char} {before behind earlier : List Lexeme} {x first last : Lexeme}

theorem text_ofLexeme (hx : x ∈ (lex source).1) :
    (ofSource source).text (.ofLexeme x) = .ok x.text := by
  obtain ⟨before, behind, hsplit⟩ := List.append_of_mem hx
  obtain ⟨⟨rest, hsource⟩, hstart⟩ := Lexeme.source_of_lex hsplit
  refine slice_of_append _ x.text rest hsource hstart ?_
  show x.start + _ = _
  rw [hstart, ← Text.byteLength_append]

theorem docStyle_ofLexeme (hx : x ∈ (lex source).1) :
    (ofSource source).docStyle (.ofLexeme x) = .ok x.docStyle? := by
  rw [docStyle, text_ofLexeme hx, Lexeme.docStyle?]
  have hsame : (Piece.ofLexeme x).isComment = x.isComment := rfl
  rw [hsame]
  cases x.isComment <;> simp

/-- Where a lexeme ends is where the text up to it does. -/
theorem stop_of_lex (h : (lex source).1 = before ++ x :: behind) :
    x.stop = Text.byteLength (Lexeme.writtenAll (before ++ [x])) := by
  rw [Lexeme.stop, (Lexeme.source_of_lex h).2, Lexeme.writtenAll_append, Lexeme.writtenAll_singleton]
  simp only [Text.byteLength_append]
  omega

/-- The text between two lexemes that stand side by side. -/
theorem slice_gap (h : (lex source).1 = before ++ last :: x :: behind) :
    slice last.stop x.start source = .ok x.gap ∧ Text.slice last.stop x.start source = x.gap := by
  have hbehind : (lex source).1 = (before ++ [last]) ++ x :: behind := by
    rw [h, List.append_assoc]
    rfl
  obtain ⟨⟨rest, hsource⟩, hstart⟩ := Lexeme.source_of_lex hbehind
  have hstop := stop_of_lex h
  rw [List.append_assoc] at hsource
  refine ⟨slice_of_append _ x.gap (x.text ++ rest) hsource hstop hstart, ?_⟩
  rw [hstop, hstart, hsource, Text.slice_append]

/-- The line comments that run up to `first` come to the text that they join to. -/
theorem firstLine_eq (h : (lex source).1 = earlier.reverse ++ first :: behind)
    {below rest : List Char}
    (hsource : source = Lexeme.writtenAll earlier.reverse ++ first.gap ++ (below ++ rest)) :
    ∃ start, (ofSource source).firstLine earlier.length first.start = .ok start ∧
      slice start (Text.byteLength (Lexeme.writtenAll earlier.reverse ++ first.gap ++ below)) source =
        .ok (SourceFile.joinLineComments first below earlier) := by
  induction earlier generalizing first behind below with
  | nil =>
    exact ⟨first.start, rfl, slice_of_append _ below rest hsource (Lexeme.source_of_lex h).2 rfl⟩
  | cons previous more ih =>
    have hprevious : (lex source).1 = more.reverse ++ previous :: first :: behind := by
      rw [h, List.reverse_cons, List.append_assoc]
      rfl
    have hat : (ofSource source).pieces[more.length]? = some (.ofLexeme previous) := by
      simp [ofSource, hprevious]
    have hbelow : (ofSource source).pieces[more.length + 1]? = some (.ofLexeme first) := by
      simp [ofSource, hprevious]
    have hgap : slice (Piece.ofLexeme previous).stop (Piece.ofLexeme first).start
      (ofSource source).source = .ok first.gap := (slice_gap hprevious).1
    have hlexed : previous ∈ (lex source).1 := by simp [hprevious]
    have hstyle := docStyle_ofLexeme hlexed
    have hwritten : Lexeme.writtenAll (previous :: more).reverse ++ first.gap ++ below =
        Lexeme.writtenAll more.reverse ++ previous.gap ++ (previous.text ++ first.gap ++ below) := by
      rw [List.reverse_cons, Lexeme.writtenAll_append, Lexeme.writtenAll_singleton]
      simp only [List.append_assoc]
    rw [hwritten, List.length_cons, firstLine, hat, hbelow, SourceFile.joinLineComments]
    simp only [expect, ok_bind, hgap, hstyle]
    by_cases hjoin : previous.token = some .lineComment ∧ previous.docStyle? = some .line ∧
        SourceFile.lineBreaks first.gap = 1
    · rw [if_pos hjoin]
      have hsplit : source = Lexeme.writtenAll more.reverse ++ previous.gap ++
          (previous.text ++ first.gap ++ below ++ rest) := by
        rw [← List.append_assoc, ← hwritten, List.append_assoc]
        exact hsource
      obtain ⟨start, hstart, hslice⟩ := ih hprevious hsplit
      exact ⟨start, (if_pos hjoin).trans hstart, hslice⟩
    · rw [if_neg hjoin]
      refine ⟨first.start, if_neg hjoin, ?_⟩
      rw [← hwritten]
      exact slice_of_append _ below rest hsource (Lexeme.source_of_lex h).2 rfl

theorem documentation_eq (h : (lex source).1 = earlier.reverse ++ last :: behind) :
    (ofSource source).documentation earlier.length (.ofLexeme last) =
      .ok (match last.docStyle? with
        | none => []
        | some .block => last.text
        | some .line => SourceFile.joinLineComments last last.text earlier) := by
  have hlast : last ∈ (lex source).1 := by simp [h]
  obtain ⟨⟨rest, hsource⟩, -⟩ := Lexeme.source_of_lex h
  obtain ⟨start, hfirst, hslice⟩ := firstLine_eq h hsource
  have hstop : Text.byteLength (Lexeme.writtenAll earlier.reverse ++ last.gap ++ last.text) =
      (Piece.ofLexeme last).stop := by
    rw [List.append_assoc, ← Lexeme.writtenAll_singleton, ← Lexeme.writtenAll_append]
    exact (stop_of_lex h).symm
  rw [documentation, docStyle_ofLexeme hlast, ok_bind]
  cases last.docStyle? with
  | none => rfl
  | some style =>
    cases style with
    | block => exact text_ofLexeme hlast
    | line =>
      rw [hstop] at hslice
      exact (congrArg (· >>= _) hfirst).trans hslice

/-- Lexemes begin and end at boundaries. -/
theorem isBoundary_of_lex (hx : x ∈ (lex source).1) :
    Text.IsBoundary source x.start ∧ Text.IsBoundary source x.stop := by
  obtain ⟨before, behind, hsplit⟩ := List.append_of_mem hx
  obtain ⟨⟨rest, hsource⟩, hstart⟩ := Lexeme.source_of_lex hsplit
  refine ⟨⟨_, _, hsource, hstart⟩, Lexeme.writtenAll before ++ x.gap ++ x.text, rest, ?_, ?_⟩
  · rw [List.append_assoc _ x.text rest]
    exact hsource
  · rw [stop_of_lex hsplit, Lexeme.writtenAll_append, Lexeme.writtenAll_singleton, List.append_assoc]

theorem slice_eq_of_isBoundary {start stop : Nat} (hstart : Text.IsBoundary source start)
    (hstop : Text.IsBoundary source stop) (hle : start ≤ stop) :
    slice start stop source = .ok (Text.slice start stop source) := by
  obtain ⟨before, mid, behind, rfl, rfl, rfl⟩ := hstart.exists_between hstop hle
  rw [Text.slice_append]
  exact slice_of_append before mid behind rfl rfl rfl

theorem preceding_eq (path : String) {offset : Nat} (h : Text.IsBoundary source offset) :
    (ofSource source).preceding offset =
      .ok ((SourceFile.ofText path source).commentBefore offset) := by
  have hlexemes : (SourceFile.ofText path source).lexemes = (lex source).1 := rfl
  have hlength : ((ofSource source).pieces.takeWhile (·.start < offset)).length =
      ((lex source).1.takeWhile (·.start < offset)).length := by
    rw [ofSource, List.takeWhile_map, List.length_map]
    rfl
  rw [preceding, hlength, SourceFile.commentBefore, hlexemes]
  cases hr : ((lex source).1.takeWhile (·.start < offset)).reverse with
  | nil =>
    rw [List.reverse_eq_nil_iff.1 hr]
    rfl
  | cons last earlier =>
    have hbefore : (lex source).1.takeWhile (·.start < offset) = earlier.reverse ++ [last] := by
      rw [← List.reverse_reverse (List.takeWhile _ _), hr, List.reverse_cons]
    have hlexed : (lex source).1 =
        earlier.reverse ++ last :: (lex source).1.dropWhile (·.start < offset) := by
      conv => lhs; rw [← List.takeWhile_append_dropWhile (p := (·.start < offset)) (l := (lex source).1)]
      rw [hbefore, List.append_assoc]
      rfl
    have hat : (ofSource source).pieces[earlier.length]? = some (.ofLexeme last) := by
      rw [ofSource, hlexed]
      simp
    have hlast : last ∈ (lex source).1 := hlexed ▸ List.mem_append_right _ List.mem_cons_self
    rw [hbefore, List.length_append, List.length_reverse, List.length_singleton]
    dsimp only
    rw [hat]
    dsimp only
    by_cases hover : offset < last.stop
    · have hinside : offset < (Piece.ofLexeme last).stop := hover
      rw [if_pos hinside, if_pos (Or.inl hover)]
      rfl
    · have hslice : slice (Piece.ofLexeme last).stop offset (ofSource source).source =
          .ok (Text.slice last.stop offset (SourceFile.ofText path source).text) :=
        slice_eq_of_isBoundary (isBoundary_of_lex hlast).2 h (Nat.not_lt.1 hover)
      have hafter : ¬ offset < (Piece.ofLexeme last).stop := hover
      rw [if_neg hafter, hslice, ok_bind]
      by_cases hbreaks : 1 < SourceFile.lineBreaks
          (Text.slice last.stop offset (SourceFile.ofText path source).text)
      · rw [if_pos hbreaks, if_pos (.inr hbreaks)]
        rfl
      · rw [if_neg hbreaks]
        exact (documentation_eq hlexed).trans
          (congrArg Except.ok (if_neg (not_or.2 ⟨hover, hbreaks⟩)).symm)

theorem groupBetween_eq (path : String) (source : List Char) (start stop : Nat) :
    (ofSource source).groupBetween start stop =
      .ok ((SourceFile.ofText path source).groupBetween start stop) := by
  have hbetween : ((ofSource source).pieces.dropWhile (·.start < start)).takeWhile (·.stop ≤ stop) =
      (((lex source).1.dropWhile (·.start < start)).takeWhile (·.stop ≤ stop)).map .ofLexeme := by
    rw [ofSource, List.dropWhile_map, List.takeWhile_map]
    rfl
  have hcomments : Piece.isComment ∘ Piece.ofLexeme = Lexeme.isComment := rfl
  rw [groupBetween, hbetween, List.filter_map, List.mapM_map, hcomments]
  generalize hlexemes : (((lex source).1.dropWhile (·.start < start)).takeWhile (·.stop ≤ stop)).filter
    Lexeme.isComment = lexemes
  have htitles : lexemes.mapM ((fun piece => do
      pure (groupTitle? (← (ofSource source).text piece))) ∘ Piece.ofLexeme) =
        .ok (lexemes.map fun x => groupTitle? x.text) := by
    refine mapM_eq_ok fun x hx => ?_
    rw [← hlexemes] at hx
    have hlexed : x ∈ (lex source).1 := ((List.filter_sublist.trans (List.takeWhile_sublist _)).trans
      (List.dropWhile_sublist _)).subset hx
    rw [Function.comp_apply, text_ofLexeme hlexed]
    rfl
  have htitled : (SourceFile.ofText path source).groupBetween start stop =
      (lexemes.filterMap (groupTitle? ·.text)).getLast?.map String.ofList := by
    rw [← hlexemes]
    rfl
  rw [htitles, htitled, ok_bind, List.filterMap_map]
  rfl

end Comments

end Positional

end DeclDoc
