import DeclDoc.Proofs.Positional.Comment
import DeclDoc.Proofs.SourceOrder

/-!
# Documentation comments in their source

The comment of a declaration is a run of documentation comments that ends right before it
(`IsDocumentation`): one comment in block style, or all the comments in line style that stand on the
lines above. The run stands behind the code of whatever was declared before, so no comment documents
two declarations (`FrontEnd.comments_scanner`).
-/

set_option autoImplicit false

namespace DeclDoc

/-! ## Documentation comments among lexemes -/

namespace Lexer.Extent

theorem token_of_literal {token other : Token} {quote : Char} {opening : Nat} {rest : List Char}
    (h : (literal token quote opening rest).token = some other) : other = token := by
  unfold literal at h
  dsimp only at h
  split at h <;> cases h
  rfl

/-- What is read as a comment begins with a slash, and the next character tells its kind. -/
theorem read_comment {c : Char} {rest : List Char} {token : Token}
    (h : (read c rest).token = some token) (hcomment : token.isComment = true) :
    c = '/' ∧ ((∃ tail, rest = '/' :: tail ∧ token = .lineComment) ∨
      ∃ body, rest = '*' :: body ∧ token = .blockComment ∧
        (read c rest).more = blockCommentTail body + 1) := by
  have hsingle : ∀ c t, single? c = some t → t.isComment = false := by
    intro c t ht
    unfold single? at ht
    split at ht <;> cases ht <;> rfl
  have hno : ∀ {other : Token}, other.isComment = false → token ≠ other := by
    rintro other hother rfl
    rw [hother] at hcomment
    cases hcomment
  unfold read at h ⊢
  split at h
  · exact absurd (Option.some.inj h).symm (hno rfl)
  split at h
  · exact absurd (Option.some.inj h).symm (hno rfl)
  next hident hdigit =>
  rw [if_neg hident, if_neg hdigit]
  split at h
  · exact ⟨rfl, .inl ⟨_, rfl, (Option.some.inj h).symm⟩⟩
  · exact ⟨rfl, .inr ⟨_, rfl, (Option.some.inj h).symm, rfl⟩⟩
  · exact absurd (Option.some.inj h).symm (hno rfl)
  · exact absurd (token_of_literal h) (hno rfl)
  · split at h
    · exact absurd (Option.some.inj h).symm (hno rfl)
    · cases h
  · exact absurd (token_of_literal h) (hno rfl)
  · exact absurd (token_of_literal h) (hno rfl)
  · exact absurd (Option.some.inj h).symm (hno rfl)
  · exact absurd rfl (hno (hsingle _ _ h))

theorem read_blockComment {c : Char} {rest : List Char}
    (h : (read c rest).token = some .blockComment) :
    ∃ body, c = '/' ∧ rest = '*' :: body ∧ (read c rest).more = blockCommentTail body + 1 := by
  obtain ⟨hc, ⟨tail, -, hline⟩ | ⟨body, hrest, -, hmore⟩⟩ := read_comment h rfl
  · cases hline
  · exact ⟨body, hc, hrest, hmore⟩

theorem read_lineComment {c : Char} {rest : List Char}
    (h : (read c rest).token = some .lineComment) : c = '/' ∧ ∃ tail, rest = '/' :: tail := by
  obtain ⟨hc, ⟨tail, hrest, -⟩ | ⟨body, -, hblock, -⟩⟩ := read_comment h rfl
  · exact ⟨hc, tail, hrest⟩
  · cases hblock

end Lexer.Extent

namespace Lexeme

/-- A lexeme that documents is a comment, has a style and is no group marker. -/
theorem docStyle?_eq_some_iff {x : Lexeme} {style : DocStyle} :
    x.docStyle? = some style ↔
      x.isComment = true ∧ groupTitle? x.text = none ∧ DocStyle.ofText? x.text = some style := by
  unfold docStyle?
  rw [← Option.isNone_iff_eq_none, ← and_assoc, ← Bool.and_eq_true]
  constructor
  · intro h
    split at h
    · next hcomment => exact ⟨hcomment, h⟩
    · cases h
  · rintro ⟨hcomment, hstyle⟩
    rw [if_pos hcomment, hstyle]

/-- A block comment begins as one. -/
theorem begins_of_blockComment {offset : Nat} {s : List Char} {x : Lexeme}
    (hx : x ∈ (lexFrom offset s).1) (h : x.token = some .blockComment) :
    ∃ rest, x.text = '/' :: '*' :: rest := by
  fun_induction lexFrom offset s with
  | case1 => cases hx
  | case2 offset s gap c rest hs start extent text after ih =>
    rcases List.mem_cons.1 hx with rfl | hx
    · obtain ⟨body, rfl, rfl, hmore⟩ := Lexer.Extent.read_blockComment h
      refine ⟨body.take (Lexer.blockCommentTail body), ?_⟩
      show '/' :: List.take (Lexer.Extent.read '/' ('*' :: body)).more ('*' :: body) = _
      rw [hmore, List.take_succ_cons]
    · exact ih hx

/-- Line style is for comments that end with their line. -/
theorem token_of_line {source : List Char} {x : Lexeme} (hx : x ∈ (lex source).1)
    (h : x.docStyle? = some .line) : x.token = some .lineComment := by
  obtain ⟨hcomment, -, -⟩ := docStyle?_eq_some_iff.1 h
  obtain ⟨rest, hline⟩ := begins_of_docStyle? h
  unfold isComment at hcomment
  cases htoken : x.token with
  | none =>
    rw [htoken] at hcomment
    cases hcomment
  | some token =>
    rw [htoken, Option.any_some] at hcomment
    cases token with
    | lineComment => rfl
    | blockComment =>
      obtain ⟨body, hblock⟩ := begins_of_blockComment hx htoken
      rw [hline] at hblock
      cases hblock
    | _ => cases hcomment

end Lexeme

/-- The lexemes `first :: more` are the documentation comment right before the lexeme `next`; `front`
are the lexemes before them. -/
structure IsDocumentation (front : List Lexeme) (first : Lexeme) (more : List Lexeme)
    (next : Lexeme) : Prop where
  comments : ∀ x ∈ first :: more, x.isComment = true ∧ (DocStyle.ofText? x.text).isSome = true
  unmarked : ∀ x ∈ first :: more, groupTitle? x.text = none
  blank : ∀ x ∈ more ++ [next], ∀ c ∈ x.gap, Lexer.isSpace c = true
  near : SourceFile.lineBreaks next.gap ≤ 1
  block : DocStyle.ofText? first.text = some .block → more = []
  lines : DocStyle.ofText? first.text = some .line →
    (∀ x ∈ more, DocStyle.ofText? x.text = some .line ∧ SourceFile.lineBreaks x.gap = 1) ∧
      ∀ previous ∈ front.getLast?, previous.docStyle? = some .line →
        SourceFile.lineBreaks first.gap ≠ 1

namespace IsDocumentation

variable {front more : List Lexeme} {first next : Lexeme}

/-- A comment in block style stands alone. -/
theorem ofBlock (hstyle : first.docStyle? = some .block)
    (hblank : ∀ c ∈ next.gap, Lexer.isSpace c = true) (hnear : SourceFile.lineBreaks next.gap ≤ 1) :
    IsDocumentation front first [] next := by
  obtain ⟨hcomment, hunmarked, hblock⟩ := Lexeme.docStyle?_eq_some_iff.1 hstyle
  refine ⟨?_, ?_, ?_, hnear, fun _ => rfl, ?_⟩
  · intro x hx
    cases List.mem_singleton.1 hx
    exact ⟨hcomment, hblock ▸ rfl⟩
  · intro x hx
    cases List.mem_singleton.1 hx
    exact hunmarked
  · intro x hx
    cases List.mem_singleton.1 hx
    exact hblank
  · intro hline
    rw [hblock] at hline
    cases hline

/-- Comments in line style stand on lines one below the other, and there are no more of them. -/
theorem ofLines (hlines : ∀ x ∈ first :: more, x.docStyle? = some .line)
    (hgaps : ∀ x ∈ more, SourceFile.lineBreaks x.gap = 1)
    (hblank : ∀ x ∈ more ++ [next], ∀ c ∈ x.gap, Lexer.isSpace c = true)
    (hnear : SourceFile.lineBreaks next.gap ≤ 1)
    (hmaximal : ∀ previous ∈ front.getLast?, previous.docStyle? = some .line →
      SourceFile.lineBreaks first.gap ≠ 1) :
    IsDocumentation front first more next := by
  have hstyles : ∀ x ∈ first :: more, x.isComment = true ∧ groupTitle? x.text = none ∧
      DocStyle.ofText? x.text = some .line := fun x hx =>
    Lexeme.docStyle?_eq_some_iff.1 (hlines x hx)
  refine ⟨?_, fun x hx => (hstyles x hx).2.1, hblank, hnear, ?_, ?_⟩
  · intro x hx
    obtain ⟨hcomment, -, hline⟩ := hstyles x hx
    exact ⟨hcomment, hline ▸ rfl⟩
  · intro hblock
    rw [(hstyles first List.mem_cons_self).2.2] at hblock
    cases hblock
  · intro _
    exact ⟨fun x hx => ⟨(hstyles x (List.mem_cons_of_mem _ hx)).2.2, hgaps x hx⟩, hmaximal⟩

end IsDocumentation

namespace SourceFile

/-- The line comments that are joined to a text: they stand side by side, on one line each, and there
are no more of them. -/
theorem exists_run_of_joinLineComments (first : Lexeme) (below : List Char) (earlier : List Lexeme)
    (hfirst : first.docStyle? = some .line) :
    ∃ front start more, earlier.reverse ++ [first] = front ++ start :: more ∧
      (∀ x ∈ start :: more, x.docStyle? = some .line) ∧
      (∀ x ∈ more, lineBreaks x.gap = 1) ∧
      (∀ previous ∈ front.getLast?, previous.token = some .lineComment →
        previous.docStyle? = some .line → lineBreaks start.gap ≠ 1) ∧
      Lexeme.writtenAll earlier.reverse ++ first.gap ++ below =
        Lexeme.writtenAll front ++ start.gap ++ joinLineComments first below earlier := by
  induction earlier generalizing first below with
  | nil =>
    refine ⟨[], first, [], rfl, ?_, ?_, ?_, rfl⟩
    · intro x hx
      cases List.mem_singleton.1 hx
      exact hfirst
    · intro x hx
      cases hx
    · intro previous hprevious
      cases hprevious
  | cons previous rest ih =>
    rw [joinLineComments, List.reverse_cons]
    split
    · next hjoin =>
      obtain ⟨-, hstyle, hbreaks⟩ := hjoin
      obtain ⟨front, start, more, hsplit, hlines, hgaps, hmaximal, htext⟩ :=
        ih previous (previous.text ++ first.gap ++ below) hstyle
      refine ⟨front, start, more ++ [first], ?_, ?_, ?_, hmaximal, ?_⟩
      · rw [hsplit, List.append_assoc]
        rfl
      · intro x hx
        rw [← List.cons_append, List.mem_append, List.mem_singleton] at hx
        rcases hx with hx | rfl
        · exact hlines x hx
        · exact hfirst
      · intro x hx
        rw [List.mem_append, List.mem_singleton] at hx
        rcases hx with hx | rfl
        · exact hgaps x hx
        · exact hbreaks
      · rw [← htext, Lexeme.writtenAll_append, Lexeme.writtenAll_singleton]
        simp only [List.append_assoc]
    · next hjoin =>
      refine ⟨rest.reverse ++ [previous], first, [], rfl, ?_, ?_, ?_, rfl⟩
      · intro x hx
        cases List.mem_singleton.1 hx
        exact hfirst
      · intro x hx
        cases hx
      · intro other hother htoken hstyle hbreaks
        rw [List.getLast?_concat, Option.mem_some_iff] at hother
        subst hother
        exact hjoin ⟨htoken, hstyle, hbreaks⟩

end SourceFile

/-- Lexemes as they stand in the source, without the white space before the first. -/
def Lexeme.joined : List Lexeme → List Char
  | [] => []
  | first :: more => first.text ++ writtenAll more

theorem Lexeme.writtenAll_cons (first : Lexeme) (more : List Lexeme) :
    writtenAll (first :: more) = first.gap ++ joined (first :: more) := List.append_assoc ..

section

variable {path : String} {source : List Char} {before behind : List Lexeme} {next : Lexeme}

/-- The comment before a lexeme, if there is one, is the text of such a run. -/
theorem SourceFile.commentBefore_start (h : (lex source).1 = before ++ next :: behind) :
    (ofText path source).commentBefore next.start = [] ∨
      ∃ front first more, before = front ++ first :: more ∧
        IsDocumentation front first more next ∧
        (ofText path source).commentBefore next.start = Lexeme.joined (first :: more) := by
  unfold commentBefore
  rw [lexemes_ofText, takeWhile_start_lt h]
  cases hr : before.reverse with
  | nil => exact .inl rfl
  | cons last earlier =>
    have hlast : before = earlier.reverse ++ [last] := by
      rw [← List.reverse_reverse before, hr, List.reverse_cons]
    have hlexed : (lex source).1 = earlier.reverse ++ last :: next :: behind := by
      rw [h, hlast, List.append_assoc]
      rfl
    have hgap : Text.slice last.stop next.start (ofText path source).text = next.gap :=
      (Positional.Comments.slice_gap hlexed).2
    have hlexeme : ∀ x ∈ before ++ [next], x ∈ (lex source).1 := by
      intro x hx
      rw [h, ← List.singleton_append, ← List.append_assoc]
      exact List.mem_append_left _ hx
    have hblank : ∀ x ∈ before ++ [next], ∀ c ∈ x.gap, Lexer.isSpace c = true :=
      fun x hx c hc => isSpace_of_mem_gap (hlexeme x hx) hc
    dsimp only
    rw [hgap]
    split
    · exact .inl rfl
    next hnear =>
    have hnear : lineBreaks next.gap ≤ 1 := Nat.not_lt.1 fun hbreaks => hnear (.inr hbreaks)
    split
    · exact .inl rfl
    · next hstyle =>
      refine .inr ⟨earlier.reverse, last, [], hlast, .ofBlock hstyle ?_ hnear, ?_⟩
      · exact hblank next (List.mem_append_right _ (List.mem_singleton.2 rfl))
      · exact (List.append_nil last.text).symm
    · next hstyle =>
      obtain ⟨front, start, more, hsplit, hlines, hgaps, hmaximal, htext⟩ :=
        exists_run_of_joinLineComments last last.text earlier hstyle
      rw [← hlast] at hsplit
      refine .inr ⟨front, start, more, hsplit, .ofLines hlines hgaps ?_ hnear ?_, ?_⟩
      · intro x hx
        refine hblank x ?_
        rw [hsplit, List.append_assoc]
        exact List.mem_append_right _ (List.mem_cons_of_mem _ hx)
      · intro previous hprevious hline
        have hbefore : previous ∈ before := by
          rw [hsplit]
          exact List.mem_append_left _ (List.mem_of_getLast? hprevious)
        have htoken := Lexeme.token_of_line (hlexeme previous (List.mem_append_left _ hbefore)) hline
        exact hmaximal previous hprevious htoken hline
      · have hwritten : Lexeme.writtenAll earlier.reverse ++ last.gap ++ last.text =
            Lexeme.writtenAll front ++ start.gap ++ Lexeme.joined (start :: more) := by
          rw [List.append_assoc, ← Lexeme.writtenAll_singleton, ← Lexeme.writtenAll_append, ← hlast,
            hsplit, Lexeme.writtenAll_append, Lexeme.writtenAll_cons, List.append_assoc]
        exact List.append_cancel_left (htext.symm.trans hwritten)

end

/-! ## Comments of declarations -/

/-- An entity with the declaration that it tells of, and where its comment begins and ends. -/
structure Documented where
  entity : Entity
  cursor : Cursor
  start : Nat
  stop : Nat

namespace Documented

/-- The comment stands in the source right before the declaration, and is a run of documentation
comments. An empty one stands where the declaration begins. -/
structure IsIn (documented : Documented) (source : List Char) : Prop where
  slice : documented.entity.rawComment = Text.slice documented.start documented.stop source
  run : documented.entity.rawComment = [] ∧ documented.start = documented.cursor.extent ∧
      documented.stop = documented.cursor.extent ∨
    ∃ front first more next behind,
      (lex source).1 = front ++ first :: more ++ next :: behind ∧
      documented.start = first.start ∧
      documented.stop = ((first :: more).getLast (List.cons_ne_nil _ _)).stop ∧
      next.start = documented.cursor.extent ∧ next.isComment = false ∧
      IsDocumentation front first more next

/-- The text of lexemes that stand side by side is a slice of the source. -/
theorem slice_joined {source : List Char} {front more behind : List Lexeme} {first : Lexeme}
    (h : (lex source).1 = front ++ first :: more ++ behind) :
    Text.slice first.start ((first :: more).getLast (List.cons_ne_nil _ _)).stop source =
      Lexeme.joined (first :: more) := by
  have hwritten : Lexeme.writtenAll (front ++ first :: more) =
      Lexeme.writtenAll front ++ first.gap ++ Lexeme.joined (first :: more) := by
    rw [Lexeme.writtenAll_append, Lexeme.writtenAll_cons, List.append_assoc]
  have hsource : source = Lexeme.writtenAll front ++ first.gap ++
      (Lexeme.joined (first :: more) ++ (Lexeme.writtenAll behind ++ (lex source).2)) := by
    have hall := flatten_written_lex source
    rw [← Lexeme.writtenAll, h, Lexeme.writtenAll_append, hwritten] at hall
    simpa only [List.append_assoc] using hall.symm
  have hstart : first.start = Text.byteLength (Lexeme.writtenAll front ++ first.gap) := by
    rw [List.append_assoc] at h
    exact (Lexeme.source_of_lex h).2
  have hstop : ((first :: more).getLast (List.cons_ne_nil _ _)).stop =
      Text.byteLength (Lexeme.writtenAll front ++ first.gap ++ Lexeme.joined (first :: more)) := by
    have hlast := List.dropLast_append_getLast (List.cons_ne_nil first more)
    have hend : (lex source).1 = front ++ (first :: more).dropLast ++
        (first :: more).getLast (List.cons_ne_nil _ _) :: behind := by
      rw [h, ← List.singleton_append (l := behind), ← List.append_assoc, List.append_assoc front _ [_],
        hlast]
    rw [Positional.Comments.stop_of_lex hend, List.append_assoc, hlast, hwritten]
  rw [hstart, hstop]
  conv_lhs => rw [hsource]
  exact Text.slice_append ..

variable {documented : Documented} {source : List Char}

/-- The comment of a declaration stands before it. -/
theorem IsIn.stop_le (h : documented.IsIn source) : documented.stop ≤ documented.cursor.extent := by
  rcases h.run with ⟨-, -, hstop⟩ | ⟨front, first, more, next, behind, hlexed, -, hstop, hnext, -, -⟩
  · exact Nat.le_of_eq hstop
  · have hordered := (lex_spec source).1
    rw [hlexed, List.pairwise_append] at hordered
    rw [hstop, ← hnext]
    exact hordered.2.2 _ (List.mem_append_right _ (List.getLast_mem _)) next List.mem_cons_self

/-- What is no comment and begins before a declaration begins before its comment. -/
theorem IsIn.lt_start (h : documented.IsIn source) {x : Lexeme} (hx : x ∈ (lex source).1)
    (hcode : x.isComment = false) (hlt : x.start < documented.cursor.extent) :
    x.start < documented.start := by
  rcases h.run with ⟨-, hstart, -⟩ |
    ⟨front, first, more, next, behind, hlexed, hstart, -, hnext, -, hdocumentation⟩
  · rwa [hstart]
  · have hordered := start_lt_of_lex source
    rw [hlexed] at hx hordered
    rw [List.append_assoc] at hordered
    rcases List.mem_append.1 hx with hx | hx
    · rcases List.mem_append.1 hx with hx | hx
      · rw [hstart]
        exact (List.pairwise_append.1 hordered).2.2 x hx first List.mem_cons_self
      · rw [(hdocumentation.comments x hx).1] at hcode
        cases hcode
    · exfalso
      have hbehind := (List.pairwise_append.1 (List.pairwise_append.1 hordered).2.1).2.1
      rcases List.mem_cons.1 hx with rfl | hx
      · omega
      · have := (List.pairwise_cons.1 hbehind).1 x hx
        omega

/-- An entity has its comment in the source if its declaration begins at a lexeme of code. -/
theorem exists_isIn {path : String} {entity : Entity} {cursor : Cursor}
    (htells : entity.TellsOf (.ofText path source) cursor) {x : Lexeme} (hx : x ∈ (lex source).1)
    (hcode : x.isComment = false) (hextent : x.start = cursor.extent) :
    ∃ start stop, IsIn ⟨entity, cursor, start, stop⟩ source := by
  obtain ⟨before, behind, hsplit⟩ := List.append_of_mem hx
  have hcomment : entity.rawComment = (SourceFile.ofText path source).commentBefore x.start := by
    rw [htells.rawComment, hextent]
  rcases SourceFile.commentBefore_start hsplit with hnone |
    ⟨front, first, more, rfl, hdocumentation, htext⟩
  · refine ⟨cursor.extent, cursor.extent, ?_, .inl ⟨hcomment.trans hnone, rfl, rfl⟩⟩
    show entity.rawComment = Text.slice cursor.extent cursor.extent source
    rw [hcomment, hnone, Text.slice, Nat.sub_self]
    cases Text.dropBytes cursor.extent source <;> rfl
  · refine ⟨first.start, _, ?_, .inr ⟨front, first, more, x, behind, hsplit, rfl, rfl, hextent, hcode,
      hdocumentation⟩⟩
    exact hcomment.trans (htext.trans (slice_joined hsplit).symm)

/-- Entities can be listed with their comments if their declarations begin at lexemes of code. -/
theorem exists_of_forall₂ {path : String} {entities : List Entity} {cursors : List Cursor}
    (h : List.Forall₂ (fun entity cursor => entity.TellsOf (.ofText path source) cursor) entities
      cursors)
    (hlexed : ∀ cursor ∈ cursors,
      ∃ x ∈ (lex source).1, x.isComment = false ∧ x.start = cursor.extent) :
    ∃ all : List Documented, all.map Documented.entity = entities ∧
      all.map Documented.cursor = cursors ∧
      ∀ documented ∈ all, documented.entity.TellsOf (.ofText path source) documented.cursor ∧
        documented.IsIn source := by
  induction h with
  | nil => exact ⟨[], rfl, rfl, fun _ hd => by cases hd⟩
  | @cons entity cursor entities cursors htells _ ih =>
    obtain ⟨all, hentities, hcursors, hin⟩ := ih fun c hc => hlexed c (List.mem_cons_of_mem _ hc)
    obtain ⟨x, hx, hcode, hextent⟩ := hlexed cursor List.mem_cons_self
    obtain ⟨start, stop, hfirst⟩ := exists_isIn htells hx hcode hextent
    refine ⟨⟨entity, cursor, start, stop⟩ :: all, congrArg (entity :: ·) hentities,
      congrArg (cursor :: ·) hcursors, fun documented hd => ?_⟩
    rcases List.mem_cons.1 hd with rfl | hd
    · exact ⟨htells, hfirst⟩
    · exact hin documented hd

/-- The comments of declarations of which one begins behind the other do not overlap: the code that
the first one begins with stands between them. -/
theorem IsIn.stop_le_start {other : Documented} (h : documented.IsIn source)
    (hother : other.IsIn source) {x : Lexeme} (hx : x ∈ (lex source).1)
    (hcode : x.isComment = false) (hextent : x.start = documented.cursor.extent)
    (hlt : documented.cursor.extent < other.cursor.extent) : documented.stop ≤ other.start := by
  have hbefore := h.stop_le
  have hbehind := hother.lt_start hx hcode (hextent ▸ hlt)
  omega

end Documented

namespace FrontEnd

/-- The entities of a source have their comments in it: each is a run of documentation comments right
before its declaration, and no two overlap. -/
theorem comments_scanner {arguments : List String} {path : String} {source : List Char}
    {unit : TranslationUnit} (h : scanner.translate arguments path source = .ok unit) :
    let file := SourceFile.ofText path source
    ∃ all : List Documented,
      all.map Documented.entity = (unit.steps file).filterMap (·.2) ∧
      all.map Documented.cursor =
        (Cursor.preorderAll unit.cursors).filter (!·.isUnnamedEnum) ∧
      (∀ documented ∈ all, documented.entity.TellsOf file documented.cursor ∧
        documented.IsIn source) ∧
      all.Pairwise fun a b => a.stop ≤ b.start := by
  intro file
  have hcursors : unit.cursors = (Declaration.scanText source).cursors := by
    rw [eq_of_translate_scanner h]
  obtain ⟨hbegins, hascending⟩ := ascending_scanner h
  have htells := tellsOf_scanner h
  have hlexed : ∀ cursor ∈ (Cursor.preorderAll unit.cursors).filter (!·.isUnnamedEnum),
      ∃ x ∈ (lex source).1, x.isComment = false ∧ x.start = cursor.extent := by
    intro cursor hc
    rw [hcursors] at hc
    exact Declaration.exists_lexeme_of_scanText (List.mem_of_mem_filter hc)
  obtain ⟨all, hentities, hdeclared, hin⟩ := Documented.exists_of_forall₂ htells hlexed
  refine ⟨all, hentities, hdeclared, hin, ?_⟩
  have hextents : ((Cursor.preorderAll unit.cursors).filter (!·.isUnnamedEnum)).Pairwise
      fun a b => a.extent < b.extent := by
    refine (hascending.imp_of_mem fun ha _ hlt => ?_).sublist List.filter_sublist
    exact Nat.lt_of_le_of_lt (hbegins _ ha) hlt
  rw [← hdeclared] at hextents hlexed
  refine (List.pairwise_map.1 hextents).imp_of_mem fun {a b} ha hb hlt => ?_
  obtain ⟨x, hx, hcode, hextent⟩ := hlexed a.cursor (List.mem_map_of_mem ha)
  exact (hin a ha).2.stop_le_start (hin b hb).2 hx hcode hextent hlt

/-- Comments on two lines before two variables, and a block comment behind a group marker. -/
def documentedHeader : List Char :=
  "/// One\n/// two\nint x, y;\n@interface C\n/// @name G\n/** Three */\n- (void)m;\n@end".toList

theorem comments_scanner_documentedHeader :
    let file := SourceFile.ofText "C.h" documentedHeader
    ∃ unit, scanner.translate [] "C.h" documentedHeader = .ok unit ∧
      ((unit.steps file).filterMap (·.2)).map (fun entity =>
          (entity.name, String.ofList entity.rawComment)) =
        [("x", "/// One\n/// two"), ("y", ""), ("C", ""), ("m", "/** Three */")] ∧
      ∃ all : List Documented,
        all.map Documented.entity = (unit.steps file).filterMap (·.2) ∧
        all.Pairwise fun a b => a.stop ≤ b.start := by
  have hpath : (Language.ofPath? "C.h").isSome = true := by decide +kernel
  have hsource : '\x00' ∉ documentedHeader := by decide
  have hunit := Extraction.translate_scanner hpath hsource []
  obtain ⟨all, hentities, -, -, hapart⟩ := comments_scanner hunit
  refine ⟨_, hunit, ?_, all, hentities, hapart⟩
  decide +kernel

end FrontEnd

end DeclDoc
