import DeclDoc.Comment.Draft
import DeclDoc.Declaration.Code
import DeclDoc.Proofs.Words
import DeclDoc.SourceFile
import Mathlib.Data.List.Basic

/-!
# Lexemes in their order

Lexemes stand one behind the other and none is empty (`lex_spec`), so code tokens begin in ascending
order (`Code.Ascending.ofLexemes`). A comment that another lexeme follows is closed
(`isClosed_of_lex`), so the comment before a declaration can always be read
(`body_commentBefore`).
-/

set_option autoImplicit false

namespace DeclDoc

/-! ## Order -/

/-- Lexemes of a text stand behind its offset and one behind the other; none is empty. -/
theorem lexFrom_spec (offset : Nat) (s : List Char) :
    (lexFrom offset s).1.Pairwise (fun a b => a.stop ≤ b.start) ∧
      ∀ x ∈ (lexFrom offset s).1, offset ≤ x.start ∧ x.text ≠ [] := by
  fun_induction lexFrom offset s with
  | case1 => exact ⟨List.Pairwise.nil, fun _ h => by cases h⟩
  | case2 offset s gap c rest h start extent text after ih =>
    obtain ⟨hordered, hall⟩ := ih
    refine ⟨List.pairwise_cons.2 ⟨fun x hx => (hall x hx).1, hordered⟩, ?_⟩
    intro x hx
    rcases List.mem_cons.1 hx with rfl | hx
    · exact ⟨Nat.le_add_right _ _, List.cons_ne_nil _ _⟩
    · obtain ⟨hle, hne⟩ := hall x hx
      refine ⟨?_, hne⟩
      omega

theorem lex_spec (source : List Char) :
    (lex source).1.Pairwise (fun a b => a.stop ≤ b.start) ∧ ∀ x ∈ (lex source).1, x.text ≠ [] :=
  ⟨(lexFrom_spec 0 source).1, fun x hx => ((lexFrom_spec 0 source).2 x hx).2⟩

theorem Text.byteLength_pos {s : List Char} (h : s ≠ []) : 0 < byteLength s := by
  have := length_le_byteLength s
  have := List.length_pos_iff.2 h
  omega

theorem start_lt_of_lex (source : List Char) :
    (lex source).1.Pairwise fun a b => a.start < b.start := by
  obtain ⟨hordered, hne⟩ := lex_spec source
  apply hordered.imp_of_mem
  intro a b ha _ hab
  have := Text.byteLength_pos (hne _ ha)
  unfold Lexeme.stop at hab
  omega

/-- The lexemes that begin before one are those that stand before it. -/
theorem takeWhile_start_lt {source : List Char} {before behind : List Lexeme} {x : Lexeme}
    (h : (lex source).1 = before ++ x :: behind) :
    (lex source).1.takeWhile (·.start < x.start) = before := by
  have hordered := start_lt_of_lex source
  rw [h, List.pairwise_append] at hordered
  rw [h, List.takeWhile_append_of_pos fun y hy => by
    simpa using hordered.2.2 y hy x List.mem_cons_self]
  simp

/-- Lexemes end within the text. -/
theorem stop_le_of_lexFrom {offset : Nat} {s : List Char} {x : Lexeme}
    (h : x ∈ (lexFrom offset s).1) : x.stop ≤ offset + Text.byteLength s := by
  fun_induction lexFrom offset s with
  | case1 => cases h
  | case2 offset s gap c rest hs start extent text after ih =>
    have hgap := congrArg Text.byteLength
      (List.takeWhile_append_dropWhile (p := Lexer.isSpace) (l := s))
    have htext := congrArg Text.byteLength (List.take_append_drop extent.more rest)
    rw [hs] at hgap
    simp only [Text.byteLength_append, Text.byteLength_cons] at hgap htext
    have hstop : start + Text.byteLength text + Text.byteLength (rest.drop extent.more) =
        offset + Text.byteLength s := by
      show offset + Text.byteLength (s.takeWhile Lexer.isSpace) +
        (c.utf8Size + Text.byteLength (rest.take extent.more)) + _ = _
      omega
    rcases List.mem_cons.1 h with rfl | h
    · show start + Text.byteLength text ≤ _
      omega
    · exact Nat.le_trans (ih h) (Nat.le_of_eq hstop)

/-! ## Code tokens -/

namespace Code

/-- Tokens stand one behind the other, and none is empty. -/
structure Ascending (code : Code) : Prop where
  apart : code.Pairwise fun t u => t.start + Text.byteLength t.text ≤ u.start
  nonempty : ∀ t ∈ code, t.text ≠ []

/-- The code tokens are some of the lexemes that are no comments. -/
theorem sublist_ofLexemesAfter (lead : List Char) (commented : Bool) (lexemes : List Lexeme) :
    ((ofLexemesAfter lead commented lexemes).map fun t => (some t.token, t.start, t.text)).Sublist
      ((lexemes.filter (!·.isComment)).map fun x => (x.token, x.start, x.text)) := by
  induction lexemes generalizing lead commented with
  | nil => exact List.Sublist.refl _
  | cons lexeme rest ih =>
    rw [ofLexemesAfter, List.filter_cons, Lexeme.isComment]
    cases ht : lexeme.token with
    | none => exact (ih _ _).cons _
    | some token =>
      rw [Option.any_some]
      dsimp only
      cases token.isComment with
      | true => exact ih _ _
      | false =>
        rw [if_neg Bool.false_ne_true, Bool.not_false, if_pos rfl, List.map_cons, List.map_cons, ht]
        exact (ih _ _).cons_cons _

/-- Every code token is a lexeme that is no comment. -/
theorem exists_lexeme {lexemes : List Lexeme} {t : CodeToken} (h : t ∈ ofLexemes lexemes) :
    ∃ x ∈ lexemes, x.isComment = false ∧ x.token = some t.token ∧ x.start = t.start ∧
      x.text = t.text := by
  have hsub := sublist_ofLexemesAfter [] false lexemes
  obtain ⟨x, hx, heq⟩ := List.mem_map.1 (hsub.subset (List.mem_map_of_mem h))
  obtain ⟨hx, hcode⟩ := List.mem_filter.1 hx
  simp only [Prod.mk.injEq] at heq
  exact ⟨x, hx, by simpa using hcode, heq⟩

/-- The code of lexemes and of any others behind them. -/
theorem exists_ofLexemesAfter_append (before : List Lexeme) (lead : List Char) (commented : Bool) :
    ∃ front, ∀ behind, ofLexemesAfter lead commented (before ++ behind) =
      ofLexemesAfter lead commented before ++
        ofLexemesAfter front (before.getLast?.elim commented Lexeme.isComment) behind := by
  induction before generalizing lead commented with
  | nil => exact ⟨lead, fun _ => rfl⟩
  | cons x before ih =>
    -- what `x` is goes on in `commented`, for the case that nothing stands behind it
    have hlast : (x :: before).getLast?.elim commented Lexeme.isComment =
        before.getLast?.elim x.isComment Lexeme.isComment := by
      rw [List.getLast?_cons]
      cases before.getLast? <;> rfl
    simp only [hlast, Lexeme.isComment, List.cons_append, ofLexemesAfter]
    cases x.token with
    | none => exact ih _ false
    | some token =>
      rw [Option.any_some]
      dsimp only
      cases token.isComment with
      | true => exact ih _ true
      | false =>
        obtain ⟨front, hfront⟩ := ih [] false
        exact ⟨front, fun behind => congrArg (_ :: ·) (hfront behind)⟩

theorem Ascending.ofLexemes (source : List Char) : Ascending (ofLexemes (lex source).1) := by
  obtain ⟨hordered, hne⟩ := lex_spec source
  have hsub := (sublist_ofLexemesAfter [] false (lex source).1).trans (List.filter_sublist.map _)
  constructor
  · have h := List.pairwise_map (f := fun x : Lexeme => (x.token, x.start, x.text))
      (R := fun a b => a.2.1 + Text.byteLength a.2.2 ≤ b.2.1) |>.2 hordered
    exact List.pairwise_map.1 (h.sublist hsub)
  · intro t ht
    obtain ⟨x, hx, -, -, -, htext⟩ := exists_lexeme ht
    exact htext ▸ hne x hx

/-- Every code token ends within the text. -/
theorem stop_le_of_ofLexemes {source : List Char} {t : CodeToken}
    (h : t ∈ ofLexemes (lex source).1) :
    t.start + Text.byteLength t.text ≤ Text.byteLength source := by
  obtain ⟨x, hx, -, -, hstart, htext⟩ := exists_lexeme h
  have hstop : x.stop ≤ 0 + Text.byteLength source := stop_le_of_lexFrom hx
  rw [← hstart, ← htext]
  unfold Lexeme.stop at hstop
  omega

theorem Ascending.sublist {code rest : Code} (h : Ascending code) (hs : rest.Sublist code) :
    Ascending rest :=
  ⟨h.apart.sublist hs, fun t ht => h.nonempty t (hs.subset ht)⟩

theorem Ascending.left {front back : Code} (h : Ascending (front ++ back)) : Ascending front :=
  h.sublist (List.sublist_append_left ..)

theorem Ascending.right {front back : Code} (h : Ascending (front ++ back)) : Ascending back :=
  h.sublist (List.sublist_append_right ..)

/-- Code begins at or before each of its tokens. -/
theorem Ascending.start_le {code : Code} (h : Ascending code) {t : CodeToken} (ht : t ∈ code) :
    code.start ≤ t.start := by
  cases code with
  | nil => cases ht
  | cons first rest =>
    rcases List.mem_cons.1 ht with rfl | ht
    · exact Nat.le_refl _
    · exact Nat.le_trans (Nat.le_add_right _ _) ((List.pairwise_cons.1 h.apart).1 t ht)

end Code

/-! ## Closed comments -/

/-- A block comment has its closing mark behind its opening one. -/
def Lexeme.IsClosed (x : Lexeme) : Prop :=
  ∀ body, x.text = '/' :: '*' :: body → ∃ inside, body = inside ++ ['*', '/']

theorem Lexer.take_blockCommentTail {body : List Char}
    (h : body.drop (blockCommentTail body) ≠ []) :
    ∃ inside, body.take (blockCommentTail body) = inside ++ ['*', '/'] := by
  fun_induction blockCommentTail body with
  | case1 => cases h rfl
  | case2 rest => exact ⟨[], rfl⟩
  | case3 c rest _ ih =>
    rw [List.drop_succ_cons] at h
    obtain ⟨inside, hinside⟩ := ih h
    exact ⟨c :: inside, by rw [List.take_succ_cons, hinside]; rfl⟩

/-- A comment that is not closed reaches to the end of the text. -/
theorem isClosed_of_lexFrom {offset : Nat} {s : List Char} {before behind : List Lexeme}
    {x y : Lexeme} (h : (lexFrom offset s).1 = before ++ x :: y :: behind) : x.IsClosed := by
  fun_induction lexFrom offset s generalizing before with
  | case1 => simp at h
  | case2 offset s gap c rest hs start extent text after =>
    rename_i ih
    cases before with
    | cons first before =>
      rw [List.cons_append] at h
      exact ih (List.cons.inj h).2
    | nil =>
      obtain ⟨rfl, hafter⟩ := List.cons.inj h
      have hrest : rest.drop extent.more ≠ [] := by
        intro hnil
        have : after.1 = [] := by
          show (lexFrom _ (rest.drop extent.more)).1 = []
          rw [hnil, lexFrom]
          rfl
        rw [this] at hafter
        cases hafter
      intro body hbody
      obtain ⟨rfl, hbody⟩ := List.cons.inj hbody
      cases rest with
      | nil => simp at hbody
      | cons d rest =>
        have hd : d = '*' := by
          cases hm : extent.more with
          | zero => simp [hm] at hbody
          | succ n => rw [hm, List.take_succ_cons] at hbody; exact (List.cons.inj hbody).1
        subst hd
        have hmore : extent.more = Lexer.blockCommentTail rest + 1 := rfl
        rw [hmore, List.take_succ_cons] at hbody
        rw [hmore, List.drop_succ_cons] at hrest
        rw [← (List.cons.inj hbody).2]
        exact Lexer.take_blockCommentTail hrest

theorem isClosed_of_lex {source : List Char} {before behind : List Lexeme} {x y : Lexeme}
    (h : (lex source).1 = before ++ x :: y :: behind) : x.IsClosed := isClosed_of_lexFrom h

/-! ## Comments before declarations -/

namespace Comment

theorem body_nil : ∀ e, body [] ≠ .error e := by
  intro e he
  exact absurd (body_eq_error_iff.1 he).1 (by decide)

/-- A closed block has a body. -/
theorem body_of_block (inside : List Char) :
    ∀ e, body ('/' :: '*' :: (inside ++ ['*', '/'])) ≠ .error e := by
  intro e he
  have htrim : Text.trim ('/' :: '*' :: (inside ++ ['*', '/'])) =
      '/' :: '*' :: (inside ++ ['*', '/']) := by
    have hassoc : '/' :: '*' :: (inside ++ ['*', '/']) =
        ('/' :: '*' :: (inside ++ ['*'])) ++ ['/'] := by simp
    rw [Text.trim, Text.trimStart_cons (by decide), hassoc,
      Text.trimEnd_append_singleton (by decide)]
  rw [body_eq_error_iff, htrim] at he
  have hends : Text.endsWith closer ('/' :: '*' :: (inside ++ ['*', '/'])) = true := by
    rw [Text.endsWith, Option.isSome_iff_exists]
    exact ⟨'/' :: '*' :: inside, Text.beforeSuffix?_eq_some_iff.2 rfl⟩
  rcases he.2 with h | h
  · rw [hends] at h; cases h
  · simp only [List.length_cons, List.length_append, List.length_nil] at h
    omega

/-- Line comments have a body. -/
theorem body_of_line (rest : List Char) : ∀ e, body ('/' :: '/' :: rest) ≠ .error e := by
  intro e he
  have htrim : Text.trim ('/' :: '/' :: rest) = '/' :: '/' :: Text.trimEnd rest := by
    rw [Text.trim, Text.trimStart_cons (by decide), Text.trimEnd_cons (by decide),
      Text.trimEnd_cons (by decide)]
  rw [body_eq_error_iff, htrim] at he
  have hstarts := he.1
  simp [Text.startsWith, opener, Text.afterPrefix?] at hstarts

end Comment

namespace DocStyle

/-- The character behind the first slash of a comment. -/
def mark : DocStyle → Char
  | .block => '*'
  | .line => '/'

/-- How a documentation comment of each style begins. -/
theorem begins_of_ofText? {text : List Char} {style : DocStyle} (h : ofText? text = some style) :
    ∃ rest, text = '/' :: style.mark :: rest := by
  have hany : ∀ {c : Char} {x y : List Char} {rest : List Char},
      Text.afterAnyPrefix? ['/' :: c :: x, '/' :: c :: y] text = some rest →
        ∃ rest, text = '/' :: c :: rest := by
    intro c x y rest hrest
    simp only [Text.afterAnyPrefix?, List.findSome?_cons] at hrest
    split at hrest
    · next r hr => exact ⟨_, Text.afterPrefix?_eq_some_iff.1 hr⟩
    · split at hrest
      · next r hr => exact ⟨_, Text.afterPrefix?_eq_some_iff.1 hr⟩
      · cases hrest
  unfold ofText? at h
  split at h
  · next rest hrest =>
    split at h <;> cases h
    exact hany hrest
  · split at h
    · next rest hrest =>
      split at h <;> cases h
      exact hany hrest
    · cases h

end DocStyle

theorem Lexeme.begins_of_docStyle? {x : Lexeme} {style : DocStyle}
    (h : x.docStyle? = some style) : ∃ rest, x.text = '/' :: style.mark :: rest := by
  unfold docStyle? at h
  split at h
  · exact DocStyle.begins_of_ofText? h
  · cases h

namespace SourceFile

theorem joinLineComments_begins (first : Lexeme) (below : List Char) (earlier : List Lexeme)
    (h : ∃ rest, below = '/' :: '/' :: rest) :
    ∃ rest, joinLineComments first below earlier = '/' :: '/' :: rest := by
  induction earlier generalizing first below with
  | nil => exact h
  | cons previous more ih =>
    rw [joinLineComments]
    split
    · next hjoin =>
      obtain ⟨rest, hrest⟩ := Lexeme.begins_of_docStyle? hjoin.2.1
      exact ih previous _ ⟨rest ++ first.gap ++ below, by simp [hrest, DocStyle.mark]⟩
    · exact h

theorem lexemes_ofText (path : String) (text : List Char) :
    (ofText path text).lexemes = (lex text).1 := rfl

/-- The comment before a lexeme can be read. -/
theorem body_commentBefore {path : String} {source : List Char} {x : Lexeme}
    (hx : x ∈ (lex source).1) :
    ∀ e, Comment.body ((ofText path source).commentBefore x.start) ≠ .error e := by
  obtain ⟨before, behind, hsplit⟩ := List.append_of_mem hx
  intro e
  unfold commentBefore
  rw [lexemes_ofText, takeWhile_start_lt hsplit]
  cases hr : before.reverse with
  | nil => exact Comment.body_nil e
  | cons last earlier =>
    have hlast : before = earlier.reverse ++ [last] := by
      rw [← List.reverse_reverse before, hr, List.reverse_cons]
    have hlexed : (lex source).1 = earlier.reverse ++ last :: x :: behind := by
      rw [hsplit, hlast, List.append_assoc]
      rfl
    have hclosed := isClosed_of_lex hlexed
    dsimp only
    split
    · exact Comment.body_nil e
    split
    · exact Comment.body_nil e
    · next hstyle =>
      obtain ⟨rest, hrest⟩ := Lexeme.begins_of_docStyle? hstyle
      obtain ⟨inside, rfl⟩ := hclosed rest hrest
      rw [hrest]
      exact Comment.body_of_block inside e
    · next hstyle =>
      obtain ⟨rest, hrest⟩ := joinLineComments_begins last last.text earlier
        (Lexeme.begins_of_docStyle? hstyle)
      rw [hrest]
      exact Comment.body_of_line rest e

end SourceFile

end DeclDoc
