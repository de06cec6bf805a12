import DeclDoc.Proofs.Depth
import DeclDoc.Proofs.LineBreaks
import DeclDoc.Proofs.Leads

/-!
# Resynchronization behind what is not understood

Code without braces, `@`-keywords and directives is read declaration by declaration, up to a head that
no semicolon ends (`exists_last_head`). That head is given up at the next `@`-keyword or directive,
if there is no bracket open in it (`scan_interrupted`). An open bracket takes the keyword into the
head, and the container that it begins is lost. So a class or protocol below such text is found just
when the text closes its brackets (`scanText_below`).
-/

set_option autoImplicit false

namespace DeclDoc

namespace Declaration

open Nesting (arguments)
open Cursor (isContainerKind)

variable {code head junk last rest : Code} {t : CodeToken}

/-! ## Heads that no semicolon ends -/

theorem Outcome.after_after (outcome : Outcome) (xs ys : List Cursor) (as bs : List Remark) :
    (outcome.after ys bs).after xs as = outcome.after (xs ++ ys) (as ++ bs) := by
  simp [after]

/-- What is behind the semicolon is not looked at. -/
theorem readPlain_terminated (hspan : (spanHead code).2 = t :: rest) (ht : t.token = .semicolon)
    (back : Code) :
    readPlain (code ++ back) = (terminated (restart (spanHead code).1), rest ++ back) := by
  have hlonger : spanHead (code ++ back) = ((spanHead code).1, t :: (rest ++ back)) :=
    spanTop_append_of_stop hspan back
  unfold readPlain
  rw [hlonger]
  dsimp only
  rw [ht]

theorem readPlain_suffix_spanHead (code : Code) : (readPlain code).2 <:+ (spanHead code).2 := by
  unfold readPlain
  dsimp only
  split
  · exact List.nil_suffix
  · next t rest ht =>
    rw [ht]
    split
    · exact List.suffix_cons t rest
    · exact (braced_suffix ..).trans (List.suffix_cons t rest)
    · split
      · exact List.suffix_cons t rest
      · exact List.suffix_rfl

/-- The tokens besides semicolons at which a head may end. -/
def interrupting : List Token := [.openBrace, .closeBrace, .atKeyword, .directive]

theorem eq_semicolon_of_endsHead {token : Token} (hends : endsHead token = true)
    (h : token ∉ interrupting) : token = .semicolon := by
  cases token <;> first | rfl | exact (h (by decide)).elim | cases hends

/-- What is left of `junk` behind the declarations in it that semicolons end: a head without one. -/
structure IsLastHead (junk last : Code) : Prop where
  suffix : last <:+ junk
  span : spanHead last = (last, [])
  depth : arguments.depthOver 0 last = arguments.depthOver 0 junk
  read : ∀ rest, scan (junk ++ rest) =
    (scan (last ++ rest)).after (scan junk).cursors (scan junk).remarks

namespace IsLastHead

variable {front back : Code}

theorem self (hspan : spanHead junk = (junk, [])) (hscan : scan junk = {}) :
    IsLastHead junk junk where
  suffix := List.suffix_rfl
  span := hspan
  depth := rfl
  read rest := by
    rw [hscan]
    rfl

/-- A declaration in front is read first. Brackets are counted anew behind its semicolon. -/
theorem behind (h : IsLastHead back last) (hdepth : arguments.depthOver 0 front = 0)
    (cursors : List Cursor)
    (hfront : ∀ rest, scan (front ++ (back ++ rest)) = (scan (back ++ rest)).after cursors []) :
    IsLastHead (front ++ back) last where
  suffix := h.suffix.trans (List.suffix_append front back)
  span := h.span
  depth := by rw [h.depth, Nesting.depthOver_append, hdepth]
  read rest := by
    have halone := hfront []
    rw [List.append_nil] at halone
    rw [List.append_assoc, hfront, halone, h.read, Outcome.after_after]
    rfl

end IsLastHead

/-- Code in which only semicolons end heads is read declaration by declaration, up to a head without
one. -/
theorem exists_last_head (hjunk : ∀ u ∈ junk, u.token ∉ interrupting) :
    ∃ last, IsLastHead junk last := by
  induction junk using scan_induction with
  | nil => exact ⟨[], .self rfl scan_nil⟩
  | directive u _ hu | atKeyword u _ hu =>
    exact absurd (by rw [hu]; decide) (hjunk u List.mem_cons_self)
  | separator u more hu ih =>
    obtain ⟨hfirst, hmore⟩ := List.forall_mem_cons.1 hjunk
    obtain ⟨last, hlast⟩ := ih hmore
    have hsemicolon : u.token = .semicolon :=
      hu.resolve_right fun hclose => hfirst (by rw [hclose]; decide)
    have hdepth : arguments.depthOver 0 [u] = 0 := by
      rw [Nesting.depthOver, List.foldl_cons, List.foldl_nil, hsemicolon]
      rfl
    exact ⟨last, hlast.behind hdepth [] fun rest => scan_separator hu (more ++ rest)⟩
  | plain u more hu ih =>
    have hsplit : (spanHead (u :: more)).1 ++ (spanHead (u :: more)).2 = u :: more :=
      spanTop_append ..
    cases hspan : (spanHead (u :: more)).2 with
    | nil =>
      rw [hspan, List.append_nil] at hsplit
      have hread : readPlain (u :: more) = ([], []) := by
        unfold readPlain
        dsimp only
        rw [hspan]
      have hscan : scan (u :: more) = {} := by
        rw [scan_readPlain hu, hread, scan_nil]
        rfl
      exact ⟨u :: more, .self (Prod.ext hsplit hspan) hscan⟩
    | cons s back =>
      rw [hspan] at hsplit
      have hs : s.token = .semicolon :=
        eq_semicolon_of_endsHead (stop_of_spanTop hspan) (hjunk s (by rw [← hsplit]; simp))
      have hplain := readPlain_terminated hspan hs
      have hback : (readPlain (u :: more)).2 = back := by
        simpa using congrArg Prod.snd (hplain [])
      rw [hback] at ih
      obtain ⟨last, hlast⟩ := ih fun v hv => hjunk v (by rw [← hsplit]; simp [hv])
      have hhead : arguments.depthOver 0 (spanHead (u :: more)).1 = 0 := depthOver_of_spanTop hspan
      have hzero : arguments.depthOver 0 ((spanHead (u :: more)).1 ++ [s]) = 0 := by
        rw [Nesting.depthOver_append, hhead, Nesting.depthOver, List.foldl_cons, List.foldl_nil, hs]
        rfl
      have hcode : (spanHead (u :: more)).1 ++ [s] ++ back = u :: more := by
        rw [List.append_assoc]
        exact hsplit
      have hfront (rest : Code) : scan ((spanHead (u :: more)).1 ++ [s] ++ (back ++ rest)) =
          (scan (back ++ rest)).after (terminated (restart (spanHead (u :: more)).1)) [] := by
        rw [← List.append_assoc, hcode, List.cons_append, scan_readPlain hu, ← List.cons_append,
          hplain rest]
      exact ⟨last, hcode ▸ hlast.behind hzero _ hfront⟩

/-! ## What follows a head that no semicolon ends -/

/-- A head without a semicolon, if it is not empty, begins a plain declaration. -/
theorem exists_first (hlast : ∀ u ∈ last, u.token ∉ interrupting)
    (hspan : spanHead last = (last, [])) (hne : last ≠ []) :
    ∃ u more, last = u :: more ∧
      u.token ∉ [Token.directive, .atKeyword, .semicolon, .closeBrace] := by
  obtain ⟨u, more, rfl⟩ := List.exists_cons_of_ne_nil hne
  have hu := hlast u List.mem_cons_self
  have hsemicolon : u.token ≠ .semicolon := by
    intro hsemicolon
    rw [spanHead, spanTop_stop (by rw [hsemicolon]; rfl)] at hspan
    cases hspan
  simp only [interrupting, List.mem_cons, List.not_mem_nil, or_false, not_or] at hu
  exact ⟨u, more, rfl, by simp [hu, hsemicolon]⟩

/-- A head without an open bracket is given up where a directive or an `@`-keyword begins. -/
theorem scan_interrupted (hlast : ∀ u ∈ last, u.token ∉ interrupting)
    (hspan : spanHead last = (last, [])) (hdepth : arguments.depthOver 0 last = 0)
    (ht : t.token = .atKeyword ∨ t.token = .directive) (rest : Code) :
    scan (last ++ t :: rest) = scan (t :: rest) := by
  by_cases hne : last = []
  · rw [hne, List.nil_append]
  have hends : endsHead t.token = true := by rcases ht with ht | ht <;> rw [ht] <;> rfl
  have hlonger : spanHead (last ++ t :: rest) = (last, t :: rest) := by
    rw [spanHead, spanTop_append_of_nil (congrArg Prod.snd hspan), hdepth, spanTop_stop hends,
      List.append_nil]
  have hread := readPlain_interrupted hlonger hne ht
  obtain ⟨u, more, rfl, hu⟩ := exists_first hlast hspan hne
  rw [List.cons_append] at hread ⊢
  rw [scan_readPlain hu, hread]
  rfl

/-- A head without an open bracket ends with the next semicolon. -/
theorem exists_scan_terminated (hlast : ∀ u ∈ last, u.token ∉ interrupting)
    (hspan : spanHead last = (last, [])) (hdepth : arguments.depthOver 0 last = 0)
    (ht : t.token = .semicolon) :
    ∃ cursors, ∀ rest, scan (last ++ t :: rest) = (scan rest).after cursors [] := by
  by_cases hne : last = []
  · refine ⟨[], fun rest => ?_⟩
    rw [hne, List.nil_append, scan_separator (.inl ht)]
    rfl
  have hends : endsHead t.token = true := by rw [ht]; rfl
  have hstop : (spanHead (last ++ [t])).2 = [t] := by
    rw [spanHead, spanTop_append_of_nil (congrArg Prod.snd hspan), hdepth, spanTop_stop hends]
  obtain ⟨u, more, hcons, hu⟩ := exists_first hlast hspan hne
  refine ⟨terminated (restart (spanHead (last ++ [t])).1), fun rest => ?_⟩
  have hread := readPlain_terminated hstop ht rest
  rw [List.append_assoc, List.nil_append, List.singleton_append, hcons] at hread
  rw [hcons, List.cons_append, scan_readPlain hu, ← List.cons_append, hread]

/-- A head with an open bracket takes the next token with it. -/
theorem readPlain_suffix_behind (hspan : spanHead last = (last, []))
    (hdepth : arguments.depthOver 0 last ≠ 0) (t : CodeToken) (rest : Code) :
    (readPlain (last ++ t :: rest)).2 <:+ rest := by
  refine (readPlain_suffix_spanHead _).trans ?_
  rw [spanHead, spanTop_append_of_nil (congrArg Prod.snd hspan), spanTop,
    if_neg fun hstop => hdepth hstop.1]
  exact spanTop_suffix ..

/-- The container that begins at a token is not found behind a head that takes this token with it. -/
theorem cursors_ne_container (hcode : Code.Ascending (last ++ t :: rest))
    (hlast : ∀ u ∈ last, u.token ∉ interrupting) (hspan : spanHead last = (last, []))
    (hdepth : arguments.depthOver 0 last ≠ 0) {container : Cursor}
    (hkind : isContainerKind container.kind = true) (hextent : container.extent = t.start)
    (more : List Cursor) : (scan (last ++ t :: rest)).cursors ≠ container :: more := by
  intro heq
  have hsuffix := readPlain_suffix_behind hspan hdepth t rest
  have hplain := reads_readPlain (last ++ t :: rest)
  obtain ⟨u, behind, hcons, hu⟩ := exists_first hlast hspan (by rintro rfl; exact hdepth rfl)
  have hscan : scan (last ++ t :: rest) =
      (scan (readPlain (last ++ t :: rest)).2).after (readPlain (last ++ t :: rest)).1 [] := by
    rw [hcons]
    exact scan_readPlain hu _
  rw [hscan] at heq
  generalize readPlain (last ++ t :: rest) = read at hsuffix hplain heq
  obtain ⟨cursors, left⟩ := read
  cases cursors with
  | cons cursor others =>
    obtain ⟨rfl, -⟩ := List.cons.inj heq
    obtain ⟨front, hfront, hlocated⟩ := hplain
    have hshape := (hlocated hcode).shape cursor List.mem_cons_self
    rw [hshape.not_isContainerKind] at hkind
    cases hkind
  | nil =>
    have hleft : left.Ascending :=
      (hcode.right.sublist (List.sublist_cons_self t rest)).sublist hsuffix.sublist
    obtain ⟨front, hfront, hlocated⟩ := reads_scan left
    rw [List.append_nil] at hfront
    subst hfront
    have hmem : container ∈ Cursor.preorderAll (scan front).cursors := by
      rw [show (scan front).cursors = container :: more from heq, Cursor.preorderAll_cons]
      exact List.mem_cons_self
    obtain ⟨v, hv, hstart⟩ := ((hlocated hleft).within container hmem).extent
    have hlater := (List.pairwise_cons.1 hcode.right.apart).1 v (hsuffix.subset hv)
    have hpos := Text.byteLength_pos (hcode.right.nonempty t List.mem_cons_self)
    omega

/-! ## Containers -/

/-- The code begins with a class or a protocol that is declared and not only named. -/
def BeginsContainer (code : Code) : Prop :=
  match code with
  | keyword :: name :: rest =>
    name.token = .ident ∧ (IsAt "@interface" keyword ∨ IsAt "@protocol" keyword ∧
      Code.nextIs rest .semicolon = false ∧ Code.nextIs rest .comma = false)
  | _ => False

instance (code : Code) : Decidable (BeginsContainer code) :=
  match code with
  | _ :: _ :: _ => inferInstanceAs (Decidable (_ ∧ _))
  | [_] | [] => inferInstanceAs (Decidable False)

theorem BeginsContainer.exists_cursor (h : BeginsContainer code) :
    ∃ keyword rest container more, code = keyword :: rest ∧ keyword.token = .atKeyword ∧
      (scan code).cursors = container :: more ∧ isContainerKind container.kind = true ∧
      container.extent = keyword.start := by
  obtain ⟨keyword, name, rest, rfl⟩ : ∃ keyword name rest, code = keyword :: name :: rest := by
    match code, h with
    | keyword :: name :: rest, _ => exact ⟨keyword, name, rest, rfl⟩
  obtain ⟨hname, hkeyword⟩ := h
  have hat : keyword.token = .atKeyword := by
    rcases hkeyword with hkeyword | ⟨hkeyword, -⟩
    · exact hkeyword.1
    · exact hkeyword.1
  obtain ⟨container, hread, hkind, hextent⟩ : ∃ container,
      (readAtKeyword keyword (name :: rest)).cursors = [container] ∧
        isContainerKind container.kind = true ∧ container.extent = keyword.start := by
    rcases hkeyword with hkeyword | ⟨hkeyword, hsemicolon, hcomma⟩
    · rw [readAtKeyword_interface hkeyword hname]
      exact ⟨_, rfl, (shape_readHead false keyword.start name rest (List.forall_mem_nil _)).kind,
        (fixed_readHead false keyword.start name rest).1⟩
    · simp only [readAtKeyword, hkeyword.2, readProtocol, if_pos hname, hsemicolon, hcomma,
        Bool.or_self, Bool.false_eq_true, if_false]
      exact ⟨_, rfl, rfl, rfl⟩
  refine ⟨keyword, name :: rest, container, (scan (readAtKeyword keyword (name :: rest)).rest).cursors,
    rfl, hat, ?_, hkind, hextent⟩
  rw [scan_atKeyword hat, Outcome.after, hread]
  rfl

/-! ## Texts -/

/-- The text is made of known tokens, and none of them is a comment, a directive, an `@`-keyword or a
brace. -/
def IsJunk (front : List Char) : Prop :=
  ∀ x ∈ (lex front).1, x.token ∉ [none, some .lineComment, some .blockComment, some .directive,
    some .atKeyword, some .openBrace, some .closeBrace]

instance (front : List Char) : Decidable (IsJunk front) := List.decidableBAll _ _

namespace IsJunk

variable {front : List Char}

theorem endsAtBreak (h : IsJunk front) : ∀ x ∈ (lex front).1, x.EndsAtBreak := by
  intro x hx
  have hout := h x hx
  simp only [List.mem_cons, List.not_mem_nil, or_false, not_or] at hout
  exact ⟨hout.2.2.2.1, fun hblock => absurd hblock hout.2.2.1⟩

theorem isComment_getLast? (h : IsJunk front) :
    (lex front).1.getLast?.elim false Lexeme.isComment = false := by
  cases hlast : (lex front).1.getLast? with
  | none => rfl
  | some x =>
    have hout := h x (List.mem_of_getLast? hlast)
    rw [Option.elim_some, Lexeme.isComment]
    generalize x.token = kind at hout ⊢
    rcases kind with _ | token
    · rfl
    · cases token <;> first | rfl | exact (hout (by decide)).elim

theorem forall_code (h : IsJunk front) :
    ∀ t ∈ Code.ofLexemes (lex front).1, t.token ∉ interrupting := by
  intro t ht
  obtain ⟨x, hx, -, hkind, -⟩ := Code.exists_lexeme ht
  have hout := h x hx
  rw [hkind] at hout
  simp only [interrupting, List.mem_cons, List.not_mem_nil, or_false, not_or, Option.some.injEq]
    at hout ⊢
  exact ⟨hout.2.2.2.2.2.1, hout.2.2.2.2.2.2, hout.2.2.2.2.1, hout.2.2.2.1⟩

end IsJunk

/-- How many parentheses and square brackets the text leaves open. -/
def openBrackets (front : List Char) : Nat :=
  arguments.depthOver 0 (Code.ofLexemes (lex front).1)

/-- A semicolon outside of brackets ends what is before it. -/
theorem scan_semicolon {skipped : Code} (hskipped : ∀ u ∈ skipped, u.token ∉ interrupting)
    (hdepth : arguments.depthOver 0 skipped = 0) (ht : t.token = .semicolon) (behind : Code) :
    scan (skipped ++ t :: behind) =
      (scan behind).after (scan (skipped ++ [t])).cursors (scan (skipped ++ [t])).remarks := by
  obtain ⟨last, hsuffix, hspan, hlastDepth, hread⟩ := exists_last_head hskipped
  obtain ⟨cursors, hscan⟩ := exists_scan_terminated
    (fun u hu => hskipped u (hsuffix.subset hu)) hspan (hlastDepth.trans hdepth) ht
  rw [hread, hscan, hread [t], hscan [], scan_nil]
  simp [Outcome.after]

/-- The code below junk, and what is scanned from it: the text below begins with its first token, and
something else may stand before that. -/
theorem IsJunk.exists_code_below {front source : List Char} (h : IsJunk front)
    (hsource : Code.ofLexemes (lex source).1 = t :: rest) :
    ∃ first behind, Code.ofLexemes (lex (front ++ '\n' :: source)).1 =
        Code.ofLexemes (lex front).1 ++ first :: behind ∧
      first.token = t.token ∧ first.start = t.start + Text.byteLength (front ++ ['\n']) ∧
      scan (first :: behind) = (scanText source).shift (Text.byteLength (front ++ ['\n'])) := by
  obtain ⟨lead, hcode⟩ := Code.ofLexemes_lineBreak h.endsAtBreak h.isComment_getLast? source
  rw [hsource, List.map_cons, List.modifyHead_cons] at hcode
  have hascending := Code.Ascending.ofLexemes (front ++ '\n' :: source)
  rw [hcode] at hascending
  refine ⟨_, _, hcode, rfl, rfl, ?_⟩
  rw [scanText, hsource]
  exact (scan_lead hascending.right t.lead t.afterComment).symm.trans
    (scan_shift (e := Shift.of (Text.byteLength (front ++ ['\n']))) (t :: rest))

/-- Text that is not understood is given up behind the next semicolon, and at the next `@`-keyword or
directive, outside of its brackets. A class or protocol below it is found just when the text leaves
none of them open. -/
theorem scanText_below {front : List Char} (h : IsJunk front) :
    (∀ skipped semicolon behind,
      Code.ofLexemes (lex front).1 = skipped ++ semicolon :: behind →
      semicolon.token = .semicolon → arguments.depthOver 0 skipped = 0 →
        scanText front = (scan behind).after (scan (skipped ++ [semicolon])).cursors
          (scan (skipped ++ [semicolon])).remarks) ∧
    ∀ source : List Char,
      (openBrackets front = 0 →
        (Code.ofLexemes (lex source).1).next? ∈ [some .atKeyword, some .directive] →
          scanText (front ++ '\n' :: source) =
            ((scanText source).shift (Text.byteLength (front ++ ['\n']))).after
              (scanText front).cursors (scanText front).remarks) ∧
      (BeginsContainer (Code.ofLexemes (lex source).1) →
        ((scanText (front ++ '\n' :: source)).cursors =
            (scanText front).cursors ++
              (scanText source).cursors.map (Cursor.shift (Text.byteLength (front ++ ['\n']))) ↔
          openBrackets front = 0)) := by
  constructor
  · intro skipped semicolon behind hfront hsemicolon hdepth
    have hskipped : ∀ u ∈ skipped, u.token ∉ interrupting := fun u hu =>
      h.forall_code u (hfront ▸ List.mem_append_left _ hu)
    rw [scanText, hfront, scan_semicolon hskipped hdepth hsemicolon]
  intro source
  obtain ⟨last, hsuffix, hspan, hdepth, hread⟩ := exists_last_head h.forall_code
  have hlast : ∀ u ∈ last, u.token ∉ interrupting := fun u hu =>
    h.forall_code u (hsuffix.subset hu)
  have hclosed : openBrackets front = 0 →
      (Code.ofLexemes (lex source).1).next? ∈ [some .atKeyword, some .directive] →
        scanText (front ++ '\n' :: source) =
          ((scanText source).shift (Text.byteLength (front ++ ['\n']))).after
            (scanText front).cursors (scanText front).remarks := by
    intro hzero hnext
    cases hsource : Code.ofLexemes (lex source).1 with
    | nil =>
      rw [hsource] at hnext
      simp [Code.next?] at hnext
    | cons t rest =>
      obtain ⟨first, behind, hcode, htoken, -, hscan⟩ := h.exists_code_below hsource
      have hfirst : first.token = .atKeyword ∨ first.token = .directive := by
        rw [hsource] at hnext
        simpa [Code.next?, htoken] using hnext
      rw [scanText, hcode, hread, scan_interrupted hlast hspan (hdepth.trans hzero) hfirst, hscan]
      rfl
  refine ⟨hclosed, fun hcontainer => ⟨fun heq => ?_, fun hzero => ?_⟩⟩
  · by_contra hopen
    obtain ⟨keyword, rest, container, more, hsource, -, hcursors, hkind, hextent⟩ :=
      hcontainer.exists_cursor
    obtain ⟨first, behind, hcode, -, hstart, -⟩ := h.exists_code_below hsource
    have hascending : Code.Ascending (last ++ first :: behind) := by
      have hall := Code.Ascending.ofLexemes (front ++ '\n' :: source)
      obtain ⟨passed, hpassed⟩ := hsuffix
      rw [hcode, ← hpassed, List.append_assoc] at hall
      exact hall.right
    refine cursors_ne_container hascending hlast hspan (by rwa [hdepth])
      (by rwa [Cursor.kind_shift] : isContainerKind
        (container.shift (Text.byteLength (front ++ ['\n']))).kind = true)
      (by rw [Cursor.extent_shift, hextent, hstart])
      (more.map (Cursor.shift (Text.byteLength (front ++ ['\n'])))) ?_
    rw [scanText, hcode, hread, scanText, scanText, hcursors, List.map_cons] at heq
    exact List.append_cancel_left heq
  · have hnext : (Code.ofLexemes (lex source).1).next? ∈ [some .atKeyword, some .directive] := by
      obtain ⟨keyword, rest, container, more, hsource, hkeyword, -⟩ := hcontainer.exists_cursor
      simp [hsource, Code.next?, hkeyword]
    rw [hclosed hzero hnext]
    rfl

/-- A call without its closing parenthesis, and a class. -/
def openCall : List Char := "f(".toList

def classBelow : List Char := "@interface X\n@end".toList

/-- The class is lost below the open parenthesis; in front of it stands the same with the parenthesis
closed. -/
theorem scanText_below_openCall :
    IsJunk openCall ∧ BeginsContainer (Code.ofLexemes (lex classBelow).1) ∧
      openBrackets openCall = 1 ∧ openBrackets (openCall ++ [')']) = 0 ∧
      (scanText (openCall ++ '\n' :: classBelow)).cursors = [] ∧
      (scanText classBelow).cursors.map (fun cursor => (cursor.spelling, cursor.extent)) =
        [("X", 0)] ∧
      (scanText (openCall ++ '\n' :: classBelow)).cursors ≠
        (scanText openCall).cursors ++ (scanText classBelow).cursors.map (Cursor.shift 3) ∧
      (scanText ((openCall ++ [')']) ++ '\n' :: classBelow)).cursors =
        (scanText (openCall ++ [')'])).cursors ++
          (scanText classBelow).cursors.map (Cursor.shift 4) := by
  have hopen : IsJunk openCall := by decide +kernel
  have hclosed : IsJunk (openCall ++ [')']) := by decide +kernel
  have hclass : BeginsContainer (Code.ofLexemes (lex classBelow).1) := by decide +kernel
  have hleft : openBrackets openCall = 1 := by decide +kernel
  have hnone : openBrackets (openCall ++ [')']) = 0 := by decide +kernel
  refine ⟨hopen, hclass, hleft, hnone, by decide +kernel, by decide +kernel, fun hfound => ?_,
    (((scanText_below hclosed).2 classBelow).2 hclass).2 hnone⟩
  rw [(((scanText_below hopen).2 classBelow).2 hclass).1 hfound] at hleft
  cases hleft

end Declaration

end DeclDoc
