import DeclDoc.Proofs.TokenExtent

/-!
# The lexer is local

`lexFrom_eq_cons_iff` takes the first lexeme off a text, so a text may be cut behind any lexeme
(`lexFrom_writtenAll`): what stands before is lexed as if it ended there, and what stands behind as if
it began there. Lexemes tile their source (`lex_tiles`), and a block comment reaches to its first
closing mark or to the end (`comment_of_lex`).
-/

set_option autoImplicit false

namespace DeclDoc

/-! ## Lexemes without what stands behind them -/

open Lexer in
/-- A lexeme as it is read before `rest`. -/
structure Lexeme.StandsBefore (x : Lexeme) (rest : List Char) : Prop where
  gap : ∀ c ∈ x.gap, isSpace c = true
  read : ∃ c a, x.text = c :: a ∧ isSpace c = false ∧ Extent.read c (a ++ rest) = ⟨x.token, a.length⟩

theorem Lexeme.StandsBefore.yields {x : Lexeme} {front rest other : List Char}
    (h : x.StandsBefore (front ++ rest)) (hyields : Lexer.Yields rest other) :
    x.StandsBefore (front ++ other) := by
  obtain ⟨c, a, htext, hc, hread⟩ := h.read
  rw [← List.append_assoc] at hread
  refine ⟨h.gap, c, a, htext, hc, ?_⟩
  rw [← List.append_assoc, Lexer.Extent.read_append hyields, hread]
  rw [hread, List.length_append]
  exact Nat.le_add_right _ _

theorem Lexeme.writtenAll_cons_eq (x : Lexeme) (more : List Lexeme) :
    writtenAll (x :: more) = x.written ++ writtenAll more := rfl

/-- The lexer takes one lexeme off the text, then the others off what stands behind it. -/
theorem lexFrom_eq_cons_iff {offset : Nat} {s : List Char} {x : Lexeme} {behind : List Lexeme}
    {trail : List Char} :
    lexFrom offset s = (x :: behind, trail) ↔
      ∃ rest, s = x.written ++ rest ∧ x.start = offset + Text.byteLength x.gap ∧
        x.StandsBefore rest ∧ lexFrom x.stop rest = (behind, trail) := by
  constructor
  · intro h
    rw [lexFrom] at h
    split at h
    · cases h
    · next c rest hshape =>
      dsimp only at h
      obtain ⟨hlexemes, htrail⟩ := Prod.mk.inj h
      obtain ⟨rfl, hbehind⟩ := List.cons.inj hlexemes
      have hmore := Lexer.Extent.more_le c rest
      have hsplit := List.take_append_drop (Lexer.Extent.read c rest).more rest
      refine ⟨rest.drop (Lexer.Extent.read c rest).more, ?_, rfl,
        ⟨fun d hd => Lexer.isSpace_of_mem_takeWhile hd, c, _, rfl, ?_, ?_⟩, ?_⟩
      · have hs := List.takeWhile_append_dropWhile (p := Lexer.isSpace) (l := s)
        rw [hshape] at hs
        rw [Lexeme.written, List.append_assoc, List.cons_append, hsplit, hs]
      · have := List.head?_dropWhile_not Lexer.isSpace s
        rw [hshape] at this
        simpa using this
      · rw [hsplit, List.length_take, Nat.min_eq_left hmore]
      · exact Prod.ext hbehind htrail
  · rintro ⟨rest, rfl, hstart, ⟨hgap, c, a, htext, hc, hread⟩, hbehind⟩
    obtain ⟨gap, token, start, text⟩ := x
    dsimp only at hgap hstart htext hread
    subst hstart htext
    have htake : (gap ++ (c :: (a ++ rest))).takeWhile Lexer.isSpace = gap := by
      rw [List.takeWhile_append_of_pos hgap, List.takeWhile_cons_of_neg (by simp [hc]),
        List.append_nil]
    have hdrop : (gap ++ (c :: (a ++ rest))).dropWhile Lexer.isSpace = c :: (a ++ rest) := by
      rw [List.dropWhile_append_of_pos hgap, List.dropWhile_cons_of_neg (by simp [hc])]
    have hwritten : Lexeme.written ⟨gap, token, offset + Text.byteLength gap, c :: a⟩ ++ rest =
        gap ++ (c :: (a ++ rest)) := by
      rw [Lexeme.written, List.append_assoc, List.cons_append]
    rw [hwritten, lexFrom]
    split
    · next hshape =>
      rw [hdrop] at hshape
      cases hshape
    · next d tail hshape =>
      rw [hdrop] at hshape
      obtain ⟨rfl, rfl⟩ := List.cons.inj hshape
      simp only [htake, hread, List.take_left, List.drop_left]
      rw [Lexeme.stop] at hbehind
      rw [hbehind]

/-- No lexeme is found in white space, and in no other text. -/
theorem lexFrom_eq_nil_iff {offset : Nat} {s trail : List Char} :
    lexFrom offset s = ([], trail) ↔ s = trail ∧ ∀ c ∈ s, Lexer.isSpace c = true := by
  constructor
  · intro h
    rw [lexFrom] at h
    split at h
    · next hshape =>
      have hs := List.takeWhile_append_dropWhile (p := Lexer.isSpace) (l := s)
      rw [hshape, List.append_nil] at hs
      refine ⟨hs.symm.trans (congrArg Prod.snd h), fun c hc => ?_⟩
      rw [← hs] at hc
      exact Lexer.isSpace_of_mem_takeWhile hc
    · cases h
  · rintro ⟨rfl, hspace⟩
    have hdrop : s.dropWhile Lexer.isSpace = [] := List.dropWhile_eq_nil_iff.2 hspace
    have htake : s.takeWhile Lexer.isSpace = s := by
      have hs := List.takeWhile_append_dropWhile (p := Lexer.isSpace) (l := s)
      rwa [hdrop, List.append_nil] at hs
    rw [lexFrom]
    split
    · rw [htake]
    · next hshape =>
      rw [hdrop] at hshape
      cases hshape

/-- What is cut off behind lexemes is lexed on its own, and the lexemes before it are there still
when other text stands behind them. -/
theorem lexFrom_writtenAll {offset : Nat} {s trail : List Char} {before behind : List Lexeme}
    (h : lexFrom offset s = (before ++ behind, trail)) :
    ∃ rest, s = Lexeme.writtenAll before ++ rest ∧
      lexFrom (offset + Text.byteLength (Lexeme.writtenAll before)) rest = (behind, trail) ∧
      ∀ other, Lexer.Yields rest other →
        lexFrom offset (Lexeme.writtenAll before ++ other) =
          (before ++ (lexFrom (offset + Text.byteLength (Lexeme.writtenAll before)) other).1,
            (lexFrom (offset + Text.byteLength (Lexeme.writtenAll before)) other).2) := by
  induction before generalizing offset s with
  | nil => exact ⟨s, rfl, h, fun other _ => rfl⟩
  | cons x before ih =>
    obtain ⟨rest, rfl, hstart, hstands, hrest⟩ := lexFrom_eq_cons_iff.1 h
    obtain ⟨tail, rfl, htail, hother⟩ := ih hrest
    have hstop : x.stop + Text.byteLength (Lexeme.writtenAll before) =
        offset + Text.byteLength (Lexeme.writtenAll (x :: before)) := by
      simp only [Lexeme.writtenAll_cons_eq, Lexeme.stop, hstart, Lexeme.written,
        Text.byteLength_append]
      omega
    rw [hstop] at htail hother
    refine ⟨tail, ?_, htail, fun other hyields => ?_⟩
    · rw [Lexeme.writtenAll_cons_eq, List.append_assoc]
    · rw [Lexeme.writtenAll_cons_eq, List.append_assoc, List.cons_append]
      exact lexFrom_eq_cons_iff.2 ⟨_, rfl, hstart, hstands.yields hyields, hother other hyields⟩

/-! ## Lexemes moved -/

/-- The lexeme as it lies when its source begins `n` bytes further on. -/
def Lexeme.shift (n : Nat) (x : Lexeme) : Lexeme := { x with start := x.start + n }

theorem lexFrom_add (offset n : Nat) (s : List Char) :
    lexFrom (offset + n) s = ((lexFrom offset s).1.map (·.shift n), (lexFrom offset s).2) := by
  cases h : lexFrom offset s with
  | mk lexemes trail =>
  induction lexemes generalizing offset s with
  | nil => exact lexFrom_eq_nil_iff.2 (lexFrom_eq_nil_iff.1 h)
  | cons x behind ih =>
    obtain ⟨rest, rfl, hstart, hstands, hrest⟩ := lexFrom_eq_cons_iff.1 h
    refine lexFrom_eq_cons_iff.2 ⟨rest, rfl, ?_, ⟨hstands.gap, hstands.read⟩, ?_⟩
    · show x.start + n = offset + n + Text.byteLength x.gap
      omega
    · have hstop : (x.shift n).stop = x.stop + n := by
        show x.start + n + Text.byteLength x.text = x.start + Text.byteLength x.text + n
        omega
      rw [hstop]
      exact ih x.stop rest hrest

/-! ## The tiling of a source -/

/-- A closing mark of a block comment begins at a byte of the text. -/
def CloserAt (text : List Char) (p : Nat) : Prop :=
  ∃ front back, text = front ++ '*' :: '/' :: back ∧ Text.byteLength front = p

/-- The first closing mark from byte `n` on begins at byte `p`. -/
structure FirstCloser (text : List Char) (n p : Nat) : Prop where
  closer : CloserAt text p
  behind : n ≤ p
  first : ∀ q, CloserAt text q → n ≤ q → p ≤ q

/-- How the lexemes of a source lie in it. -/
structure Tiles (source : List Char) : Prop where
  nonempty : ∀ x ∈ (lex source).1, x.start < x.stop
  apart : (lex source).1.Pairwise fun x y => x.stop ≤ y.start
  /-- Each is a piece of the source between two of its characters. -/
  placed : ∀ x ∈ (lex source).1, ∃ front back,
    source = front ++ x.text ++ back ∧ Text.byteLength front = x.start
  /-- A character that stands in no lexeme is white space. -/
  between : ∀ front c back, source = front ++ c :: back →
    (∀ x ∈ (lex source).1, x.start ≤ Text.byteLength front → x.stop ≤ Text.byteLength front) →
      c ∈ [' ', '\t', '\r', '\n', '\x0c', '\x0b']
  /-- The text of each is lexed alone as it is in the source. -/
  alone : ∀ x ∈ (lex source).1, lex x.text = ([{ x with gap := [], start := 0 }], [])
  /-- A source that ends where one of them does has the lexemes up to there. -/
  front : ∀ x ∈ (lex source).1, ∀ front back, source = front ++ back →
    Text.byteLength front = x.stop →
      lex front = ((lex source).1.filter (·.stop ≤ x.stop), [])
  /-- A source that begins where one of them ends has the others. -/
  back : ∀ x ∈ (lex source).1, ∀ front back, source = front ++ back →
    Text.byteLength front = x.stop →
      (lex back).1.map (·.shift x.stop) = (lex source).1.filter (x.stop < ·.stop) ∧
        (lex back).2 = (lex source).2
  /-- Block comments are closed by the first closing mark, or reach to the end. -/
  comment : ∀ x ∈ (lex source).1, x.token = some .blockComment →
    (∃ p, FirstCloser source (x.start + 2) p ∧ x.stop = p + 2) ∨
      (∀ p, CloserAt source p → p < x.start + 2) ∧ x.stop = Text.byteLength source

/-- What the text is cut into, at a lexeme of it. -/
theorem Lexeme.cut_of_lex {source front back : List Char} {before behind : List Lexeme} {x : Lexeme}
    (h : (lex source).1 = before ++ x :: behind) (hsource : source = front ++ back)
    (hstop : Text.byteLength front = x.stop) :
    front = writtenAll (before ++ [x]) ∧ lexFrom x.stop back = (behind, (lex source).2) ∧
      lex front = (before ++ [x], []) := by
  have hlex : lexFrom 0 source = ((before ++ [x]) ++ behind, (lex source).2) := by
    rw [List.append_assoc, List.singleton_append, ← h]
    rfl
  obtain ⟨rest, hrest, hback, hother⟩ := lexFrom_writtenAll hlex
  have hlength : Text.byteLength (writtenAll (before ++ [x])) = x.stop :=
    (Positional.Comments.stop_of_lex h).symm
  have hfront : front = writtenAll (before ++ [x]) := by
    rw [← Text.takeBytes_byteLength_append front back, ← hsource, hstop, ← hlength, hrest,
      Text.takeBytes_byteLength_append]
  have hback' : back = rest := by
    rw [← Text.dropBytes_byteLength_append front back, ← hsource, hstop, ← hlength, hrest,
      Text.dropBytes_byteLength_append]
  subst hback'
  rw [Nat.zero_add, hlength] at hback
  refine ⟨hfront, hback, ?_⟩
  have hnil := hother [] (.nil back)
  rw [List.append_nil, ← hfront] at hnil
  have hend : lexFrom (0 + Text.byteLength front) [] = ([], []) :=
    lexFrom_eq_nil_iff.2 ⟨rfl, by simp⟩
  rw [hend, List.append_nil] at hnil
  exact hnil

/-- A character of two texts stands in the one or in the other. -/
theorem Text.position_of_append {a b front back : List Char} {c : Char}
    (h : a ++ b = front ++ c :: back) :
    (∃ tail, a = front ++ c :: tail) ∨ ∃ tail, front = a ++ tail ∧ b = tail ++ c :: back := by
  rcases List.append_eq_append_iff.1 h with ⟨tail, hfront, hb⟩ | ⟨tail, ha, hc⟩
  · exact .inr ⟨tail, hfront, hb⟩
  · cases tail with
    | nil => exact .inr ⟨[], by simpa using ha.symm, hc.symm⟩
    | cons d tail =>
      obtain ⟨rfl, -⟩ := List.cons.inj hc
      exact .inl ⟨tail, ha⟩

theorem isSpace_of_between {offset : Nat} {s trail : List Char} {lexemes : List Lexeme}
    (h : lexFrom offset s = (lexemes, trail)) {front back : List Char} {c : Char}
    (hs : s = front ++ c :: back)
    (houtside : ∀ x ∈ lexemes, x.start ≤ offset + Text.byteLength front →
      x.stop ≤ offset + Text.byteLength front) : Lexer.isSpace c = true := by
  induction lexemes generalizing offset s front with
  | nil => exact (lexFrom_eq_nil_iff.1 h).2 c (by simp [hs])
  | cons x behind ih =>
    obtain ⟨rest, rfl, hstart, hstands, hrest⟩ := lexFrom_eq_cons_iff.1 h
    rw [Lexeme.written, List.append_assoc] at hs
    rcases Text.position_of_append hs with ⟨tail, hgap⟩ | ⟨behindGap, rfl, hsGap⟩
    · exact hstands.gap c (by simp [hgap])
    rcases Text.position_of_append hsGap with ⟨tail, htext⟩ | ⟨behindText, rfl, hsText⟩
    · -- the character stands in `x`
      have hlength := congrArg Text.byteLength htext
      have hpos := c.utf8Size_pos
      have hin := houtside x List.mem_cons_self
      simp only [Text.byteLength_append, Text.byteLength_cons, Lexeme.stop] at hlength hin
      omega
    · have hlength : x.stop + Text.byteLength behindText =
          offset + Text.byteLength (x.gap ++ (x.text ++ behindText)) := by
        simp only [Text.byteLength_append, Lexeme.stop]
        omega
      refine ih hrest hsText fun y hy hle => ?_
      rw [hlength] at hle ⊢
      exact houtside y (List.mem_cons_of_mem x hy) hle

/-- The first closing mark of a block comment, if there is one. -/
theorem Lexer.blockCommentTail_spec (s : List Char) :
    (∃ inside tail, s = inside ++ '*' :: '/' :: tail ∧ blockCommentTail s = inside.length + 2 ∧
      ∀ front back, s = front ++ '*' :: '/' :: back → inside <+: front) ∨
    blockCommentTail s = s.length ∧ ∀ front back, s ≠ front ++ '*' :: '/' :: back := by
  fun_induction blockCommentTail s with
  | case1 => exact .inr ⟨rfl, by simp⟩
  | case2 tail => exact .inl ⟨[], tail, rfl, rfl, fun front _ _ => List.nil_prefix⟩
  | case3 c s hopen ih =>
    have hfront : ∀ front back, c :: s = front ++ '*' :: '/' :: back →
        ∃ more, front = c :: more ∧ s = more ++ '*' :: '/' :: back := by
      intro front back h
      cases front with
      | nil =>
        obtain ⟨rfl, rfl⟩ := List.cons.inj h
        exact absurd rfl (hopen back rfl)
      | cons d more =>
        obtain ⟨rfl, hs⟩ := List.cons.inj h
        exact ⟨more, rfl, hs⟩
    rcases ih with ⟨inside, tail, hs, htail, hfirst⟩ | ⟨htail, hnone⟩
    · refine .inl ⟨c :: inside, tail, by rw [hs, List.cons_append], ?_, fun front back h => ?_⟩
      · rw [htail, List.length_cons]
      · obtain ⟨more, rfl, hmore⟩ := hfront front back h
        exact List.cons_prefix_cons.2 ⟨rfl, hfirst more back hmore⟩
    · refine .inr ⟨by rw [htail, List.length_cons], fun front back h => ?_⟩
      obtain ⟨more, rfl, hmore⟩ := hfront front back h
      exact hnone more back hmore

/-- Where a closing mark stands in a text of two parts, when it stands in the second. -/
theorem closer_behind {a b front back : List Char} (h : a ++ b = front ++ '*' :: '/' :: back)
    (hle : Text.byteLength a ≤ Text.byteLength front) :
    ∃ inside, front = a ++ inside ∧ b = inside ++ '*' :: '/' :: back := by
  rcases Text.position_of_append h with ⟨tail, rfl⟩ | hfront
  · have hpos := Char.utf8Size_pos '*'
    simp only [Text.byteLength_append, Text.byteLength_cons] at hle
    omega
  · exact hfront

/-- How far a block comment reaches in a text, behind its opening mark. -/
theorem closed_or_open (opened : List Char) {inside rest : List Char}
    (h : inside.length = Lexer.blockCommentTail (inside ++ rest)) :
    (∃ p, FirstCloser (opened ++ (inside ++ rest)) (Text.byteLength opened) p ∧
      Text.byteLength (opened ++ inside) = p + 2) ∨
    (∀ p, CloserAt (opened ++ (inside ++ rest)) p → p < Text.byteLength opened) ∧ rest = [] := by
  rcases Lexer.blockCommentTail_spec (inside ++ rest) with
    ⟨front, tail, hfront, htail, hfirst⟩ | ⟨htail, hnone⟩
  · refine .inl ⟨Text.byteLength (opened ++ front), ⟨⟨opened ++ front, tail, ?_, rfl⟩, ?_, ?_⟩, ?_⟩
    · rw [hfront, List.append_assoc]
    · rw [Text.byteLength_append]
      exact Nat.le_add_right _ _
    · rintro q ⟨other, back, hother, rfl⟩ hle
      obtain ⟨more, rfl, hmore⟩ := closer_behind hother hle
      obtain ⟨between, rfl⟩ := hfirst more back hmore
      simp only [Text.byteLength_append]
      omega
    · have hinside : inside = front ++ ['*', '/'] := by
        have hsame : inside ++ rest = (front ++ ['*', '/']) ++ tail := by simp [hfront]
        exact (List.append_inj hsame (by simp [h, htail])).1
      have hmark : Text.byteLength ['*', '/'] = 2 := by decide
      rw [hinside]
      simp only [Text.byteLength_append, hmark]
      omega
  · refine .inr ⟨?_, ?_⟩
    · rintro p ⟨front, back, hfront, rfl⟩
      by_contra hle
      obtain ⟨more, -, hmore⟩ := closer_behind hfront (Nat.not_lt.1 hle)
      exact hnone more back hmore
    · rw [htail, List.length_append] at h
      exact List.eq_nil_of_length_eq_zero (by omega)

/-- A block comment in its source, with what stands behind its opening mark. -/
theorem inside_of_lex {source : List Char} {x : Lexeme} (hx : x ∈ (lex source).1)
    (htoken : x.token = some .blockComment) :
    ∃ opened inside rest, source = opened ++ (inside ++ rest) ∧
      Text.byteLength opened = x.start + 2 ∧ Text.byteLength (opened ++ inside) = x.stop ∧
      inside.length = Lexer.blockCommentTail (inside ++ rest) := by
  obtain ⟨before, behind, hsplit⟩ := List.append_of_mem hx
  obtain ⟨s, rfl, hs, -⟩ := lexFrom_writtenAll
    (show lexFrom 0 source = (before ++ x :: behind, (lex source).2) from Prod.ext hsplit rfl)
  obtain ⟨rest, rfl, hstart, hstands, -⟩ := lexFrom_eq_cons_iff.1 hs
  obtain ⟨c, a, htext, -, hread⟩ := hstands.read
  obtain ⟨body, rfl, hbody, hmore⟩ := Lexer.Extent.read_blockComment (by rw [hread, htoken])
  rw [hread] at hmore
  cases a with
  | nil => cases hmore
  | cons d inside =>
  obtain ⟨rfl, rfl⟩ := List.cons.inj hbody
  have hmark : Text.byteLength ['/', '*'] = 2 := by decide
  have htext : x.text = ['/', '*'] ++ inside := htext
  refine ⟨Lexeme.writtenAll before ++ x.gap ++ ['/', '*'], inside, rest, ?_, ?_, ?_,
    Nat.succ.inj hmore⟩
  · simp only [Lexeme.written, htext, List.append_assoc]
  · simp only [Text.byteLength_append, hmark]
    omega
  · simp only [Lexeme.stop, htext, Text.byteLength_append, hmark]
    omega

theorem comment_of_lex {source : List Char} {x : Lexeme} (hx : x ∈ (lex source).1)
    (htoken : x.token = some .blockComment) :
    (∃ p, FirstCloser source (x.start + 2) p ∧ x.stop = p + 2) ∨
      (∀ p, CloserAt source p → p < x.start + 2) ∧ x.stop = Text.byteLength source := by
  obtain ⟨opened, inside, rest, rfl, hopened, hstop, hlength⟩ := inside_of_lex hx htoken
  rw [← hopened, ← hstop]
  rcases closed_or_open opened hlength with hclosed | ⟨hnone, rfl⟩
  · exact .inl hclosed
  · exact .inr ⟨hnone, by rw [List.append_nil]⟩

/-- The lexemes that end at or before the end of one are those up to it. -/
theorem filter_stop_of_lex {source : List Char} {before behind : List Lexeme} {x : Lexeme}
    (h : (lex source).1 = before ++ x :: behind) :
    (lex source).1.filter (·.stop ≤ x.stop) = before ++ [x] ∧
      (lex source).1.filter (x.stop < ·.stop) = behind := by
  obtain ⟨hordered, hne⟩ := lex_spec source
  rw [h] at hordered hne ⊢
  obtain ⟨-, hbehind, hbefore⟩ := List.pairwise_append.1 hordered
  have hle : ∀ y ∈ before, y.stop ≤ x.stop := by
    intro y hy
    exact Nat.le_trans (hbefore y hy x List.mem_cons_self) (Nat.le_add_right _ _)
  have hlt : ∀ y ∈ behind, x.stop < y.stop := by
    intro y hy
    have hapart := (List.pairwise_cons.1 hbehind).1 y hy
    have hpos := Text.byteLength_pos (hne y (by simp [hy]))
    exact Nat.lt_of_le_of_lt hapart (Nat.lt_add_of_pos_right hpos)
  have hbeforeLe : before.filter (·.stop ≤ x.stop) = before :=
    List.filter_eq_self.2 fun y hy => decide_eq_true (hle y hy)
  have hbehindLe : behind.filter (·.stop ≤ x.stop) = [] :=
    List.filter_eq_nil_iff.2 fun y hy => by simpa using hlt y hy
  have hbeforeLt : before.filter (x.stop < ·.stop) = [] :=
    List.filter_eq_nil_iff.2 fun y hy => by simpa using hle y hy
  have hbehindLt : behind.filter (x.stop < ·.stop) = behind :=
    List.filter_eq_self.2 fun y hy => decide_eq_true (hlt y hy)
  constructor
  · simp [List.filter_append, hbeforeLe, hbehindLe]
  · simp [List.filter_append, hbeforeLt, hbehindLt]

/-- A lexeme is read before the rest of its source. -/
theorem Lexeme.standsBefore_of_lex {source : List Char} {x : Lexeme} (hx : x ∈ (lex source).1) :
    ∃ rest, x.StandsBefore rest := by
  obtain ⟨before, behind, hsplit⟩ := List.append_of_mem hx
  obtain ⟨s, -, hs, -⟩ := lexFrom_writtenAll
    (show lexFrom 0 source = (before ++ x :: behind, (lex source).2) from Prod.ext hsplit rfl)
  obtain ⟨rest, -, -, hstands, -⟩ := lexFrom_eq_cons_iff.1 hs
  exact ⟨rest, hstands⟩

/-- A lexeme is lexed alone as in its source. -/
theorem lex_text {source : List Char} {x : Lexeme} (hx : x ∈ (lex source).1) :
    lex x.text = ([{ x with gap := [], start := 0 }], []) := by
  obtain ⟨rest, hstands⟩ := Lexeme.standsBefore_of_lex hx
  have halone : x.StandsBefore ([] ++ []) := hstands.yields (.nil rest)
  have hnil : ∀ offset, lexFrom offset [] = ([], []) := fun offset =>
    lexFrom_eq_nil_iff.2 ⟨rfl, by simp⟩
  exact lexFrom_eq_cons_iff.2
    ⟨[], (List.append_nil x.text).symm, rfl, ⟨by simp, halone.read⟩, hnil _⟩

/-- Lexemes tile their source, and each is lexed without what stands around it. -/
theorem lex_tiles (source : List Char) : Tiles source where
  nonempty x hx := by
    have hpos := Text.byteLength_pos ((lex_spec source).2 x hx)
    rw [Lexeme.stop]
    omega
  apart := (lex_spec source).1
  placed x hx := by
    obtain ⟨before, behind, hsplit⟩ := List.append_of_mem hx
    obtain ⟨⟨rest, hsource⟩, hstart⟩ := Lexeme.source_of_lex hsplit
    rw [← List.append_assoc] at hsource
    exact ⟨_, rest, hsource, hstart.symm⟩
  between front c back hsource houtside := by
    have hspace : Lexer.isSpace c = true := by
      have hlex : lexFrom 0 source = ((lex source).1, (lex source).2) := rfl
      refine isSpace_of_between hlex hsource fun x hx hle => ?_
      rw [Nat.zero_add] at hle ⊢
      exact houtside x hx hle
    simpa [Lexer.isSpace, or_assoc] using hspace
  alone x hx := lex_text hx
  front x hx front back hsource hstop := by
    obtain ⟨before, behind, hsplit⟩ := List.append_of_mem hx
    rw [(filter_stop_of_lex hsplit).1]
    exact (Lexeme.cut_of_lex hsplit hsource hstop).2.2
  back x hx front back hsource hstop := by
    obtain ⟨before, behind, hsplit⟩ := List.append_of_mem hx
    obtain ⟨-, hback, -⟩ := Lexeme.cut_of_lex hsplit hsource hstop
    have hmoved := lexFrom_add 0 x.stop back
    rw [Nat.zero_add, hback] at hmoved
    obtain ⟨hlexemes, htrail⟩ := Prod.mk.inj hmoved
    rw [(filter_stop_of_lex hsplit).2]
    exact ⟨hlexemes.symm, htrail.symm⟩
  comment x hx htoken := comment_of_lex hx htoken

end DeclDoc
