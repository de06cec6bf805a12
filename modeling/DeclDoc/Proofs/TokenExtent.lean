import DeclDoc.Proofs.Documentation

/-!
# Tokens and what stands behind them

A token depends on what stands behind it only where that would make it longer. It is read the same
when the text behind it is cut off, when that text begins with white space in place of a slash, and
when it goes on in another way behind white space or a closing brace (`Yields`,
`Extent.read_append`); and it ends within the text (`Extent.more_le`).
-/

set_option autoImplicit false

namespace DeclDoc

namespace Lexer

/-! ## What stands behind a token -/

/-- White space, or a closing brace: a character that belongs to no token begun before it, but to one
that takes any character along. -/
def endsToken (c : Char) : Bool := isSpace c || c == '\x7d'

theorem endsToken_of_isSpace {c : Char} (h : isSpace c = true) : endsToken c = true := by
  rw [endsToken, h, Bool.true_or]

/-- What may come to stand in the place of `rest` without the token before it changing: nothing, or a
text that begins with the same character or with one in the place of a slash, where that character
ends a token. A line break stands for a line break only, since directives and line comments end
there. -/
def Yields (rest other : List Char) : Prop :=
  other = [] ∨ ∃ d tail e more, rest = d :: tail ∧ other = e :: more ∧ endsToken e = true ∧
    (d = e ∨ d = '/' ∧ e ≠ '\n')

theorem Yields.nil (rest : List Char) : Yields rest [] := .inl rfl

theorem Yields.of_nil {other : List Char} (h : Yields [] other) : other = [] := by
  rcases h with rfl | ⟨d, tail, e, more, hrest, -⟩
  · rfl
  · cases hrest

/-- The end of a token or nothing at all. -/
theorem Yields.begins {rest other : List Char} (h : Yields rest other) :
    ∀ e ∈ other.head?, endsToken e = true := by
  rcases h with rfl | ⟨d, tail, e, more, -, rfl, he, -⟩
  · simp
  · simpa using he

theorem ne_of_endsToken {c d : Char} (hc : endsToken c = true) (hd : endsToken d = false) :
    c ≠ d := by
  rintro rfl
  rw [hc] at hd
  cases hd

/-- White space and braces belong to no word and no number. -/
theorem isKeywordPart_of_endsToken {c : Char} (h : endsToken c = true) :
    isKeywordPart c = false := by
  simp only [endsToken, isSpace, Bool.or_eq_true, beq_iff_eq] at h
  rcases h with (((((rfl | rfl) | rfl) | rfl) | rfl) | rfl) | rfl <;> decide

theorem isKeywordStart_of_endsToken {c : Char} (h : endsToken c = true) :
    isKeywordStart c = false := by
  simp only [endsToken, isSpace, Bool.or_eq_true, beq_iff_eq] at h
  rcases h with (((((rfl | rfl) | rfl) | rfl) | rfl) | rfl) | rfl <;> decide

theorem isKeywordPart_of_isKeywordStart {c : Char} (h : isKeywordStart c = true) :
    isKeywordPart c = true := by
  simp only [isKeywordStart, isKeywordPart, Char.isAlphanum, Bool.or_eq_true] at h ⊢
  rcases h with h | h
  · exact .inl (.inl h)
  · exact .inr h

theorem isIdentPart_of_endsToken {c : Char} (h : endsToken c = true) : isIdentPart c = false := by
  rw [isIdentPart, isKeywordPart_of_endsToken h, beq_false_of_ne (ne_of_endsToken h (by decide))]
  rfl

theorem isNumberPart_of_endsToken {c : Char} (h : endsToken c = true) :
    isNumberPart c = false := by
  rw [isNumberPart, isKeywordPart_of_endsToken h, beq_false_of_ne (ne_of_endsToken h (by decide))]
  rfl

/-! ## Tokens without what stands behind them -/

section
variable {a rest other : List Char}

/-- A run that ends within `a`. -/
theorem run_append {part : Char → Bool}
    (hpart : ∀ e, endsToken e = true → e ≠ '\n' → part '/' = true ∨ part e = false)
    (hyields : Yields rest other) (h : run part (a ++ rest) ≤ a.length) :
    run part (a ++ other) = run part (a ++ rest) := by
  induction a with
  | nil =>
    rw [List.nil_append] at h
    rcases hyields with rfl | ⟨d, tail, e, more, rfl, rfl, he, hde⟩
    · exact (Nat.le_zero.1 h).symm
    · have hd : part d = false := by
        cases hd : part d with
        | false => rfl
        | true => simp [run, hd] at h
      have hpartE : part e = false := by
        rcases hde with rfl | ⟨rfl, hne⟩
        · exact hd
        · exact (hpart e he hne).resolve_left (by simp [hd])
      simp [run, hd, hpartE]
  | cons c a ih =>
    by_cases hc : part c = true
    · simp only [run, List.cons_append, List.takeWhile_cons, hc, if_true, List.length_cons] at h ih ⊢
      rw [ih (by omega)]
    · simp [run, hc]

theorem head?_append_congr (ha : a ≠ []) (rest other : List Char) :
    (a ++ other).head? = (a ++ rest).head? := by
  cases a with
  | nil => exact absurd rfl ha
  | cons c a => rfl

theorem blockCommentTail_append (hyields : Yields rest other)
    (h : blockCommentTail (a ++ rest) ≤ a.length) :
    blockCommentTail (a ++ other) = blockCommentTail (a ++ rest) := by
  have hopen : blockCommentTail rest ≤ 0 → other = [] ∧ rest = [] := by
    intro hrest
    cases rest with
    | nil => exact ⟨hyields.of_nil, rfl⟩
    | cons c s =>
      rw [blockCommentTail_cons] at hrest
      split at hrest <;> omega
  induction a with
  | nil =>
    obtain ⟨rfl, rfl⟩ := hopen h
    rfl
  | cons c a ih =>
    simp only [List.cons_append, blockCommentTail_cons, List.length_cons] at h ⊢
    by_cases ha : a = []
    · subst ha
      have hrest : rest = [] ∧ other = [] := by
        simp only [List.nil_append, List.length_nil] at h
        split at h
        · omega
        · exact (hopen (by omega)).symm
      rw [hrest.1, hrest.2]
    · rw [head?_append_congr ha rest other]
      split
      · rfl
      · next hclose =>
        rw [if_neg hclose] at h
        rw [ih (by omega)]

/-- The last cases of the definitions below are about other characters than the backslash. -/
theorem ne_backslash {c : Char} (hlast : c = '\\' → a = [] → False)
    (hescape : ∀ d tail, c = '\\' → a = d :: tail → False) : c ≠ '\\' := by
  intro hc
  cases a with
  | nil => exact hlast hc rfl
  | cons d tail => exact hescape d tail hc rfl

theorem eq_of_directiveTail_eq_zero {s : List Char} (h : directiveTail s = 0) :
    s = [] ∨ (∃ tail, s = '\n' :: tail) ∨ s = ['\\'] := by
  cases s with
  | nil => exact .inl rfl
  | cons c tail =>
    by_cases hbreak : c = '\n'
    · exact .inr (.inl ⟨tail, by rw [hbreak]⟩)
    by_cases hescape : c = '\\'
    · subst hescape
      cases tail with
      | nil => exact .inr (.inr rfl)
      | cons d tail => cases h
    · rw [directiveTail_cons hbreak hescape] at h
      cases h

theorem directiveTail_append (hyields : Yields rest other)
    (h : directiveTail (a ++ rest) ≤ a.length) :
    directiveTail (a ++ other) = directiveTail (a ++ rest) := by
  fun_induction directiveTail a with
  | case1 =>
    have hzero : directiveTail rest = 0 := Nat.le_zero.1 h
    rcases hyields with rfl | ⟨d, tail, e, more, rfl, rfl, he, hde⟩
    · exact hzero.symm
    · rcases eq_of_directiveTail_eq_zero hzero with hnil | ⟨tail, hbreak⟩ | hlast
      · cases hnil
      · obtain ⟨rfl, rfl⟩ := List.cons.inj hbreak
        obtain rfl : '\n' = e := hde.resolve_right (by simp)
        rfl
      · obtain ⟨rfl, rfl⟩ := List.cons.inj hlast
        rcases hde with rfl | ⟨hslash, -⟩
        · exact absurd he (by decide)
        · exact absurd hslash (by decide)
  | case2 a => rfl
  | case3 =>
    cases rest with
    | nil => rw [hyields.of_nil]
    | cons d tail => simp [directiveTail] at h
  | case4 d a ih =>
    simp only [List.cons_append, directiveTail, List.length_cons] at h ⊢
    rw [ih (by omega)]
  | case5 c a hbreak hlast hescape ih =>
    have hc := ne_backslash hlast hescape
    simp only [List.cons_append, directiveTail_cons hbreak hc, List.length_cons] at h ⊢
    rw [ih (by omega)]

/-- Characters of a literal behind its opening, its closing quote included. -/
def literalTail (quote : Char) (s : List Char) : Nat :=
  (literalBody quote s).1 + if (literalBody quote s).2 then 1 else 0

theorem literalTail_le (quote : Char) (s : List Char) : literalTail quote s ≤ s.length := by
  unfold literalTail
  fun_induction literalBody quote s with
  | case1 | case2 | case3 => simp
  | case4 c s hbreak ih =>
    simp only [List.length_cons]
    omega
  | case5 s => simp
  | case6 s => simp
  | case7 c s _ _ _ _ ih =>
    simp only [List.length_cons]
    omega

/-- A literal that has no characters is not closed, and stands before a line break, before a backslash
that takes nothing along, or at the end. -/
theorem of_literalTail_eq_zero {quote : Char} {s : List Char} (h : literalTail quote s = 0) :
    literalBody quote s = (0, false) ∧ ∀ c ∈ s.head?, c = '\n' ∨ c = '\\' := by
  unfold literalTail at h
  cases s with
  | nil => exact ⟨rfl, by simp⟩
  | cons c tail =>
    by_cases hescape : c = '\\'
    · subst hescape
      cases tail with
      | nil => exact ⟨rfl, by simp⟩
      | cons d tail =>
        by_cases hd : d = '\n'
        · exact ⟨if_pos hd, by simp⟩
        · simp [literalBody, hd] at h
    by_cases hquote : c = quote
    · rw [hquote, literalBody_close (hquote ▸ hescape)] at h
      cases h
    by_cases hbreak : c = '\n'
    · subst hbreak
      exact ⟨literalBody_break (Ne.symm hquote) tail, by simp⟩
    · rw [literalBody_cons hquote hbreak hescape] at h
      simp at h

theorem literalBody_append {quote : Char} (hquote : quote ≠ '\n') (hyields : Yields rest other)
    (h : literalTail quote (a ++ rest) ≤ a.length) :
    literalBody quote (a ++ other) = literalBody quote (a ++ rest) := by
  fun_induction literalBody quote a with
  | case1 =>
    obtain ⟨hbody, hhead⟩ := of_literalTail_eq_zero (Nat.le_zero.1 h)
    rcases hyields with rfl | ⟨d, tail, e, more, rfl, rfl, he, hde⟩
    · exact hbody.symm
    · have hd : d = '\n' ∨ d = '\\' := hhead d rfl
      rcases hd with rfl | rfl
      · obtain rfl : '\n' = e := hde.resolve_right (by simp)
        exact (literalBody_break hquote more).trans hbody.symm
      · obtain rfl : '\\' = e := hde.resolve_right (by simp)
        exact absurd he (by decide)
  | case2 =>
    rcases hyields with rfl | ⟨d, tail, e, more, rfl, rfl, he, hde⟩
    · cases rest with
      | nil => rfl
      | cons d tail =>
        by_cases hd : d = '\n'
        · simp [literalBody, hd]
        · simp only [literalTail, List.singleton_append, literalBody, if_neg hd,
            List.length_singleton] at h
          omega
    · by_cases hd : d = '\n'
      · subst hd
        obtain rfl : '\n' = e := hde.resolve_right (by simp)
        simp [literalBody]
      · simp only [literalTail, List.singleton_append, literalBody, if_neg hd, List.length_singleton] at h
        omega
  | case3 => simp [literalBody]
  | case4 c a hbreak ih =>
    simp only [List.cons_append, literalTail, literalBody, if_neg hbreak, List.length_cons] at h ih ⊢
    rw [ih (by omega)]
  | case5 a hlast hescape =>
    have hc := ne_backslash hlast hescape
    simp only [List.cons_append, literalBody_close hc]
  | case6 => simp [literalBody, hquote.symm]
  | case7 c a hlast hescape hc hbreak ih =>
    have hescaped := ne_backslash hlast hescape
    simp only [List.cons_append, literalTail, literalBody_cons hc hbreak hescaped,
      List.length_cons] at h ih ⊢
    rw [ih (by omega)]

namespace Extent

theorem more_literal (token : Token) (quote : Char) (opening : Nat) (s : List Char) :
    (literal token quote opening s).more = opening + literalTail quote (s.drop opening) := by
  unfold literal literalTail
  dsimp only
  split <;> simp [Nat.add_assoc]

theorem more_literal_le (token : Token) (quote : Char) {opening : Nat} {s : List Char}
    (h : opening ≤ s.length) : (literal token quote opening s).more ≤ s.length := by
  have htail := literalTail_le quote (s.drop opening)
  rw [List.length_drop] at htail
  rw [more_literal]
  omega

theorem literal_append {token : Token} {quote : Char} {opening : Nat} (hquote : quote ≠ '\n')
    (hyields : Yields rest other)
    (h : (literal token quote opening (a ++ rest)).more ≤ a.length) :
    literal token quote opening (a ++ other) = literal token quote opening (a ++ rest) := by
  rw [more_literal] at h
  have hopening : opening ≤ a.length := by omega
  rw [List.drop_append_of_le_length hopening] at h
  have hbody : literalBody quote (a.drop opening ++ other) =
      literalBody quote (a.drop opening ++ rest) := by
    apply literalBody_append hquote hyields
    rw [List.length_drop]
    omega
  simp only [literal, List.drop_append_of_le_length hopening, hbody]

theorem read_ident {c : Char} {s : List Char} (h : isIdentStart c = true) :
    read c s = ⟨some .ident, run isIdentPart s⟩ := if_pos h

theorem read_number {c : Char} {s : List Char} (hident : ¬isIdentStart c = true)
    (h : c.isDigit = true) : read c s = ⟨some .number, run isNumberPart s⟩ :=
  (if_neg hident).trans (if_pos h)

theorem read_at {d : Char} {s : List Char} (hquote : d = '"' → False) :
    read '@' (d :: s) =
      if isKeywordStart d then ⟨some .atKeyword, run isKeywordPart (d :: s)⟩ else ⟨none, 0⟩ := by
  simp [read, isIdentStart, isKeywordStart]

/-- A character begins no longer token before `s`. -/
structure Alone (c : Char) (s : List Char) : Prop where
  ident : isIdentStart c = false
  digit : c.isDigit = false
  marks : c ≠ '#' ∧ c ≠ '"' ∧ c ≠ '\''
  slash : c = '/' → ∀ d ∈ s.head?, d ≠ '/' ∧ d ≠ '*'
  atSign : c = '@' → ∀ d ∈ s.head?, d ≠ '"' ∧ isKeywordStart d = false
  dots : c = '.' → ∀ tail, s ≠ '.' :: '.' :: tail

/-- What is matched by no other case of the reader stands alone. -/
theorem Alone.of_unmatched {c : Char} {s : List Char} (hident : ¬isIdentStart c = true)
    (hdigit : ¬c.isDigit = true) (hmarks : c ≠ '#' ∧ c ≠ '"' ∧ c ≠ '\'')
    (hline : ∀ tail, c = '/' → s ≠ '/' :: tail) (hblock : ∀ tail, c = '/' → s ≠ '*' :: tail)
    (hword : ∀ d tail, c = '@' → s ≠ d :: tail) (hdots : ∀ tail, c = '.' → s ≠ '.' :: '.' :: tail) :
    Alone c s where
  ident := by simpa using hident
  digit := by simpa using hdigit
  marks := hmarks
  slash hc d hd := by
    obtain ⟨tail, htail⟩ := List.head?_eq_some_iff.1 hd
    constructor
    · rintro rfl
      exact hline tail hc htail
    · rintro rfl
      exact hblock tail hc htail
  atSign hc d hd := by
    obtain ⟨tail, htail⟩ := List.head?_eq_some_iff.1 hd
    exact absurd htail (hword d tail hc)
  dots hc tail := hdots tail hc

theorem read_of_alone {c : Char} {s : List Char} (h : Alone c s) : read c s = ⟨single? c, 0⟩ := by
  unfold read
  rw [if_neg (by simp [h.ident]), if_neg (by simp [h.digit])]
  split
  · exact absurd rfl (h.slash rfl _ rfl).1
  · exact absurd rfl (h.slash rfl _ rfl).2
  · exact absurd rfl h.marks.1
  · exact absurd rfl (h.atSign rfl _ rfl).1
  · next d tail _ =>
    rw [if_neg (by simp [(h.atSign rfl d rfl).2])]
    rfl
  · exact absurd rfl h.marks.2.1
  · exact absurd rfl h.marks.2.2
  · exact absurd rfl (h.dots rfl _)
  · rfl

/-- What follows a token begins as before, or with what ends one. -/
theorem head?_of_yields (hyields : Yields rest other) :
    ∀ d ∈ (a ++ other).head?, d ∈ (a ++ rest).head? ∨ endsToken d = true := by
  intro d hd
  cases a with
  | nil => exact .inr (hyields.begins d hd)
  | cons c a => exact .inl hd

/-- What ends a token gives no meaning to the character before it. -/
theorem Alone.yields {c : Char} (h : Alone c (a ++ rest)) (hyields : Yields rest other) :
    Alone c (a ++ other) where
  ident := h.ident
  digit := h.digit
  marks := h.marks
  slash hc d hd := by
    rcases head?_of_yields hyields d hd with hd | hends
    · exact h.slash hc d hd
    · exact ⟨ne_of_endsToken hends (by decide), ne_of_endsToken hends (by decide)⟩
  atSign hc d hd := by
    rcases head?_of_yields hyields d hd with hd | hends
    · exact h.atSign hc d hd
    · exact ⟨ne_of_endsToken hends (by decide), isKeywordStart_of_endsToken hends⟩
  dots hc tail hd := by
    have hbegins : other.head? ≠ some '.' := fun he =>
      absurd (hyields.begins '.' he) (by decide)
    cases a with
    | nil => exact hbegins (congrArg List.head? hd)
    | cons d a =>
      obtain ⟨rfl, hmore⟩ := List.cons.inj hd
      cases a with
      | nil => exact hbegins (congrArg List.head? hmore)
      | cons e a =>
        obtain ⟨rfl, -⟩ := List.cons.inj hmore
        exact h.dots hc _ rfl

/-- A token that ends within `a` does not depend on what stands behind `a`. -/
theorem read_append {c : Char} (hyields : Yields rest other)
    (h : (read c (a ++ rest)).more ≤ a.length) : read c (a ++ other) = read c (a ++ rest) := by
  generalize hs : a ++ rest = s at h ⊢
  fun_cases read c s with
  | case1 c s hident =>
    subst hs
    rw [read_ident hident] at h
    rw [read_ident hident,
      run_append (fun e he _ => .inr (isIdentPart_of_endsToken he)) hyields h]
  | case2 c s hident hdigit =>
    subst hs
    rw [read_number hident hdigit] at h
    rw [read_number hident hdigit,
      run_append (fun e he _ => .inr (isNumberPart_of_endsToken he)) hyields h]
  | case3 tail =>
    cases a with
    | nil => cases h
    | cons d a =>
      obtain ⟨rfl, rfl⟩ := List.cons.inj hs
      exact congrArg (Extent.mk _) (run_append (fun _ _ _ => .inl rfl) hyields h)
  | case4 body =>
    cases a with
    | nil => cases h
    | cons d a =>
      obtain ⟨rfl, rfl⟩ := List.cons.inj hs
      exact congrArg (Extent.mk _ <| · + 1)
        (blockCommentTail_append hyields (Nat.le_of_succ_le_succ h))
  | case5 s =>
    subst hs
    exact congrArg (Extent.mk _) (directiveTail_append hyields h)
  | case6 tail =>
    have hmore : 1 ≤ (read '@' ('"' :: tail)).more := by
      have := more_literal .stringLiteral '"' 1 ('"' :: tail)
      exact this ▸ Nat.le_add_right 1 _
    cases a with
    | nil => exact absurd (Nat.le_trans hmore h) (by simp)
    | cons d a =>
      obtain ⟨rfl, rfl⟩ := List.cons.inj hs
      exact literal_append (a := '"' :: a) (by decide) hyields h
  | case7 d tail hquote hstart =>
    rw [read_at hquote, if_pos hstart] at h
    cases a with
    | nil => simp [run, isKeywordPart_of_isKeywordStart hstart] at h
    | cons e a =>
      obtain ⟨rfl, rfl⟩ := List.cons.inj hs
      rw [List.cons_append, read_at hquote, if_pos hstart]
      exact congrArg (Extent.mk _)
        (run_append (a := e :: a) (fun e he _ => .inr (isKeywordPart_of_endsToken he)) hyields h)
  | case8 d tail hquote hstart =>
    have halone : Alone '@' (a ++ rest) := by
      rw [hs]
      refine ⟨by decide, by decide, by decide, fun hc => absurd hc (by decide), fun _ e he => ?_,
        fun hc => absurd hc (by decide)⟩
      obtain rfl : d = e := by simpa using he
      exact ⟨hquote, by simpa using hstart⟩
    exact read_of_alone (halone.yields hyields)
  | case9 s | case10 s =>
    subst hs
    exact literal_append (by decide) hyields h
  | case11 tail =>
    have htwo : 2 ≤ a.length := h
    match a, hs with
    | [], _ => exact absurd htwo (by simp)
    | [_], _ => exact absurd htwo (by simp)
    | d :: e :: a, hs =>
      simp only [List.cons_append, List.cons.injEq] at hs
      obtain ⟨rfl, rfl, -⟩ := hs
      rfl
  | case12 c s hident hdigit hdirective hstring hchar hline hblock hquote hword hdots =>
    have halone : Alone c (a ++ rest) := by
      rw [hs]
      exact .of_unmatched hident hdigit ⟨hdirective, hstring, hchar⟩ hline hblock hword hdots
    exact read_of_alone (halone.yields hyields)

/-- Tokens end within the text. -/
theorem more_le (c : Char) (s : List Char) : (read c s).more ≤ s.length := by
  fun_cases read c s with
  | case1 c s hident => exact run_le isIdentPart s
  | case2 c s hident hdigit => exact run_le isNumberPart s
  | case3 tail => exact run_le _ ('/' :: tail)
  | case4 body => exact Nat.succ_le_succ (blockCommentTail_le body)
  | case5 s => exact directiveTail_le s
  | case6 tail => exact more_literal_le .stringLiteral '"' (Nat.le_add_left 1 _)
  | case7 d tail hquote hstart => exact run_le isKeywordPart (d :: tail)
  | case8 d tail hquote hstart => exact Nat.zero_le _
  | case9 s => exact more_literal_le .stringLiteral '"' (Nat.zero_le _)
  | case10 s => exact more_literal_le .charLiteral '\'' (Nat.zero_le _)
  | case11 tail => exact Nat.le_add_left 2 _
  | case12 c s => exact Nat.zero_le _

end Extent

end

end Lexer

end DeclDoc
