/-! # Wildcard patterns

A pattern is text in which `?` stands for one character, `*` for any run, `**` as a whole path
component for any directories, and `[…]` for one character of a class, `[!…]` for one outside it.

* `fits_literal_iff`: a pattern of plain characters matches itself only.
* `admits_eq_fits`: what a pattern matches is decided in one pass over the text for each piece.
-/

set_option autoImplicit false

namespace DeclDoc

namespace Wildcard

/-- A member of a character class: all characters from `low` to `high`. -/
structure Range where
  low : Char
  high : Char
deriving DecidableEq, Repr

inductive Piece where
  | literal (c : Char)
  | anyChar
  | anyRun
  | anyDirectories
  | within (ranges : List Range)
  | outside (ranges : List Range)
deriving DecidableEq, Repr

inductive Fault where
  | starRun
  | partialComponent
  | openClass
deriving DecidableEq, Repr

def Fault.message : Fault → String
  | .starRun => "wildcards are either regular `*` or recursive `**`"
  | .partialComponent => "recursive wildcards must form a single path component"
  | .openClass => "invalid range pattern"

/-- What is wrong with a pattern, and at which character. -/
structure PatternError where
  position : Nat
  fault : Fault
deriving DecidableEq, Repr

def PatternError.message (e : PatternError) : String :=
  "Pattern syntax error near position " ++ toString e.position ++ ": " ++ e.fault.message

/-! ## Reading patterns -/

/-- The members of a class: `a-z` is a range, any other character stands for itself. -/
def ranges : List Char → List Range
  | low :: '-' :: high :: rest => ⟨low, high⟩ :: ranges rest
  | c :: rest => ⟨c, c⟩ :: ranges rest
  | [] => []

/-- What is inside a class that opens before `members`, whose first member may be `]`, and what
follows it. -/
def closeClass? : (members : List Char) → Option (List Char × List Char)
  | [] => none
  | first :: rest =>
    let inside := rest.takeWhile (· != ']')
    match rest.drop inside.length with
    | [] => none
    | _ :: after => some (first :: inside, after)

/-- The class that opens before a text, and what follows it. -/
def readClass? : List Char → Option (Piece × List Char)
  | '!' :: members => (closeClass? members).map fun (inside, after) => (.outside (ranges inside), after)
  | members => (closeClass? members).map fun (inside, after) => (.within (ranges inside), after)

theorem length_closeClass? {members inside after : List Char}
    (h : closeClass? members = some (inside, after)) : after.length < members.length := by
  cases members with
  | nil => simp [closeClass?] at h
  | cons first rest =>
    simp only [closeClass?] at h
    split at h
    · simp at h
    · next _ c more hd =>
      have := congrArg List.length hd
      simp only [List.length_drop, List.length_cons] at this
      simp only [Option.some.injEq, Prod.mk.injEq] at h
      simp only [← h.2, List.length_cons]
      omega

theorem length_readClass? {s after : List Char} {piece : Piece}
    (h : readClass? s = some (piece, after)) : after.length < s.length := by
  unfold readClass? at h
  split at h
  · simp only [Option.map_eq_some_iff] at h
    obtain ⟨⟨inside, rest⟩, hc, heq⟩ := h
    simp only [Prod.mk.injEq] at heq
    have := length_closeClass? hc
    simp only [List.length_cons, ← heq.2]
    omega
  · simp only [Option.map_eq_some_iff] at h
    obtain ⟨⟨inside, rest⟩, hc, heq⟩ := h
    simp only [Prod.mk.injEq] at heq
    have := length_closeClass? hc
    simpa only [← heq.2] using this

/-- Puts down a piece; directories right after directories add nothing, once two pieces are down. -/
def put (piece : Piece) (down : List Piece) : List Piece :=
  if piece = .anyDirectories ∧ 1 < down.length ∧ down.head? = some .anyDirectories then down
  else piece :: down

/-- Reads on at character `index`, which follows `before`, with the pieces `down` in reverse. -/
def readFrom (index : Nat) (before : Option Char) (down : List Piece) :
    List Char → Except PatternError (List Piece)
  | [] => .ok down.reverse
  | '?' :: rest => readFrom (index + 1) (some '?') (put .anyChar down) rest
  | '*' :: '*' :: '*' :: _ => .error ⟨index + 2, .starRun⟩
  | '*' :: '*' :: rest =>
    if before.all (· == '/') then
      match rest with
      | [] => .ok (put .anyDirectories down).reverse
      | '/' :: more => readFrom (index + 3) (some '/') (put .anyDirectories down) more
      | _ => .error ⟨index + 2, .partialComponent⟩
    else .error ⟨index - 1, .partialComponent⟩
  | '*' :: rest => readFrom (index + 1) (some '*') (put .anyRun down) rest
  | '[' :: rest =>
    match _class : readClass? rest with
    | none => .error ⟨index, .openClass⟩
    | some (piece, after) =>
      readFrom (index + 1 + (rest.length - after.length)) (some ']') (put piece down) after
  | c :: rest => readFrom (index + 1) (some c) (put (.literal c) down) rest
termination_by s => s.length
decreasing_by
  all_goals first
    | (simp only [List.length_cons]; have := length_readClass? _class; omega)
    | (simp only [List.length_cons]; omega)

/-- The pieces of a pattern. -/
def read (pattern : List Char) : Except PatternError (List Piece) := readFrom 0 none [] pattern

/-! ## Matching -/

def Range.holds (range : Range) (c : Char) : Bool := range.low ≤ c && c ≤ range.high

/-- Whether a piece that stands for one character stands for this one. -/
def Piece.accepts : Piece → Char → Bool
  | .literal d, c => c == d
  | .anyChar, _ => true
  | .within ranges, c => ranges.any (·.holds c)
  | .outside ranges, c => !ranges.any (·.holds c)
  | .anyRun, _ | .anyDirectories, _ => false

/-- Every end of a text, the whole text first. -/
def tails : List Char → List (List Char)
  | [] => [[]]
  | c :: rest => (c :: rest) :: tails rest

/-- The text itself, every end of it after a slash, and the empty end. -/
def directoryTails (s : List Char) : List (List Char) := s :: afterSlashes s
where
  afterSlashes : List Char → List (List Char)
    | [] => [[]]
    | c :: rest => if c = '/' then rest :: afterSlashes rest else afterSlashes rest

/-- Whether a whole text has the form that the pieces describe. -/
def fits : List Piece → List Char → Bool
  | [], s => s.isEmpty
  | .anyRun :: pieces, s => (tails s).any (fits pieces)
  | .anyDirectories :: pieces, s => (directoryTails s).any (fits pieces)
  | _ :: _, [] => false
  | piece :: pieces, c :: s => piece.accepts c && fits pieces s

theorem fits_literal_iff {s t : List Char} :
    fits (s.map .literal) t = true ↔ t = s := by
  induction s generalizing t with
  | nil => simp [fits]
  | cons c s ih => cases t <;> simp [fits, Piece.accepts, ih]

theorem mem_tails {s t : List Char} : t ∈ tails s ↔ t <:+ s := by
  induction s with
  | nil => simp [tails]
  | cons c s ih => simp [tails, ih, List.suffix_cons_iff]

/-! ## Deciding a match

A row holds one answer for each end of a text, the whole text first. The row of a pattern comes from
the row of the pattern without its first piece, so no end of the text is tried twice for a piece.
-/

/-- Whether the answer is yes here or later. -/
def orLater : (row : List Bool) → List Bool
  | [] => []
  | answer :: row =>
    match orLater row with
    | [] => [answer]
    | later :: more => (answer || later) :: later :: more

/-- Whether the answer is yes after a later slash or at the end. -/
def orAfterSlash : (s : List Char) → (row : List Bool) → List Bool
  | c :: s, _ :: row =>
    let later := orAfterSlash s row
    (c == '/' && row.headD false || later.headD false) :: later
  | _, row => row

/-- From the answers for the pieces behind a piece to the answers with that piece in front. -/
def Piece.advance : Piece → (s : List Char) → (row : List Bool) → List Bool
  | .anyRun, _, row => orLater row
  | .anyDirectories, s, row => List.zipWith (· || ·) row (orAfterSlash s row)
  | piece, s, row => List.zipWith (fun c answer => piece.accepts c && answer) s row.tail ++ [false]

/-- Which ends of a text the pieces fit. -/
def fitsEnds : List Piece → (s : List Char) → List Bool
  | [], s => (tails s).map List.isEmpty
  | piece :: pieces, s => piece.advance s (fitsEnds pieces s)

theorem headD_map_tails (f : List Char → Bool) (s : List Char) :
    ((tails s).map f).headD false = f s := by
  cases s <;> rfl

theorem orLater_tails (f : List Char → Bool) (s : List Char) :
    orLater ((tails s).map f) = (tails s).map fun t => (tails t).any f := by
  induction s with
  | nil => simp [tails, orLater]
  | cons c s ih =>
    simp only [tails, List.map_cons, orLater, ih]
    cases s <;> simp [tails]

theorem orAfterSlash_tails (f : List Char → Bool) (s : List Char) :
    orAfterSlash s ((tails s).map f) =
      (tails s).map fun t => (directoryTails.afterSlashes t).any f := by
  induction s with
  | nil => simp [tails, orAfterSlash, directoryTails.afterSlashes]
  | cons c s ih =>
    simp only [tails, List.map_cons, orAfterSlash, ih, headD_map_tails, directoryTails.afterSlashes]
    by_cases h : c = '/' <;> simp [h]

theorem zipWith_or_map {α : Type} (f g : α → Bool) (l : List α) :
    List.zipWith (· || ·) (l.map f) (l.map g) = l.map fun a => f a || g a := by
  induction l with
  | nil => rfl
  | cons a l ih => simp [ih]

/-- A piece for one character asks for that character and for the rest right behind it. -/
theorem zipWith_accepts_tails (piece : Piece) (f : List Char → Bool) (s : List Char) :
    List.zipWith (fun c answer => piece.accepts c && answer) s ((tails s).map f).tail ++ [false] =
      (tails s).map fun t =>
        match t with
        | [] => false
        | c :: t => piece.accepts c && f t := by
  induction s with
  | nil => rfl
  | cons c s ih =>
    cases s with
    | nil => rfl
    | cons d s => simpa [tails] using ih

theorem fitsEnds_eq (pieces : List Piece) (s : List Char) :
    fitsEnds pieces s = (tails s).map (fits pieces) := by
  induction pieces with
  | nil => simp only [fitsEnds]; exact List.map_congr_left fun t _ => by simp [fits]
  | cons piece pieces ih =>
    rw [fitsEnds, ih]
    cases piece with
    | anyRun => simp only [Piece.advance, orLater_tails, fits]
    | anyDirectories =>
      simp only [Piece.advance, orAfterSlash_tails, zipWith_or_map]
      exact List.map_congr_left fun t _ => by simp [fits, directoryTails]
    | literal | anyChar | within | outside =>
      simp only [Piece.advance, zipWith_accepts_tails]
      exact List.map_congr_left fun t _ => by cases t <;> simp [fits]

end Wildcard

/-- A wildcard pattern, as its pieces. -/
structure Wildcard where
  pieces : List Wildcard.Piece
deriving DecidableEq, Repr

namespace Wildcard

def ofText (text : String) : Except PatternError Wildcard := (read text.toList).map Wildcard.mk

/-- Whether a pattern matches a whole text. -/
def admits (pattern : Wildcard) (text : List Char) : Bool :=
  (fitsEnds pattern.pieces text).headD false

theorem admits_eq_fits (pattern : Wildcard) (text : List Char) :
    pattern.admits text = fits pattern.pieces text := by
  rw [admits, fitsEnds_eq, headD_map_tails]

end Wildcard

end DeclDoc
