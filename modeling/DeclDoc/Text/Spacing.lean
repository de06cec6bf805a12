import DeclDoc.Text.Blank

/-! # Spacing of types

A type is written on one line: single spaces between its words, none after `(` and none before `)`.
Two types are compared without any blanks (`squash`). `squash_tidy`: tidying changes blanks only.
-/

set_option autoImplicit false

namespace DeclDoc.Text

/-- The separator between two words: a space, except inside parentheses next to one. -/
def wordGap (left right : List Char) : List Char :=
  if left.getLast? = some '(' ∨ right.head? = some ')' then [] else [' ']

/-- Words written one after the other with `wordGap` between neighbours. -/
def spaced : List (List Char) → List Char
  | [] => []
  | [w] => w
  | w :: v :: ws => w ++ wordGap w v ++ spaced (v :: ws)

/-- A type's text in one line, spaced uniformly. -/
def tidy (s : List Char) : List Char := spaced (words s)

/-- A text without its blanks. -/
def squash (s : List Char) : List Char := s.filter fun c => !isBlank c

/-! ## Blanks are all that changes -/

theorem squash_append (s t : List Char) : squash (s ++ t) = squash s ++ squash t := by
  simp [squash]

theorem flatten_words (s : List Char) : (words s).flatten = squash s := by
  fun_induction words s with
  | case1 => rfl
  | case2 c hc | case3 c hc => simp [squash, hc]
  | case4 c d rest hc ih => rw [ih]; simp [squash, hc]
  | case5 c d rest hc hd ih => simp [squash, hc, ih]
  | case6 c d rest hc hd hw ih =>
    have : squash (d :: rest) = [] := by rw [← ih, hw]; rfl
    rw [show c :: d :: rest = [c] ++ (d :: rest) from rfl, squash_append, this]
    simp [squash, hc]
  | case7 c d rest hc hd v vs hw ih =>
    rw [show c :: d :: rest = [c] ++ (d :: rest) from rfl, squash_append, ← ih, hw]
    simp [squash, hc]

theorem squash_wordGap (w v : List Char) : squash (wordGap w v) = [] := by
  unfold wordGap
  split
  · rfl
  · decide

theorem squash_of_mem_words {s w : List Char} (h : w ∈ words s) : squash w = w := by
  simpa [squash, List.filter_eq_self] using (mem_words h).2

theorem squash_spaced {ws : List (List Char)} (h : ∀ w ∈ ws, squash w = w) :
    squash (spaced ws) = ws.flatten := by
  fun_induction spaced ws with
  | case1 => rfl
  | case2 w => simpa using h w (by simp)
  | case3 w v ws ih =>
    rw [squash_append, squash_append, squash_wordGap, h w (by simp),
      ih fun u hu => h u (List.mem_cons_of_mem _ hu)]
    simp

/-- Tidying a text changes its blanks only. -/
theorem squash_tidy (s : List Char) : squash (tidy s) = squash s := by
  rw [tidy, squash_spaced fun w hw => squash_of_mem_words hw, flatten_words]

end DeclDoc.Text
