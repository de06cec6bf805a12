/-! # Blank characters, words and lines

`isBlank` is Unicode's White_Space property. Text is trimmed, cut into words and cut into lines:

* `mem_words`: a word is non-empty and free of blanks.
* `not_mem_of_mem_lines`: a line holds no line feed.
-/

set_option autoImplicit false

namespace DeclDoc.Text

/-- Unicode's White_Space property. -/
def isBlank (c : Char) : Bool :=
  let n := c.toNat
  (0x09 ≤ n && n ≤ 0x0D) || n == 0x20 || n == 0x85 || n == 0xA0 || n == 0x1680 ||
    (0x2000 ≤ n && n ≤ 0x200A) || n == 0x2028 || n == 0x2029 || n == 0x202F || n == 0x205F ||
    n == 0x3000

/-! ## Trimming -/

def trimStart (s : List Char) : List Char := s.dropWhile isBlank

def trimEnd (s : List Char) : List Char := (s.reverse.dropWhile isBlank).reverse

def trim (s : List Char) : List Char := trimEnd (trimStart s)

@[simp] theorem trim_nil : trim [] = [] := rfl

/-! ## Words -/

/-- The maximal runs of characters that are not blank. -/
def words : List Char → List (List Char)
  | [] => []
  | [c] => if isBlank c then [] else [[c]]
  | c :: d :: rest =>
    if isBlank c then words (d :: rest)
    else if isBlank d then [c] :: words (d :: rest)
    else
      match words (d :: rest) with
      | [] => [[c]]
      | w :: ws => (c :: w) :: ws

/-- Words with one character between each two. -/
def join (separator : Char) : List (List Char) → List Char
  | [] => []
  | [w] => w
  | w :: ws => w ++ separator :: join separator ws

/-- Every word is non-empty and free of blanks. -/
theorem mem_words {s w : List Char} (h : w ∈ words s) : w ≠ [] ∧ ∀ c ∈ w, isBlank c = false := by
  fun_induction words s generalizing w with
  | case1 => simp at h
  | case2 c hc => simp at h
  | case3 c hc => simp_all
  | case4 c d rest hc ih => exact ih h
  | case5 c d rest hc hd ih =>
    rcases List.mem_cons.1 h with rfl | h
    · simp_all
    · exact ih h
  | case6 c d rest hc hd hw ih => simp_all
  | case7 c d rest hc hd v vs hw ih =>
    rcases List.mem_cons.1 h with rfl | h
    · have := ih (w := v) (by simp [hw])
      simp_all
    · exact ih (by simp [hw, h])

/-! ## Lines -/

/-- Lines end at a line feed, which takes one carriage return right before it along; a final line
feed opens no further line. -/
def lines : List Char → List (List Char)
  | [] => []
  | '\n' :: rest => [] :: lines rest
  | '\r' :: '\n' :: rest => [] :: lines rest
  | c :: rest =>
    match lines rest with
    | [] => [[c]]
    | line :: more => (c :: line) :: more

/-- No line holds a line feed. -/
theorem not_mem_of_mem_lines {s line : List Char} (h : line ∈ lines s) : '\n' ∉ line := by
  fun_induction lines s generalizing line with
  | case1 => simp at h
  | case2 rest ih | case3 rest ih =>
    rcases List.mem_cons.1 h with rfl | h
    · simp
    · exact ih h
  | case4 c rest hn hr hl ih =>
    obtain rfl := List.mem_singleton.1 h
    simpa using Ne.symm hn
  | case5 c rest hn hr l ls hl ih =>
    rcases List.mem_cons.1 h with rfl | h
    · have := @ih l (by simp [hl])
      simpa [this] using Ne.symm hn
    · exact ih (by simp [hl, h])

end DeclDoc.Text
