import DeclDoc.Text.Hex

/-! # Text for a terminal

A text that is shown may come from anywhere, so the characters that could steer a terminal are written
as escapes.

* `steers_of_mem_inert`: none of them is left.
* `inert_eq_self_iff`: a text without them stays as it is, and no other text does.
-/

set_option autoImplicit false

namespace DeclDoc.Text

/-- Bell, backspace, form feed, escape, delete and the C1 controls: what can begin or end a command
to a terminal, or move its cursor back. -/
def steers (c : Char) : Bool :=
  c == '\x07' || c == '\x08' || c == '\x0c' || c == '\x1b' || (0x7f ≤ c.toNat && c.toNat ≤ 0x9f)

/-- The escape of a character that steers; beyond ASCII its code stands in braces. -/
def terminalEscape (c : Char) : List Char :=
  if c.toNat ≤ 0x7f then ['\\', 'x'] ++ hexByte c.toNat
  else ['\\', 'u', '{'] ++ hexByte c.toNat ++ ['}']

/-- A text with escapes for what steers. -/
def inert (s : List Char) : List Char :=
  s.flatMap fun c => if steers c then terminalEscape c else [c]

theorem steers_hexDigit (n : Nat) : steers (hexDigit n) = false := by
  by_cases h : n < 16
  · have : ∀ n < 16, steers (hexDigit n) = false := by decide
    exact this n h
  · have : hexDigit n = '0' := by
      simp only [hexDigit, List.getD_eq_getElem?_getD]
      rw [List.getElem?_eq_none (by simpa using h)]
      rfl
    rw [this]
    rfl

theorem steers_of_mem_hexByte {n : Nat} {c : Char} (h : c ∈ hexByte n) : steers c = false := by
  simp only [hexByte, List.mem_cons, List.not_mem_nil, or_false] at h
  obtain rfl | rfl := h <;> exact steers_hexDigit _

theorem steers_of_mem_terminalEscape {c d : Char} (h : d ∈ terminalEscape c) : steers d = false := by
  have short : ∀ d ∈ ['\\', 'x'], steers d = false := by simp [steers]
  have opening : ∀ d ∈ ['\\', 'u', '{'], steers d = false := by simp [steers]
  have closing : ∀ d ∈ ['}'], steers d = false := by simp [steers]
  unfold terminalEscape at h
  split at h
  · rcases List.mem_append.1 h with h | h
    · exact short d h
    · exact steers_of_mem_hexByte h
  · rcases List.mem_append.1 h with h | h
    · rcases List.mem_append.1 h with h | h
      · exact opening d h
      · exact steers_of_mem_hexByte h
    · exact closing d h

/-- What is left steers nothing. -/
theorem steers_of_mem_inert {s : List Char} {c : Char} (h : c ∈ inert s) : steers c = false := by
  obtain ⟨d, -, h⟩ := List.mem_flatMap.1 h
  split at h
  · exact steers_of_mem_terminalEscape h
  · next hd =>
    obtain rfl := List.mem_singleton.1 h
    simpa using hd

/-- Only a text that steers nothing stays as it is. -/
theorem inert_eq_self_iff {s : List Char} : inert s = s ↔ ∀ c ∈ s, steers c = false := by
  constructor
  · intro h c hc
    exact steers_of_mem_inert (h ▸ hc)
  · intro h
    induction s with
    | nil => rfl
    | cons c s ih =>
      have hs : inert s = s := ih fun d hd => h d (List.mem_cons_of_mem c hd)
      simp only [inert, List.flatMap_cons, h c List.mem_cons_self] at hs ⊢
      simp [hs]

end DeclDoc.Text
