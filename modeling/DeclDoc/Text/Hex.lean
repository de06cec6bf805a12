/-! # Hexadecimal digits

Codes of characters as escapes write them, in lower case.
-/

set_option autoImplicit false

namespace DeclDoc.Text

def hexDigit (n : Nat) : Char := "0123456789abcdef".toList.getD n '0'

/-- A number below 256 with two digits. -/
def hexByte (n : Nat) : List Char := [hexDigit (n / 16), hexDigit (n % 16)]

/-- Two digits tell all numbers below 256 apart. -/
theorem hexByte_inj {m n : Nat} (hm : m < 256) (hn : n < 256) : hexByte m = hexByte n ↔ m = n := by
  have digit : ∀ a < 16, ∀ b < 16, hexDigit a = hexDigit b → a = b := by decide
  refine ⟨?_, fun h => h ▸ rfl⟩
  intro h
  simp only [hexByte, List.cons.injEq, and_true] at h
  have high := digit _ (by omega) _ (by omega) h.1
  have low := digit _ (by omega) _ (by omega) h.2
  omega

end DeclDoc.Text
