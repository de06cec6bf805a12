import DeclDoc.Text.Bytes

/-! # Lines and columns

A `LineIndex` holds the byte offsets at which the lines of a text begin; a position is a line and a
column, both counted from one, the column in bytes. `starts_ne_nil`: the first line always begins.
-/

set_option autoImplicit false

namespace DeclDoc.Text

/-- A line and a column, counted from one. -/
structure Position where
  line : UInt32
  column : UInt32
deriving DecidableEq, Repr, Inhabited

/-- The offsets right after each line feed of a text that begins at `offset`. -/
def lineStartsAfter (offset : Nat) : List Char → List Nat
  | [] => []
  | c :: rest =>
    let next := offset + c.utf8Size
    if c = '\n' then next :: lineStartsAfter next rest else lineStartsAfter next rest

/-- Where the lines of a text begin, in ascending order. -/
structure LineIndex where
  starts : List Nat

namespace LineIndex

def ofText (s : List Char) : LineIndex := ⟨0 :: lineStartsAfter 0 s⟩

/-- The line that an offset lies on and its column there; an offset past the end of the text lies on
the last line. -/
def position (index : LineIndex) (offset : Nat) : Position :=
  let begun := index.starts.takeWhile (· ≤ offset)
  { line := UInt32.ofNat begun.length
    column := UInt32.ofNat (offset - begun.getLast?.getD 0 + 1) }

theorem starts_ne_nil (s : List Char) : (ofText s).starts ≠ [] := by simp [ofText]

end LineIndex

end DeclDoc.Text
