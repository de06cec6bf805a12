import DeclDoc.SourceFile
import Mathlib.Algebra.GroupWithZero.Nat
import Mathlib.Data.List.TakeWhile

/-!
# Positions in the order of offsets

A text shorter than `2 ^ 32 - 1` bytes has no more lines and no longer ones than a position can
tell. In such a text a later offset has a later position (`SourceFile.location_lt`): it stands on a
later line, or on the same line in a later column.
-/

set_option autoImplicit false

namespace DeclDoc

namespace Text

theorem length_lineStartsAfter_le (offset : Nat) (s : List Char) :
    (lineStartsAfter offset s).length ≤ byteLength s := by
  induction s generalizing offset with
  | nil => simp [lineStartsAfter]
  | cons c s ih =>
    have hpos := c.utf8Size_pos
    have hrest := ih (offset + c.utf8Size)
    simp only [lineStartsAfter, byteLength_cons]
    split
    · simp only [List.length_cons]
      omega
    · omega

namespace LineIndex

/-- The lines that have begun at an offset. -/
def begun (index : LineIndex) (offset : Nat) : List Nat := index.starts.takeWhile (· ≤ offset)

theorem position_eq (index : LineIndex) (offset : Nat) :
    index.position offset =
      ⟨UInt32.ofNat (index.begun offset).length,
        UInt32.ofNat (offset - (index.begun offset).getLast?.getD 0 + 1)⟩ := rfl

theorem length_begun_le (s : List Char) (offset : Nat) :
    ((ofText s).begun offset).length ≤ byteLength s + 1 := by
  have htake : ((ofText s).begun offset).length ≤ (ofText s).starts.length :=
    (List.takeWhile_sublist _).length_le
  have hlines : (ofText s).starts.length = (lineStartsAfter 0 s).length + 1 := rfl
  have hstarts := length_lineStartsAfter_le 0 s
  omega

/-- The line that an offset lies on begins there or before. -/
theorem getLast?_begun_le (index : LineIndex) (offset : Nat) :
    (index.begun offset).getLast?.getD 0 ≤ offset := by
  cases h : (index.begun offset).getLast? with
  | none => exact Nat.zero_le _
  | some start => simpa using List.mem_takeWhile_imp (List.mem_of_getLast? h)

/-- Lines that have begun at an offset have begun at later ones. -/
theorem begun_prefix (index : LineIndex) {a b : Nat} (h : a ≤ b) :
    index.begun a <+: index.begun b := by
  have heq : index.begun a = (index.begun b).takeWhile (· ≤ a) := by
    unfold begun
    rw [List.takeWhile_takeWhile]
    congr 1
    funext start
    simp only [decide_eq_decide, decide_eq_true_eq]
    omega
  rw [heq]
  exact List.takeWhile_prefix _

/-- A later offset lies on a later line, or behind on the same. -/
theorem begun_lt_or_eq (index : LineIndex) {a b : Nat} (h : a ≤ b) :
    (index.begun a).length < (index.begun b).length ∨ index.begun a = index.begun b := by
  have hbegun := index.begun_prefix h
  rcases Nat.lt_or_ge (index.begun a).length (index.begun b).length with hlt | hge
  · exact .inl hlt
  · exact .inr (hbegun.eq_of_length_le hge)

end LineIndex

end Text

/-- Numbers that fit are in the order of the numbers that they stand for. -/
theorem compare_ofNat_lt {a b : Nat} (h : a < b) (hb : b < 2 ^ 32) :
    compare (UInt32.ofNat a) (UInt32.ofNat b) = .lt := by
  have hlt : UInt32.ofNat a < UInt32.ofNat b := by
    rw [UInt32.lt_iff_toNat_lt, UInt32.toNat_ofNat_of_lt' (by simpa using Nat.lt_trans h hb),
      UInt32.toNat_ofNat_of_lt' (by simpa using hb)]
    exact h
  exact compareOfLessAndEq_eq_lt.2 hlt

namespace SourceFile

open Text

/-- In a text that is not too long, a later offset has a later location. -/
theorem location_lt (path : String) {source : List Char} {a b : Nat} (h : a < b)
    (hb : b ≤ byteLength source) (hsize : byteLength source < 2 ^ 32 - 1) :
    compare ((ofText path source).location a) ((ofText path source).location b) = .lt := by
  have hlines := LineIndex.length_begun_le source b
  have hstart := (LineIndex.ofText source).getLast?_begun_le a
  have hpositions :
      (compare ((LineIndex.ofText source).position a).line
        ((LineIndex.ofText source).position b).line).then
        (compare ((LineIndex.ofText source).position a).column
          ((LineIndex.ofText source).position b).column) = .lt := by
    rw [LineIndex.position_eq, LineIndex.position_eq]
    rcases (LineIndex.ofText source).begun_lt_or_eq (Nat.le_of_lt h) with hlt | heq
    · rw [compare_ofNat_lt hlt (by omega)]
      rfl
    · rw [heq] at hstart ⊢
      rw [Std.ReflOrd.compare_self, compare_ofNat_lt (by omega) (by omega)]
      rfl
  show (compare path path).then _ = .lt
  rw [Std.ReflOrd.compare_self]
  exact hpositions

end SourceFile

end DeclDoc
