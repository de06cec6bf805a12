/-! # Byte offsets in text

Offsets into a text count the bytes of its UTF-8 form. `splitBytes_append`: cutting a text at an
offset loses nothing.
-/

set_option autoImplicit false

namespace DeclDoc.Text

/-- Length of the UTF-8 form. -/
def byteLength : List Char → Nat
  | [] => 0
  | c :: rest => c.utf8Size + byteLength rest

@[simp] theorem byteLength_nil : byteLength [] = 0 := rfl

@[simp] theorem byteLength_cons (c : Char) (s : List Char) :
    byteLength (c :: s) = c.utf8Size + byteLength s := rfl

@[simp] theorem byteLength_append (s t : List Char) :
    byteLength (s ++ t) = byteLength s + byteLength t := by
  induction s with
  | nil => simp
  | cons c s ih => simp [ih, Nat.add_assoc]

theorem length_le_byteLength (s : List Char) : s.length ≤ byteLength s := by
  induction s with
  | nil => simp
  | cons c s ih =>
    have := c.utf8Size_pos
    simp only [List.length_cons, byteLength_cons]
    omega

/-- The characters that begin in the first `n` bytes. -/
def takeBytes (n : Nat) : List Char → List Char
  | [] => []
  | c :: rest => if n = 0 then [] else c :: takeBytes (n - c.utf8Size) rest

/-- What follows `takeBytes n`. -/
def dropBytes (n : Nat) : List Char → List Char
  | [] => []
  | c :: rest => if n = 0 then c :: rest else dropBytes (n - c.utf8Size) rest

/-- The text from byte `start` up to byte `stop`. -/
def slice (start stop : Nat) (s : List Char) : List Char :=
  takeBytes (stop - start) (dropBytes start s)

theorem splitBytes_append (n : Nat) (s : List Char) : takeBytes n s ++ dropBytes n s = s := by
  induction s generalizing n with
  | nil => rfl
  | cons c s ih => by_cases h : n = 0 <;> simp [takeBytes, dropBytes, h, ih]

theorem takeBytes_byteLength_append (s t : List Char) : takeBytes (byteLength s) (s ++ t) = s := by
  induction s with
  | nil => cases t <;> simp [takeBytes]
  | cons c s ih =>
    have := c.utf8Size_pos
    simp only [List.cons_append, byteLength_cons, takeBytes]
    rw [if_neg (by omega), Nat.add_sub_cancel_left, ih]

theorem dropBytes_byteLength_append (s t : List Char) : dropBytes (byteLength s) (s ++ t) = t := by
  induction s with
  | nil => cases t <;> simp [dropBytes]
  | cons c s ih =>
    have := c.utf8Size_pos
    simp only [List.cons_append, byteLength_cons, dropBytes]
    rw [if_neg (by omega), Nat.add_sub_cancel_left, ih]

end DeclDoc.Text
