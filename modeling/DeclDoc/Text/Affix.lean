/-! # Affixes

Looking for a given text at the start, at the end or inside of another.
`afterPrefix?_eq_some_iff` and `beforeSuffix?_eq_some_iff`: what is taken off is exactly the affix.
-/

set_option autoImplicit false

namespace DeclDoc.Text

/-- What follows `affix` in a text that begins with it. -/
def afterPrefix? : (affix s : List Char) → Option (List Char)
  | [], s => some s
  | _ :: _, [] => none
  | a :: affix, c :: s => if a = c then afterPrefix? affix s else none

/-- What precedes `affix` in a text that ends with it. -/
def beforeSuffix? (affix s : List Char) : Option (List Char) :=
  (afterPrefix? affix.reverse s.reverse).map List.reverse

/-- What follows the first of `affixes` that the text begins with. -/
def afterAnyPrefix? (affixes : List (List Char)) (s : List Char) : Option (List Char) :=
  affixes.findSome? (afterPrefix? · s)

def startsWith (affix s : List Char) : Bool := (afterPrefix? affix s).isSome

def endsWith (affix s : List Char) : Bool := (beforeSuffix? affix s).isSome

/-- Whether `part` occurs somewhere in the text. -/
def contains (part : List Char) : List Char → Bool
  | [] => part.isEmpty
  | c :: rest => startsWith part (c :: rest) || contains part rest

theorem afterPrefix?_eq_some_iff {affix s rest : List Char} :
    afterPrefix? affix s = some rest ↔ s = affix ++ rest := by
  fun_induction afterPrefix? affix s with
  | case1 => simp [eq_comm]
  | case2 => simp
  | case3 a affix s ih => simp [ih]
  | case4 a affix c s h => simp [Ne.symm h]

theorem beforeSuffix?_eq_some_iff {affix s rest : List Char} :
    beforeSuffix? affix s = some rest ↔ s = rest ++ affix := by
  simp only [beforeSuffix?, Option.map_eq_some_iff, afterPrefix?_eq_some_iff]
  constructor
  · rintro ⟨t, ht, rfl⟩
    simpa using congrArg List.reverse ht
  · rintro rfl
    exact ⟨rest.reverse, by simp⟩

end DeclDoc.Text
