import DeclDoc.Declaration.Bracket

/-! # Spans at bracket depth zero

A span reaches to the first token outside of all brackets at which it has to stop; a list is cut at
the commas outside of all brackets. A closing bracket too many changes nothing.

* `spanTop_append`: a span and the code after it are the code.
* `stop_of_spanTop`: a span stops only where it may.
-/

set_option autoImplicit false

namespace DeclDoc.Declaration

/-- Which tokens go one bracket deeper, and which come back. -/
structure Nesting where
  opens : Token → Bool
  closes : Token → Bool

namespace Nesting

/-- Parentheses and square brackets. -/
def arguments : Nesting where
  opens token := token == .openParen || token == .openBracket
  closes token := token == .closeParen || token == .closeBracket

/-- All brackets, braces included. -/
def initializers : Nesting where
  opens token := token == .openParen || token == .openBracket || token == .openBrace
  closes token := token == .closeParen || token == .closeBracket || token == .closeBrace

/-- The depth after a token. -/
def depthAfter (nesting : Nesting) (depth : Nat) (token : Token) : Nat :=
  if nesting.opens token then depth + 1
  else if nesting.closes token then depth - 1
  else depth

end Nesting

/-- The tokens up to the first one at depth zero that `stop` holds of, and the code from there on. -/
def spanTop (nesting : Nesting) (stop : Token → Bool) (depth : Nat) : Code → Code × Code
  | [] => ([], [])
  | t :: rest =>
    if depth = 0 ∧ stop t.token then ([], t :: rest)
    else
      let after := spanTop nesting stop (nesting.depthAfter depth t.token) rest
      (t :: after.1, after.2)

theorem spanTop_append (nesting : Nesting) (stop : Token → Bool) (depth : Nat) (code : Code) :
    (spanTop nesting stop depth code).1 ++ (spanTop nesting stop depth code).2 = code := by
  induction code generalizing depth with
  | nil => rfl
  | cons t rest ih => by_cases h : depth = 0 ∧ stop t.token <;> simp [spanTop, h, ih]

theorem spanTop_suffix (nesting : Nesting) (stop : Token → Bool) (depth : Nat) (code : Code) :
    (spanTop nesting stop depth code).2 <:+ code :=
  ⟨_, spanTop_append nesting stop depth code⟩

theorem length_spanTop_le (nesting : Nesting) (stop : Token → Bool) (depth : Nat) (code : Code) :
    (spanTop nesting stop depth code).2.length ≤ code.length :=
  (spanTop_suffix nesting stop depth code).length_le

/-- What a span stops at is a token to stop at. -/
theorem stop_of_spanTop {nesting : Nesting} {stop : Token → Bool} {depth : Nat}
    {code rest : Code} {t : CodeToken} (h : (spanTop nesting stop depth code).2 = t :: rest) :
    stop t.token = true := by
  induction code generalizing depth with
  | nil => simp [spanTop] at h
  | cons u more ih =>
    by_cases hd : depth = 0 ∧ stop u.token
    · simp [spanTop, hd] at h
      exact h.1 ▸ hd.2
    · simp only [spanTop, hd, if_false] at h
      exact ih h

/-- The code before the first comma at depth zero, and the code between each two such commas. -/
def splitCommas (nesting : Nesting) (code : Code) : List Code :=
  match _rest : (spanTop nesting (· == .comma) 0 code).2 with
  | [] => [(spanTop nesting (· == .comma) 0 code).1]
  | _ :: more => (spanTop nesting (· == .comma) 0 code).1 :: splitCommas nesting more
termination_by code.length
decreasing_by
  have := length_spanTop_le nesting (· == .comma) 0 code
  simp only [_rest, List.length_cons] at this
  omega

theorem splitCommas_ne_nil (nesting : Nesting) (code : Code) : splitCommas nesting code ≠ [] := by
  rw [splitCommas]
  split <;> simp

/-- Tokens that end the head of a declaration: a terminator or what interrupts it. -/
def endsHead : Token → Bool
  | .semicolon | .openBrace | .atKeyword | .directive | .closeBrace => true
  | _ => false

/-- The head of the declaration that the code begins with, and the code from its end on. -/
def spanHead (code : Code) : Code × Code := spanTop .arguments endsHead 0 code

/-- The code without the semicolon it begins with, if it does. -/
def dropSemicolon (code : Code) : Code := if code.nextIs .semicolon then code.tail else code

theorem dropSemicolon_suffix (code : Code) : dropSemicolon code <:+ code := by
  unfold dropSemicolon
  split
  · exact List.tail_suffix code
  · exact List.suffix_rfl

end DeclDoc.Declaration
