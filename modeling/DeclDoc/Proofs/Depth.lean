import DeclDoc.Proofs.Nested
import Mathlib.Data.List.Induction

/-!
# The depth of a span

A span counts brackets and is at depth zero again when as many of them are closed as were opened, of
whatever form. It goes on over any code in which nothing stops it at depth zero
(`spanTop_append_of_depth`). Where each form of brackets is paired for itself, the depth is the number
of brackets that are open, whichever way the forms lie in each other (`depthOver_eq_excess`).
-/

set_option autoImplicit false

namespace DeclDoc.Declaration

variable {bracket : Bracket} {nesting : Nesting} {stop : Token → Bool} {t p q : CodeToken}
  {code front back rest : Code} {depth : Nat}

/-! ## Depths -/

/-- The depth behind code that begins at a depth. -/
def Nesting.depthOver (nesting : Nesting) (depth : Nat) (code : Code) : Nat :=
  code.foldl (fun depth t => nesting.depthAfter depth t.token) depth

theorem Nesting.depthOver_append (nesting : Nesting) (depth : Nat) (front back : Code) :
    nesting.depthOver depth (front ++ back) =
      nesting.depthOver (nesting.depthOver depth front) back :=
  List.foldl_append

/-- What a span stops at stands at depth zero. -/
theorem depthOver_of_spanTop (h : (spanTop nesting stop depth code).2 = t :: rest) :
    nesting.depthOver depth (spanTop nesting stop depth code).1 = 0 := by
  induction code generalizing depth with
  | nil => cases h
  | cons u code ih =>
    by_cases hstop : depth = 0 ∧ stop u.token
    · rw [spanTop, if_pos hstop]
      exact hstop.1
    · rw [spanTop, if_neg hstop] at h ⊢
      exact ih h

/-- A span that stops within the code stops there before any other. -/
theorem spanTop_append_of_stop (h : (spanTop nesting stop depth code).2 = t :: rest) (back : Code) :
    spanTop nesting stop depth (code ++ back) =
      ((spanTop nesting stop depth code).1, t :: (rest ++ back)) := by
  induction code generalizing depth with
  | nil => cases h
  | cons u code ih =>
    by_cases hstop : depth = 0 ∧ stop u.token
    · rw [spanTop, if_pos hstop] at h
      obtain ⟨rfl, rfl⟩ := List.cons.inj h
      rw [List.cons_append, spanTop, if_pos hstop, spanTop, if_pos hstop]
    · rw [spanTop, if_neg hstop] at h
      rw [List.cons_append, spanTop, if_neg hstop, spanTop, if_neg hstop]
      simp only [ih h]

/-- A span that does not stop within the code goes on behind it, as deep as the code leaves it. -/
theorem spanTop_append_of_nil (h : (spanTop nesting stop depth code).2 = []) (rest : Code) :
    spanTop nesting stop depth (code ++ rest) =
      (code ++ (spanTop nesting stop (nesting.depthOver depth code) rest).1,
        (spanTop nesting stop (nesting.depthOver depth code) rest).2) := by
  induction code generalizing depth with
  | nil => rfl
  | cons u code ih =>
    by_cases hstop : depth = 0 ∧ stop u.token
    · rw [spanTop, if_pos hstop] at h
      cases h
    · rw [spanTop, if_neg hstop] at h
      rw [List.cons_append, spanTop, if_neg hstop]
      simp only [ih h]
      rfl

/-- A span goes on over code in which nothing stops it at depth zero. -/
theorem spanTop_append_of_depth
    (h : ∀ front t back, code = front ++ t :: back → stop t.token = true →
      nesting.depthOver depth front ≠ 0) (rest : Code) :
    spanTop nesting stop depth (code ++ rest) =
      (code ++ (spanTop nesting stop (nesting.depthOver depth code) rest).1,
        (spanTop nesting stop (nesting.depthOver depth code) rest).2) := by
  refine spanTop_append_of_nil ?_ rest
  cases hspan : (spanTop nesting stop depth code).2 with
  | nil => rfl
  | cons t back =>
    have happ := spanTop_append nesting stop depth code
    rw [hspan] at happ
    exact absurd (depthOver_of_spanTop hspan) (h _ t back happ.symm (stop_of_spanTop hspan))

/-! ## Open brackets -/

/-- How many more brackets of this form are opened in the code than closed. -/
def Bracket.excess (bracket : Bracket) (code : Code) : Int :=
  code.countP (·.token = bracket.opening) - code.countP (·.token = bracket.closing)

theorem Bracket.excess_append (bracket : Bracket) (front back : Code) :
    bracket.excess (front ++ back) = bracket.excess front + bracket.excess back := by
  simp only [excess, List.countP_append]
  omega

theorem Bracket.excess_cons (bracket : Bracket) (t : CodeToken) (code : Code) :
    bracket.excess (t :: code) = bracket.excess [t] + bracket.excess code :=
  bracket.excess_append [t] code

theorem Bracket.excess_opening (h : p.token = bracket.opening) : bracket.excess [p] = 1 := by
  simp [excess, h, (bracket.closing_ne_opening bracket).symm]

theorem Bracket.excess_closing (h : q.token = bracket.closing) : bracket.excess [q] = -1 := by
  simp [excess, h, bracket.closing_ne_opening bracket]

theorem Bracket.excess_neither (hopen : t.token ≠ bracket.opening)
    (hclose : t.token ≠ bracket.closing) : bracket.excess [t] = 0 := by
  simp [excess, hopen, hclose]

/-- Paired code closes as many brackets as it opens, and no beginning of it closes more. -/
theorem IsPaired.excess (h : IsPaired bracket code) :
    bracket.excess code = 0 ∧ ∀ front back, code = front ++ back → 0 ≤ bracket.excess front := by
  induction h with
  | nil =>
    refine ⟨rfl, fun front back heq => ?_⟩
    obtain ⟨rfl, -⟩ := List.append_eq_nil_iff.1 heq.symm
    exact Int.le_refl 0
  | @token t code hopen hclose _ ih =>
    have ht := Bracket.excess_neither hopen hclose
    refine ⟨by rw [Bracket.excess_cons, ht, ih.1, Int.add_zero], fun front back heq => ?_⟩
    cases front with
    | nil => exact Int.le_refl 0
    | cons u front =>
      obtain ⟨rfl, rfl⟩ := List.cons.inj heq
      rw [Bracket.excess_cons, ht, Int.zero_add]
      exact ih.2 front back rfl
  | @group p q inside code hp _ hq _ ihInside ih =>
    have hopened := Bracket.excess_opening hp
    have hclosed := Bracket.excess_closing hq
    refine ⟨?_, fun front back heq => ?_⟩
    · rw [List.cons_append, Bracket.excess_cons, Bracket.excess_append, Bracket.excess_cons _ q,
        hopened, hclosed, ihInside.1, ih.1]
      rfl
    cases front with
    | nil => exact Int.le_refl 0
    | cons u front =>
      obtain ⟨rfl, hrest⟩ := List.cons.inj heq
      rw [Bracket.excess_cons, hopened]
      rcases List.append_eq_append_iff.1 hrest with ⟨tail, hfront, htail⟩ | ⟨tail, hinside, -⟩
      · -- the beginning reaches to the closing bracket, or behind it
        rw [hfront, Bracket.excess_append, ihInside.1]
        cases tail with
        | nil => exact Int.zero_le_ofNat 1
        | cons v tail =>
          obtain ⟨rfl, rfl⟩ := List.cons.inj htail
          have := ih.2 tail back rfl
          rw [Bracket.excess_cons, hclosed]
          omega
      · have := ihInside.2 front tail hinside
        omega

/-- A token changes the depth by what it opens or closes, where there is something to close. -/
theorem depthAfter_initializers (depth : Nat) (t : CodeToken)
    (h : 0 ≤ (depth : Int) + (Bracket.paren.excess [t] + Bracket.square.excess [t] +
      Bracket.brace.excess [t])) :
    (Nesting.initializers.depthAfter depth t.token : Int) =
      depth + (Bracket.paren.excess [t] + Bracket.square.excess [t] + Bracket.brace.excess [t]) := by
  simp only [Bracket.excess, List.countP_singleton, decide_eq_true_eq] at h ⊢
  cases htoken : t.token <;>
    simp [Bracket.opening, Bracket.closing, Nesting.depthAfter, Nesting.initializers, htoken] at h ⊢
      <;> omega

/-- Where no form is closed more often than it is opened, the depth is the number of all brackets that
are open. -/
theorem depthOver_eq_excess
    (h : ∀ front back, code = front ++ back → ∀ bracket : Bracket, 0 ≤ bracket.excess front) :
    (Nesting.initializers.depthOver 0 code : Int) =
      Bracket.paren.excess code + Bracket.square.excess code + Bracket.brace.excess code := by
  induction code using List.reverseRecOn with
  | nil => rfl
  | append_singleton code t ih =>
    have ih := ih fun front back heq => h front (back ++ [t]) (by rw [heq, List.append_assoc])
    have hbehind (bracket : Bracket) : 0 ≤ bracket.excess code + bracket.excess [t] := by
      rw [← Bracket.excess_append]
      exact h (code ++ [t]) [] (List.append_nil _).symm bracket
    have hparen := hbehind .paren
    have hsquare := hbehind .square
    have hbrace := hbehind .brace
    have hdepth : Nesting.initializers.depthOver 0 (code ++ [t]) =
        Nesting.initializers.depthAfter (Nesting.initializers.depthOver 0 code) t.token :=
      List.foldl_concat ..
    rw [hdepth, depthAfter_initializers _ t (by omega), ih]
    simp only [Bracket.excess_append]
    omega

end DeclDoc.Declaration
