import DeclDoc.Declaration.Word
import DeclDoc.Proofs.Positional.Table

/-!
# Loops over positions

A loop goes from position to position below a limit, and one that does not come further is a crash.
The laws of a loop are its equations at the tokens of a table: at a token where it is left
(`each_leave`), at one behind which it goes on (`each_again`), and at its limit (`each_limit`).
`findWord_pos`, `findToken_pos`: a search through a range comes to the first token it looks for.
-/

set_option autoImplicit false

namespace DeclDoc.Positional

open Declaration

/-- What an iteration comes to: the loop is left, or goes on at another position. -/
inductive Turn (σ ρ : Type) where
  | leave (result : ρ)
  | again (state : σ) (next : Nat)

section

variable {σ ρ : Type}

/-- Iterations at positions below `limit`; `atEnd` is what the loop comes to there. -/
def loop (limit : Nat) (atEnd : σ → Nat → ρ) (body : σ → Nat → Except Crash (Turn σ ρ)) (state : σ)
    (i : Nat) : Except Crash ρ :=
  if i < limit then do
    match ← body state i with
    | .leave result => .ok result
    | .again state next => if i < next then loop limit atEnd body state next else .error .stuck
  else .ok (atEnd state i)
termination_by limit - i

namespace Scanner

variable (s : Scanner)

/-- A loop over the tokens below `limit`. -/
def each (limit : Nat) (atEnd : σ → Nat → ρ) (body : σ → Tok → Nat → Except Crash (Turn σ ρ))
    (state : σ) (i : Nat) : Except Crash ρ :=
  loop limit atEnd (fun state i => do body state (← s.tok i) i) state i

/-- A loop as long as there are tokens. -/
def eachLeft (atEnd : σ → Nat → ρ) (body : σ → Tok → Nat → Except Crash (Turn σ ρ)) (state : σ)
    (i : Nat) : Except Crash ρ :=
  s.each s.toks.length atEnd body state i

/-- A loop backwards over the tokens from `first` on. -/
def eachBack (first : Nat) (atEnd : σ → Nat → ρ) (body : σ → Tok → Nat → Except Crash (σ ⊕ ρ)) :
    σ → Nat → Except Crash ρ
  | state, 0 => .ok (atEnd state 0)
  | state, i + 1 =>
    if first ≤ i then do
      match ← body state (← s.tok i) i with
      | .inl state => eachBack first atEnd body state i
      | .inr result => .ok result
    else .ok (atEnd state (i + 1))

/-- The first position below `limit` of a token that `p` holds of. -/
def find? (limit : Nat) (p : Tok → Nat → Except Crash Bool) (i : Nat) : Except Crash (Option Nat) :=
  s.each limit (fun _ _ => none)
    (fun _ t i => do pure (if ← p t i then .leave (some i) else .again () (i + 1))) () i

/-- The first of `words` in a range. -/
def findWord (words : List String) (start stop : Nat) : Except Crash (Option Nat) :=
  s.find? stop (fun _ i => s.isWordOf i words) start

/-- The first token of a kind in a range. -/
def findToken (token : Token) (start stop : Nat) : Except Crash (Option Nat) :=
  s.find? stop (fun t _ => .ok (t.token == token)) start

/-- There is a token of a kind at a position below `limit`. -/
def isTokenBelow (limit i : Nat) (token : Token) : Except Crash Bool :=
  if i < limit then do
    let t ← s.tok i
    pure (t.token == token)
  else pure false

/-! ## Equations -/

variable {s} {limit : Nat} {atEnd : σ → Nat → ρ} {body : σ → Tok → Nat → Except Crash (Turn σ ρ)}
  {state : σ} {result : ρ} {full : Code}

theorem each_limit {i : Nat} (hi : limit ≤ i) :
    s.each limit atEnd body state i = .ok (atEnd state i) := by
  rw [each, loop, if_neg (by omega)]

/-- At the token of a position the loop is left. -/
theorem each_leave_of_tok {t : Tok} {i : Nat} (ht : s.tok i = .ok t) (hi : i < limit)
    (hbody : body state t i = .ok (.leave result)) :
    s.each limit atEnd body state i = .ok result := by
  rw [each, loop, if_pos hi, ht, ok_bind, hbody]
  rfl

/-- Behind the token of a position the loop goes on. -/
theorem each_again_of_tok {t : Tok} {i next : Nat} (after : σ) (ht : s.tok i = .ok t) (hi : i < limit)
    (hnext : i < next) (hbody : body state t i = .ok (.again after next)) :
    s.each limit atEnd body state i = s.each limit atEnd body after next := by
  conv => lhs; rw [each, loop, if_pos hi, ht, ok_bind, hbody, ok_bind]
  exact if_pos hnext

theorem eachLeft_nil : s.eachLeft atEnd body state (s.pos []) = .ok (atEnd state (s.pos [])) :=
  each_limit (Nat.le_refl _)

theorem eachBack_first {first i : Nat} {back : σ → Tok → Nat → Except Crash (σ ⊕ ρ)}
    (hi : i ≤ first) : s.eachBack first atEnd back state i = .ok (atEnd state i) := by
  cases i with
  | zero => rfl
  | succ i => rw [eachBack, if_neg (by omega)]

namespace Has

variable (h : s.Has full) {t : CodeToken} {rest behind : Code}

include h

theorem each_leave (hrest : t :: rest <:+ full) (hlimit : s.pos (t :: rest) < limit)
    (hbody : body state (.ofCode t) (s.pos (t :: rest)) = .ok (.leave result)) :
    s.each limit atEnd body state (s.pos (t :: rest)) = .ok result :=
  each_leave_of_tok (h.tok_pos hrest) hlimit hbody

theorem each_again (next : σ) (hrest : t :: rest <:+ full) (hlimit : s.pos (t :: rest) < limit)
    (hbehind : behind <:+ rest)
    (hbody : body state (.ofCode t) (s.pos (t :: rest)) = .ok (.again next (s.pos behind))) :
    s.each limit atEnd body state (s.pos (t :: rest)) =
      s.each limit atEnd body next (s.pos behind) :=
  each_again_of_tok next (h.tok_pos hrest) hlimit (h.pos_lt hrest hbehind) hbody

theorem pos_lt_length (hrest : t :: rest <:+ full) : s.pos (t :: rest) < s.toks.length :=
  h.pos_lt hrest List.nil_suffix

theorem eachLeft_leave (hrest : t :: rest <:+ full)
    (hbody : body state (.ofCode t) (s.pos (t :: rest)) = .ok (.leave result)) :
    s.eachLeft atEnd body state (s.pos (t :: rest)) = .ok result :=
  h.each_leave hrest (h.pos_lt_length hrest) hbody

theorem eachLeft_again (next : σ) (hrest : t :: rest <:+ full) (hbehind : behind <:+ rest)
    (hbody : body state (.ofCode t) (s.pos (t :: rest)) = .ok (.again next (s.pos behind))) :
    s.eachLeft atEnd body state (s.pos (t :: rest)) = s.eachLeft atEnd body next (s.pos behind) :=
  h.each_again next hrest (h.pos_lt_length hrest) hbehind hbody

section

variable {first : Nat} {back : σ → Tok → Nat → Except Crash (σ ⊕ ρ)}

theorem eachBack_again (next : σ) (hrest : t :: rest <:+ full) (hfirst : first ≤ s.pos (t :: rest))
    (hback : back state (.ofCode t) (s.pos (t :: rest)) = .ok (.inl next)) :
    s.eachBack first atEnd back state (s.pos rest) =
      s.eachBack first atEnd back next (s.pos (t :: rest)) := by
  rw [← h.pos_cons hrest, eachBack, if_pos hfirst, h.tok_pos hrest, ok_bind, hback]
  rfl

theorem eachBack_leave (hrest : t :: rest <:+ full) (hfirst : first ≤ s.pos (t :: rest))
    (hback : back state (.ofCode t) (s.pos (t :: rest)) = .ok (.inr result)) :
    s.eachBack first atEnd back state (s.pos rest) = .ok result := by
  rw [← h.pos_cons hrest, eachBack, if_pos hfirst, h.tok_pos hrest, ok_bind, hback]
  rfl

end

/-! ## Searches -/

/-- Where a part of the code ends from its first token on. -/
theorem pos_lt_append {mid : Code} (hmid : t :: (mid ++ rest) <:+ full) :
    s.pos (t :: (mid ++ rest)) < s.pos rest :=
  h.pos_lt hmid (List.suffix_append ..)

theorem isTokenBelow_pos (token : Token) {mid : Code} (hmid : mid ++ rest <:+ full) :
    s.isTokenBelow (s.pos rest) (s.pos (mid ++ rest)) token = .ok (mid.nextIs token) := by
  cases mid with
  | nil => exact if_neg (Nat.lt_irrefl _)
  | cons t mid =>
    rw [List.cons_append] at hmid ⊢
    rw [isTokenBelow, if_pos (h.pos_lt_append hmid), h.tok_pos hmid]
    rfl

theorem find?_pos {p : Tok → Nat → Except Crash Bool} {q : CodeToken → Bool}
    (hp : ∀ t behind, t :: behind <:+ full → p (.ofCode t) (s.pos (t :: behind)) = .ok (q t))
    {mid : Code} (hmid : mid ++ rest <:+ full) :
    s.find? (s.pos rest) p (s.pos (mid ++ rest)) =
      .ok (match mid.dropWhile (!q ·) with
        | [] => none
        | t :: found => some (s.pos (t :: (found ++ rest)))) := by
  induction mid with
  | nil => exact each_limit (Nat.le_refl _)
  | cons t mid ih =>
    rw [List.cons_append] at hmid ⊢
    rw [List.dropWhile_cons]
    have hp := hp t (mid ++ rest) hmid
    have hlimit := h.pos_lt_append hmid
    by_cases hq : q t
    · exact h.each_leave hmid hlimit (by simp [hp, hq])
    · refine (h.each_again () hmid hlimit List.suffix_rfl ?_).trans ?_
      · simp [hp, hq, h.pos_cons hmid]
      · rw [if_pos (by simpa using hq)]
        exact ih ((List.suffix_cons t _).trans hmid)

theorem findToken_pos (token : Token) {mid : Code} (hmid : mid ++ rest <:+ full) :
    s.findToken token (s.pos (mid ++ rest)) (s.pos rest) =
      .ok (if mid.any (·.token == token) then some (s.pos (mid.dropWhile (·.token != token) ++ rest))
        else none) := by
  have hfind : s.findToken token (s.pos (mid ++ rest)) (s.pos rest) = _ :=
    h.find?_pos (q := (·.token == token)) (fun _ _ _ => rfl) hmid
  rw [hfind]
  change Except.ok (match mid.dropWhile (·.token != token) with | [] => _ | t :: found => _) = _
  have hnil : mid.dropWhile (·.token != token) = [] ↔ mid.any (·.token == token) = false := by
    simp [List.dropWhile_eq_nil_iff]
  cases hfound : mid.dropWhile (·.token != token) with
  | nil => rw [hnil.1 hfound]; rfl
  | cons t found =>
    rw [if_pos]
    · rfl
    · by_contra hnone
      rw [hnil.2 (by simpa using hnone)] at hfound
      cases hfound

theorem findWord_pos (words : List String) {mid : Code} (hmid : mid ++ rest <:+ full) :
    s.findWord words (s.pos (mid ++ rest)) (s.pos rest) =
      .ok ((findWord? words mid).map fun (t, after) => s.pos (t :: (after ++ rest))) := by
  have hfind := h.find?_pos (p := fun _ i => s.isWordOf i words) (q := (·.isWordOf words))
    (fun _ _ hcode => h.isWordOf_pos hcode words) hmid
  have hwords : ∀ code : Code, findWord? words code =
      match code.dropWhile (!CodeToken.isWordOf · words) with
      | [] => none
      | t :: found => some (t, found) := by
    intro code
    induction code with
    | nil => rfl
    | cons t rest ih =>
      rw [findWord?, List.dropWhile_cons]
      by_cases ht : t.isWordOf words <;> simp [ht, ih]
  rw [findWord, hfind, hwords]
  split <;> rfl

end Has

end Scanner

end

end DeclDoc.Positional
