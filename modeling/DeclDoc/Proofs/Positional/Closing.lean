import DeclDoc.Proofs.Depth
import DeclDoc.Proofs.Positional.Group
import Mathlib.Order.Bounds.Image

/-!
# Where groups close

A group closes at the first position up to which as many brackets of its form are closed as opened,
counted from its opening bracket on (`Bracket.evened`, `Bracket.isFirst_close?`): the depth at which a
token stands is by how many more are opened before it.

`Scanner.matchers_agree`: looking for the end of a group comes there from any bracket of any tokens,
skipping the group comes right behind, and neither counts below zero.
-/

set_option autoImplicit false

namespace DeclDoc

open Declaration

/-- What is found is the least of some positions, and nothing where there is none. -/
inductive IsFirst (positions : Set Nat) : Option Nat → Prop
  | found {i : Nat} (h : IsLeast positions i) : IsFirst positions (some i)
  | missing (h : positions = ∅) : IsFirst positions none

namespace IsFirst

variable {positions : Set Nat} {found : Option Nat}

theorem image {f : Nat → Nat} (hf : Monotone f) (h : IsFirst positions found) :
    IsFirst (f '' positions) (found.map f) := by
  cases h with
  | found h => exact .found (hf.map_isLeast h)
  | missing h => exact .missing (by rw [h, Set.image_empty])

theorem eq_some_iff (h : IsFirst positions found) (i : Nat) :
    found = some i ↔ IsLeast positions i := by
  cases h with
  | found h => exact ⟨fun hi => Option.some.inj hi ▸ h, fun hi => congrArg some (h.unique hi)⟩
  | missing h => exact ⟨nofun, fun hi => absurd hi.1 (h ▸ Set.notMem_empty i)⟩

theorem eq_none_iff (h : IsFirst positions found) : found = none ↔ positions = ∅ := by
  cases h with
  | found h => exact ⟨nofun, fun hempty => absurd h.1 (hempty ▸ Set.notMem_empty _)⟩
  | missing h => exact ⟨fun _ => h, fun _ => rfl⟩

end IsFirst

/-! ## Counting brackets -/

namespace Declaration.Bracket

variable {bracket : Bracket} {t : CodeToken} {code rest : Code} {depth start limit : Nat}

/-- The positions from `start` on and below `limit` up to which as many brackets of this form are
closed as opened. -/
def evened (bracket : Bracket) (code : Code) (start limit : Nat) : Set Nat :=
  {i | (start ≤ i ∧ i < limit ∧ i < code.length) ∧
    ((code.take (i + 1)).drop start).countP (·.token = bracket.closing) =
      ((code.take (i + 1)).drop start).countP (·.token = bracket.opening)}

/-- The positions up to which `depth` more brackets of this form are closed than opened. -/
def overclosed (bracket : Bracket) (depth : Nat) (code : Code) : Set Nat :=
  {i | i < code.length ∧ bracket.excess (code.take (i + 1)) = -depth}

/-- Positions are counted from where the counting of brackets begins. -/
theorem evened_append (bracket : Bracket) (front code : Code) (limit : Nat) :
    bracket.evened (front ++ code) front.length limit =
      (front.length + ·) '' bracket.overclosed 0 (code.take (limit - front.length)) := by
  have hpart {j : Nat} (hj : front.length + j < limit) :
      (code.take (limit - front.length)).take (j + 1) =
        ((front ++ code).take (front.length + j + 1)).drop front.length := by
    rw [List.take_take, Nat.min_eq_left (by omega), List.drop_take, List.drop_left, Nat.add_assoc,
      Nat.add_sub_cancel_left]
  ext i
  constructor
  · rintro ⟨⟨hstart, hlimit, hlength⟩, hcount⟩
    obtain ⟨j, rfl⟩ := Nat.exists_eq_add_of_le hstart
    rw [List.length_append] at hlength
    refine ⟨j, ⟨by rw [List.length_take]; omega, ?_⟩, rfl⟩
    rw [hpart hlimit, excess, hcount]
    omega
  · rintro ⟨j, ⟨hj, hexcess⟩, rfl⟩
    rw [List.length_take] at hj
    have hlimit : front.length + j < limit := by omega
    have hlength : front.length + j < (front ++ code).length := by
      rw [List.length_append]
      omega
    rw [hpart hlimit, excess] at hexcess
    exact ⟨⟨Nat.le_add_right _ _, hlimit, hlength⟩, by dsimp only; omega⟩

theorem overclosed_nil (bracket : Bracket) (depth : Nat) : bracket.overclosed depth [] = ∅ :=
  Set.eq_empty_of_forall_notMem fun _ hi => Nat.not_lt_zero _ hi.1

/-- Behind a token that closes no group, the depth is by how many more brackets it opens. -/
theorem overclosed_cons {after : Nat} (hafter : 0 < after)
    (h : (after : Int) = depth + bracket.excess [t]) :
    bracket.overclosed depth (t :: rest) = Nat.succ '' bracket.overclosed after rest := by
  ext i
  constructor
  · rintro ⟨hi, hexcess⟩
    rw [List.take_succ_cons, excess_cons] at hexcess
    cases i with
    | zero =>
      rw [List.take_zero] at hexcess
      have : bracket.excess [] = 0 := rfl
      omega
    | succ i => exact ⟨i, ⟨Nat.lt_of_succ_lt_succ hi, by omega⟩, rfl⟩
  · rintro ⟨i, ⟨hi, hexcess⟩, rfl⟩
    refine ⟨Nat.succ_lt_succ hi, ?_⟩
    rw [List.take_succ_cons, excess_cons]
    show _ + bracket.excess (rest.take (i + 1)) = _
    omega

theorem isFirst_close? (bracket : Bracket) (hdepth : 0 < depth) (code : Code) :
    IsFirst (bracket.overclosed depth code)
      ((bracket.close? depth code).map fun group => group.inside.length) := by
  induction code generalizing depth with
  | nil => exact .missing (overclosed_nil bracket depth)
  | cons t rest ih =>
    have hbehind {after : Nat} (hafter : 0 < after)
        (h : (after : Int) = depth + bracket.excess [t]) :
        IsFirst (bracket.overclosed depth (t :: rest))
          (((bracket.close? after rest).map fun group =>
            { group with inside := t :: group.inside }).map fun group => group.inside.length) := by
      have hrest := (ih hafter).image fun _ _ => Nat.succ_le_succ
      rw [Option.map_map] at hrest ⊢
      rw [overclosed_cons hafter h]
      exact hrest
    rw [close?]
    by_cases hopen : t.token = bracket.opening
    · rw [if_pos hopen]
      refine hbehind (Nat.succ_pos depth) ?_
      rw [excess_opening hopen, Int.natCast_succ]
    · rw [if_neg hopen]
      by_cases hclose : t.token = bracket.closing
      · have hexcess := excess_closing hclose
        rw [if_pos hclose]
        by_cases hone : depth ≤ 1
        · rw [if_pos hone]
          refine .found ⟨⟨Nat.succ_pos _, ?_⟩, fun i _ => Nat.zero_le i⟩
          show bracket.excess [t] = -depth
          omega
        · rw [if_neg hone]
          exact hbehind (by omega) (by omega)
      · rw [if_neg hclose]
        refine hbehind hdepth ?_
        rw [excess_neither hopen hclose, Int.add_zero]

/-- From an opening bracket on, its group closes where it is evened first. -/
theorem isFirst_evened (ht : t.token = bracket.opening) (front rest : Code) (limit : Nat) :
    IsFirst (bracket.evened (front ++ t :: rest) front.length limit)
      ((bracket.close? 1 (rest.take (limit - (front.length + 1)))).map fun group =>
        front.length + 1 + group.inside.length) := by
  rw [evened_append]
  by_cases hlimit : limit ≤ front.length
  · rw [Nat.sub_eq_zero_of_le hlimit, Nat.sub_eq_zero_of_le (Nat.le_succ_of_le hlimit),
      List.take_zero, List.take_zero, overclosed_nil, Set.image_empty]
    exact .missing rfl
  · obtain ⟨n, rfl⟩ := Nat.exists_eq_add_of_lt (Nat.lt_of_not_le hlimit)
    have hbehind := (isFirst_close? bracket Nat.one_pos (rest.take n)).image
      fun _ _ => Nat.add_le_add_left (k := front.length + 1)
    have hset (positions : Set Nat) :
        (front.length + ·) '' (Nat.succ '' positions) = (front.length + 1 + ·) '' positions := by
      rw [Set.image_image]
      exact Set.image_congr fun i _ => (Nat.add_right_comm front.length 1 i).symm
    have hopened : (1 : Int) = (0 : Nat) + bracket.excess [t] := by rw [excess_opening ht]; rfl
    have hlength : front.length + n + 1 - front.length = n + 1 := by omega
    have hlengthRest : front.length + n + 1 - (front.length + 1) = n := by omega
    rw [Option.map_map] at hbehind
    rw [hlength, hlengthRest, List.take_succ_cons, overclosed_cons Nat.one_pos hopened, hset]
    exact hbehind

theorem skip_eq_drop (bracket : Bracket) (depth : Nat) (code : Code) :
    bracket.skip depth code =
      code.drop (((bracket.close? depth code).map fun group => group.inside.length + 1).getD
        code.length) := by
  rw [skip_eq]
  cases hclose : bracket.close? depth code with
  | none => exact List.drop_length.symm
  | some group =>
    conv => rhs; rw [close?_append hclose]
    simp

end Declaration.Bracket

/-! ## Both operations -/

namespace Positional.Scanner

variable {s : Scanner} {code : Code} {bracket : Bracket} {p : Nat}

/-- At a bracket of any tokens, looking for the end of its group below any limit comes to the first
position up to which as many brackets of its form are closed as opened, if there is one, and so does
the reading of the code. Skipping the group comes right behind that position when all tokens are
searched, and to their end if there is none. Neither is a crash, so no depth is counted below zero. -/
theorem matchers_agree (hs : s.Lists code) (hp : s.token? p = some bracket.opening) :
    (∀ limit, ∃ found,
      s.matchingClose p limit = .ok found ∧
      (bracket.close? 1 ((code.take limit).drop (p + 1))).map
        (fun group => p + 1 + group.inside.length) = found ∧
      (∀ i, found = some i ↔ IsLeast (bracket.evened code p limit) i) ∧
      (found = none ↔ bracket.evened code p limit = ∅)) ∧
    ∃ found stop,
      s.matchingClose p code.length = .ok found ∧
      stop = (found.map (· + 1)).getD code.length ∧
      s.skipBalanced p = .ok stop ∧
      bracket.skip 1 (code.drop (p + 1)) = code.drop stop := by
  obtain ⟨front, t, rest, rfl, rfl, ht⟩ := hs.exists_split hp
  have hrest : (front ++ t :: rest).drop (front.length + 1) = rest := by simp
  constructor
  · intro limit
    have hfirst := Bracket.isFirst_evened ht front rest limit
    rw [List.drop_take, hrest]
    exact ⟨_, matchingClose_eq hs ht limit, rfl, hfirst.eq_some_iff, hfirst.eq_none_iff⟩
  · have hwhole : rest.take ((front ++ t :: rest).length - (front.length + 1)) = rest :=
      List.take_of_length_le (by simp; omega)
    have hclose := matchingClose_eq hs ht (front ++ t :: rest).length
    rw [hwhole] at hclose
    refine ⟨_, _, hclose, rfl, ?_, ?_⟩
    · rw [skipBalanced_eq hs ht, hs.length_eq, Option.map_map]
      rfl
    · conv => lhs; rw [Bracket.skip_eq_drop, List.drop_drop, hrest]
      cases bracket.close? 1 rest with
      | none => exact congrArg (List.drop · (front ++ t :: rest)) (by simp; omega)
      | some group => rfl

/-- Parentheses with a square bracket left open between them. -/
def crossed : List Char := "f(a[)(b)".toList

def crossedCode : Code := Code.ofLexemes (lex crossed).1

def crossedTable : Scanner where
  file := "A.h"
  source := crossed
  lines := .ofText crossed
  toks := crossedCode.map Tok.ofCode

theorem matchers_agree_crossed :
    crossedTable.Lists crossedCode ∧ crossedTable.token? 1 = some Bracket.paren.opening ∧
      crossedTable.matchingClose 1 8 = .ok (some 4) ∧ crossedTable.skipBalanced 1 = .ok 5 ∧
      IsLeast (Bracket.paren.evened crossedCode 1 8) 4 := by
  have hlists : crossedTable.Lists crossedCode := by
    rw [Lists, crossedTable, List.map_map]
    rfl
  have hopen : crossedTable.token? 1 = some Bracket.paren.opening := by decide +kernel
  have hlength : crossedCode.length = 8 := by decide +kernel
  obtain ⟨hmatching, found, stop, hwhole, hstop, hskip, -⟩ := matchers_agree hlists hopen
  obtain ⟨_, hfound, rfl, hleast, -⟩ := hmatching 8
  have hclose : ((Bracket.close? .paren 1 ((crossedCode.take 8).drop 2)).map fun group =>
      1 + 1 + group.inside.length) = some 4 := by decide +kernel
  rw [hclose] at hfound
  rw [hlength, hfound] at hwhole
  obtain rfl : some 4 = found := Except.ok.inj hwhole
  refine ⟨hlists, hopen, hfound, ?_, (hleast 4).1 hclose⟩
  rw [hskip, hstop]
  rfl

end Positional.Scanner

end DeclDoc
