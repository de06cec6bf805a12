import DeclDoc.Text.Spacing
import Mathlib.Data.List.Basic
import Mathlib.Data.List.TakeWhile

/-!
# Words and trimmed texts

Blanks stand between words and belong to none, so neither the blanks around a text nor those between
two texts matter for what words there are (`words_trim`, `words_append_cons`).
-/

set_option autoImplicit false

namespace DeclDoc.Text

variable {c : Char} {s blanks : List Char}

/-! ## Trimming -/

theorem trimStart_cons (h : isBlank c = false) (s : List Char) : trimStart (c :: s) = c :: s := by
  simp [trimStart, h]

theorem trimEnd_cons (h : isBlank c = false) (s : List Char) :
    trimEnd (c :: s) = c :: trimEnd s := by
  simp only [trimEnd, List.reverse_cons, List.dropWhile_append]
  by_cases hs : (s.reverse.dropWhile isBlank).isEmpty = true
  · simp [h, List.isEmpty_iff.1 hs]
  · simp [hs]

theorem trimEnd_append_singleton (h : isBlank c = false) (s : List Char) :
    trimEnd (s ++ [c]) = s ++ [c] := by
  simp [trimEnd, h]

theorem trimEnd_append_of_isBlank (h : ∀ c ∈ blanks, isBlank c = true) (s : List Char) :
    trimEnd (s ++ blanks) = trimEnd s := by
  rw [trimEnd, List.reverse_append, List.dropWhile_append_of_pos (by simpa using h), trimEnd]

/-- What stands behind the last character that is not blank. -/
theorem exists_trimEnd (s : List Char) :
    ∃ blanks, s = trimEnd s ++ blanks ∧ ∀ c ∈ blanks, isBlank c = true := by
  refine ⟨(s.reverse.takeWhile isBlank).reverse, ?_, fun c hc => ?_⟩
  · rw [trimEnd, ← List.reverse_append, List.takeWhile_append_dropWhile, List.reverse_reverse]
  · exact List.mem_takeWhile_imp (List.mem_reverse.1 hc)

theorem trim_cons (h : isBlank c = true) (s : List Char) : trim (c :: s) = trim s := by
  simp [trim, trimStart, h]

theorem trim_append_of_isBlank (h : ∀ c ∈ blanks, isBlank c = true) (s : List Char) :
    trim (s ++ blanks) = trim s := by
  rw [trim, trimStart, List.dropWhile_append, trim, trimStart]
  split
  · next hs =>
    have hblanks : blanks.dropWhile isBlank = [] := List.dropWhile_eq_nil_iff.2 h
    rw [hblanks, List.isEmpty_iff.1 hs]
  · exact trimEnd_append_of_isBlank h _

theorem trim_trimEnd (s : List Char) : trim (trimEnd s) = trim s := by
  obtain ⟨blanks, hs, hblanks⟩ := exists_trimEnd s
  have htrim := trim_append_of_isBlank hblanks (trimEnd s)
  rw [← hs] at htrim
  exact htrim.symm

/-- A text in the blanks around it. -/
theorem exists_trim (s : List Char) :
    ∃ before behind, s = before ++ trim s ++ behind ∧
      (∀ c ∈ before, isBlank c = true) ∧ ∀ c ∈ behind, isBlank c = true := by
  obtain ⟨behind, hs, hbehind⟩ := exists_trimEnd (trimStart s)
  refine ⟨s.takeWhile isBlank, behind, ?_, fun c hc => List.mem_takeWhile_imp hc, hbehind⟩
  rw [List.append_assoc, trim, ← hs, trimStart, List.takeWhile_append_dropWhile]

theorem mem_of_mem_trim (h : c ∈ trim s) : c ∈ s := by
  obtain ⟨before, behind, hs, -⟩ := exists_trim s
  rw [hs]
  exact List.mem_append_left _ (List.mem_append_right _ h)

/-! ## Words -/

theorem words_cons (h : isBlank c = true) (s : List Char) : words (c :: s) = words s := by
  cases s <;> simp [words, h]

theorem words_of_isBlank (h : ∀ c ∈ s, isBlank c = true) : words s = [] := by
  induction s with
  | nil => rfl
  | cons c s ih =>
    rw [words_cons (h c List.mem_cons_self), ih fun d hd => h d (List.mem_cons_of_mem c hd)]

theorem words_blank_append (h : ∀ c ∈ blanks, isBlank c = true) (s : List Char) :
    words (blanks ++ s) = words s := by
  induction blanks with
  | nil => rfl
  | cons c blanks ih =>
    rw [List.cons_append, words_cons (h c List.mem_cons_self),
      ih fun d hd => h d (List.mem_cons_of_mem c hd)]

theorem words_eq_nil_iff : words s = [] ↔ ∀ c ∈ s, isBlank c = true := by
  refine ⟨fun h => ?_, words_of_isBlank⟩
  have hsquash : squash s = [] := by rw [← flatten_words, h, List.flatten_nil]
  simpa [squash] using hsquash

/-- A blank ends every word before it. -/
theorem words_append_cons (h : isBlank c = true) (s t : List Char) :
    words (s ++ c :: t) = words s ++ words t := by
  fun_induction words s with
  | case1 => exact words_cons h t
  | case2 d hd => rw [List.singleton_append, words_cons hd, words_cons h, List.nil_append]
  | case3 d hd => simp [words, hd, h, words_cons h]
  | case4 d e rest hd ih => rwa [List.cons_append, List.cons_append, words_cons hd]
  | case5 d e rest hd he ih =>
    rw [List.cons_append, List.cons_append, words, if_neg hd, if_pos he]
    exact congrArg _ ih
  | case6 d e rest hd he hwords =>
    exact absurd (words_eq_nil_iff.1 hwords e List.mem_cons_self) he
  | case7 d e rest hd he word more hwords ih =>
    rw [List.cons_append, List.cons_append, words, if_neg hd, if_neg he]
    rw [List.cons_append] at ih
    rw [ih, hwords]
    rfl

theorem words_append_of_isBlank (h : ∀ c ∈ blanks, isBlank c = true) :
    words (s ++ blanks) = words s := by
  cases blanks with
  | nil => rw [List.append_nil]
  | cons c blanks =>
    rw [words_append_cons (h c List.mem_cons_self),
      words_of_isBlank fun d hd => h d (List.mem_cons_of_mem c hd), List.append_nil]

theorem words_of_isWord (hne : s ≠ []) (h : ∀ c ∈ s, isBlank c = false) : words s = [s] := by
  induction s with
  | nil => exact absurd rfl hne
  | cons c s ih =>
    obtain ⟨hc, hs⟩ := List.forall_mem_cons.1 h
    cases s with
    | nil => simp [words, hc]
    | cons d s =>
      rw [words, if_neg (by simp [hc]), if_neg (by simp [hs d List.mem_cons_self]),
        ih (List.cons_ne_nil d s) hs]

theorem flatMap_words_words (s : List Char) : (words s).flatMap words = words s := by
  have hwords : ∀ w ∈ words s, words w = [w] := fun w hw =>
    words_of_isWord (mem_words hw).1 (mem_words hw).2
  rw [List.flatMap_congr hwords, List.flatMap_singleton']

theorem words_trim (s : List Char) : words (trim s) = words s := by
  obtain ⟨before, behind, hs, hbefore, hbehind⟩ := exists_trim s
  have hwords : words (before ++ trim s ++ behind) = words (trim s) := by
    rw [words_append_of_isBlank hbehind, words_blank_append hbefore]
  rw [← hs] at hwords
  exact hwords.symm

theorem trim_eq_nil_iff : trim s = [] ↔ ∀ c ∈ s, isBlank c = true := by
  constructor
  · intro h
    rw [← words_eq_nil_iff, ← words_trim, h]
    rfl
  · intro h
    have htrim := trim_append_of_isBlank h []
    rwa [List.nil_append] at htrim

end DeclDoc.Text
