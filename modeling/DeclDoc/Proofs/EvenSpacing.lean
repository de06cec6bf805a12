import DeclDoc.Proofs.Words
import DeclDoc.Signature
import Mathlib.Data.List.Chain

/-!
# Tidy types are spaced evenly

A text is `EvenlySpaced` if all blanks in it are single spaces, none of them first, last, behind `(`
or before `)`. Tidying makes every text one of these (`evenlySpaced_tidy`), and these are what it
leaves as they are (`tidy_eq_self_iff`). It comes to the same as writing the words one space apart and
taking out the spaces before `)`, then those behind `(` (`tidy_eq_replacePair`): the second time does
not bring back what the first took out.

`tidy_canonical`: tidying again changes nothing, and types compare as before.
-/

set_option autoImplicit false

namespace DeclDoc.Text

variable {c : Char} {s t w v : List Char}

/-! ## Even spacing -/

/-- No two spaces stand side by side, and none on the inside of a parenthesis. -/
def MayFollow (a b : Char) : Prop :=
  ¬(a = ' ' ∧ b = ' ') ∧ ¬(a = '(' ∧ b = ' ') ∧ ¬(a = ' ' ∧ b = ')')

/-- All blanks are single spaces, none of them at an end, behind `(` or before `)`. -/
structure EvenlySpaced (s : List Char) : Prop where
  space : ∀ c ∈ s, isBlank c = true → c = ' '
  first : s.head? ≠ some ' '
  last : s.getLast? ≠ some ' '
  next : s.IsChain MayFollow

theorem mayFollow_of_ne {a b : Char} (ha : a ≠ ' ') (hb : b ≠ ' ') : MayFollow a b :=
  ⟨fun h => ha h.1, fun h => hb h.2, fun h => ha h.1⟩

theorem space_notMem (h : ∀ c ∈ w, isBlank c = false) : ' ' ∉ w := fun hspace => by
  have := h ' ' hspace
  exact absurd this (by decide)

namespace EvenlySpaced

theorem of_word (h : ∀ c ∈ w, isBlank c = false) : EvenlySpaced w where
  space c hc hblank := absurd (h c hc) (by simp [hblank])
  first hhead := space_notMem h (List.mem_of_head? hhead)
  last hlast := space_notMem h (List.mem_of_getLast? hlast)
  next := by
    have hne : ∀ c ∈ w, c ≠ ' ' := fun c hc hspace => space_notMem h (hspace ▸ hc)
    exact (List.pairwise_of_forall_mem_list fun a ha b hb =>
      mayFollow_of_ne (hne a ha) (hne b hb)).isChain

/-- Two texts are spaced evenly with the separator between them. -/
theorem append (hs : EvenlySpaced s) (ht : EvenlySpaced t) (hsne : s ≠ []) (htne : t ≠ []) :
    EvenlySpaced (s ++ (wordGap s t ++ t)) where
  space c hc hblank := by
    rcases List.mem_append.1 hc with hc | hc
    · exact hs.space c hc hblank
    rcases List.mem_append.1 hc with hc | hc
    · unfold wordGap at hc
      split at hc
      · cases hc
      · exact List.mem_singleton.1 hc
    · exact ht.space c hc hblank
  first := by
    rw [List.head?_append_of_ne_nil _ hsne]
    exact hs.first
  last := by
    rw [← List.append_assoc, List.getLast?_append_of_ne_nil _ htne]
    exact ht.last
  next := by
    unfold wordGap
    split
    · refine hs.next.append ht.next fun a ha b hb => mayFollow_of_ne ?_ ?_
      · rintro rfl
        exact hs.last ha
      · rintro rfl
        exact ht.first hb
    · next hgap =>
      obtain ⟨hopen, hclose⟩ := not_or.1 hgap
      refine hs.next.append (List.isChain_cons.2 ⟨fun b hb => ?_, ht.next⟩) fun a ha b hb => ?_
      · have hspace : b ≠ ' ' := fun h => ht.first (h ▸ hb)
        exact ⟨fun h => hspace h.2, fun h => hspace h.2, fun h => hclose (h.2 ▸ hb)⟩
      · obtain rfl : ' ' = b := by simpa using hb
        have hspace : a ≠ ' ' := fun h => hs.last (h ▸ ha)
        exact ⟨fun h => hspace h.1, fun h => hopen (h.1 ▸ ha), fun h => hspace h.1⟩

/-- What stands behind a blank is spaced evenly. -/
theorem behind (h : EvenlySpaced (s ++ ' ' :: t)) : EvenlySpaced t ∧ t ≠ [] := by
  have htne : t ≠ [] := by
    rintro rfl
    exact h.last (by simp)
  obtain ⟨hhead, hnext⟩ := List.isChain_cons.1 h.next.right_of_append
  refine ⟨⟨fun c hc => h.space c (by simp [hc]), fun hfirst => ?_, fun hlast => ?_, hnext⟩, htne⟩
  · exact (hhead ' ' hfirst).1 ⟨rfl, rfl⟩
  · refine h.last ?_
    rw [List.getLast?_append_of_ne_nil _ (List.cons_ne_nil _ _), List.getLast?_cons_of_ne_nil htne,
      hlast]

/-- The separator is a space where there is one. -/
theorem wordGap_eq (h : EvenlySpaced (w ++ ' ' :: t)) : wordGap w t = [' '] := by
  obtain ⟨-, hchain, hbefore⟩ := List.isChain_append.1 h.next
  refine if_neg (not_or.2 ⟨fun hopen => ?_, fun hclose => ?_⟩)
  · exact (hbefore '(' hopen ' ' rfl).2.1 ⟨rfl, rfl⟩
  · exact ((List.isChain_cons.1 hchain).1 ')' hclose).2.2 ⟨rfl, rfl⟩

end EvenlySpaced

/-! ## Tidy texts -/

theorem wordGap_congr (h : s.head? = t.head?) (w : List Char) : wordGap w s = wordGap w t := by
  rw [wordGap, wordGap, h]

theorem head?_spaced (hv : v ≠ []) (ws : List (List Char)) :
    (spaced (v :: ws)).head? = v.head? := by
  cases ws with
  | nil => rfl
  | cons u ws => rw [spaced, List.append_assoc, List.head?_append_of_ne_nil _ hv]

/-- The separator is that between the first word and all that follows. -/
theorem spaced_cons (w : List Char) (hv : v ≠ []) (ws : List (List Char)) :
    spaced (w :: v :: ws) = w ++ (wordGap w (spaced (v :: ws)) ++ spaced (v :: ws)) := by
  rw [spaced, List.append_assoc, wordGap_congr (head?_spaced hv ws)]

theorem evenlySpaced_spaced {ws : List (List Char)}
    (h : ∀ w ∈ ws, w ≠ [] ∧ ∀ c ∈ w, isBlank c = false) : EvenlySpaced (spaced ws) := by
  induction ws with
  | nil => exact .of_word (by simp [spaced])
  | cons w ws ih =>
    obtain ⟨⟨hne, hw⟩, hws⟩ := List.forall_mem_cons.1 h
    cases ws with
    | nil => exact .of_word hw
    | cons v ws =>
      have hv : v ≠ [] := (hws v List.mem_cons_self).1
      have hrest : spaced (v :: ws) ≠ [] := fun hnil => by
        have hhead := head?_spaced hv ws
        rw [hnil] at hhead
        exact hv (List.head?_eq_none_iff.1 hhead.symm)
      rw [spaced_cons w hv]
      exact (EvenlySpaced.of_word hw).append (ih hws) hne hrest

theorem evenlySpaced_tidy (s : List Char) : EvenlySpaced (tidy s) :=
  evenlySpaced_spaced fun _ => mem_words

/-- A first word, then what is tidy behind it. -/
theorem tidy_append_cons (hne : w ≠ []) (hw : ∀ c ∈ w, isBlank c = false) (hc : isBlank c = true)
    (ht : tidy t ≠ []) : tidy (w ++ c :: t) = w ++ (wordGap w (tidy t) ++ tidy t) := by
  unfold tidy at ht ⊢
  rw [words_append_cons hc, words_of_isWord hne hw]
  cases hwords : words t with
  | nil =>
    rw [hwords] at ht
    exact absurd rfl ht
  | cons v ws =>
    have hv : v ∈ words t := hwords ▸ List.mem_cons_self
    exact spaced_cons w (mem_words hv).1 ws

theorem tidy_of_word (h : ∀ c ∈ w, isBlank c = false) : tidy w = w := by
  by_cases hne : w = []
  · rw [hne]
    rfl
  · rw [tidy, words_of_isWord hne h, spaced]

theorem tidy_of_evenlySpaced (h : EvenlySpaced s) : tidy s = s := by
  induction hlength : s.length using Nat.strong_induction_on generalizing s with
  | _ n ih =>
    by_cases hspace : ' ' ∈ s
    · obtain ⟨w, t, rfl, hfront⟩ := List.eq_append_cons_of_mem hspace
      have hw : ∀ c ∈ w, isBlank c = false := fun c hc => by
        by_contra hblank
        have := h.space c (List.mem_append_left _ hc) (by simpa using hblank)
        exact hfront (this ▸ hc)
      have hne : w ≠ [] := by
        rintro rfl
        exact h.first rfl
      obtain ⟨ht, htne⟩ := h.behind
      have htidy : tidy t = t := ih t.length (by simp at hlength; omega) ht rfl
      rw [tidy_append_cons hne hw (by decide) (by rwa [htidy]), htidy, h.wordGap_eq]
      rfl
    · refine tidy_of_word fun c hc => ?_
      by_contra hblank
      exact hspace (h.space c hc (by simpa using hblank) ▸ hc)

/-- The texts that tidying leaves as they are. -/
theorem tidy_eq_self_iff : tidy s = s ↔ EvenlySpaced s :=
  ⟨fun h => h ▸ evenlySpaced_tidy s, tidy_of_evenlySpaced⟩

instance (s : List Char) : Decidable (EvenlySpaced s) := decidable_of_iff _ tidy_eq_self_iff

example : ¬EvenlySpaced "(int )".toList := by decide

/-! ## Replacing -/

/-- Every two characters that are `first` and `second`, from the left on, become one. -/
def replacePair (first second one : Char) : List Char → List Char
  | c :: d :: rest =>
    if c = first ∧ d = second then one :: replacePair first second one rest
    else c :: replacePair first second one (d :: rest)
  | s => s

variable {first second one : Char}

theorem replacePair_cons (h : ¬(c = first ∧ s.head? = some second)) :
    replacePair first second one (c :: s) = c :: replacePair first second one s := by
  cases s with
  | nil => rfl
  | cons d s => exact if_neg fun hpair => h ⟨hpair.1, congrArg some hpair.2⟩

theorem replacePair_append_of_first (hw : first ∉ w) (t : List Char) :
    replacePair first second one (w ++ t) = w ++ replacePair first second one t := by
  induction w with
  | nil => rfl
  | cons c w ih =>
    obtain ⟨hc, hw⟩ := not_or.1 (mt List.mem_cons.2 hw)
    rw [List.cons_append, replacePair_cons fun h => hc h.1.symm, ih hw, List.cons_append]

theorem replacePair_append_of_second (hw : second ∉ w)
    (ht : ¬(w.getLast? = some first ∧ t.head? = some second)) :
    replacePair first second one (w ++ t) = w ++ replacePair first second one t := by
  induction w with
  | nil => rfl
  | cons c w ih =>
    obtain ⟨-, hw⟩ := not_or.1 (mt List.mem_cons.2 hw)
    cases w with
    | nil => exact replacePair_cons fun h => ht ⟨congrArg some h.1, h.2⟩
    | cons d w =>
      have hpair : ¬(c = first ∧ (d :: w ++ t).head? = some second) := fun h =>
        hw (Option.some.inj h.2 ▸ List.mem_cons_self)
      rw [List.getLast?_cons_cons] at ht
      rw [List.cons_append, replacePair_cons hpair, ih hw ht]
      rfl

/-- The head stays if it is not the first of the two characters. -/
theorem head?_replacePair (h : s.head? ≠ some first) :
    (replacePair first second one s).head? = s.head? := by
  cases s with
  | nil => rfl
  | cons c s =>
    rw [replacePair_cons fun hpair => h (congrArg some hpair.1)]
    rfl

/-- A space before a closing parenthesis is taken out. -/
theorem replacePair_close (s : List Char) :
    replacePair ' ' ')' ')' (' ' :: s) =
      (if s.head? = some ')' then [] else [' ']) ++ replacePair ' ' ')' ')' s := by
  split
  · next h =>
    obtain ⟨rest, rfl⟩ := List.head?_eq_some_iff.1 h
    rw [replacePair, if_pos ⟨rfl, rfl⟩, replacePair_cons (by simp), List.nil_append]
  · next h =>
    rw [replacePair_cons fun hpair => h hpair.2, List.singleton_append]

/-- A space behind an opening parenthesis is taken out. -/
theorem replacePair_open (hw : ' ' ∉ w) (s : List Char) :
    replacePair '(' ' ' '(' (w ++ ' ' :: s) =
      w ++ ((if w.getLast? = some '(' then [] else [' ']) ++ replacePair '(' ' ' '(' s) := by
  split
  · next h =>
    obtain ⟨front, rfl⟩ := List.getLast?_eq_some_iff.1 h
    have hfront : ' ' ∉ front := fun hc => hw (List.mem_append_left _ hc)
    rw [List.append_assoc, replacePair_append_of_second hfront (by simp), List.append_assoc]
    rfl
  · next h =>
    rw [replacePair_append_of_second hw fun hpair => h hpair.1, replacePair_cons (by simp),
      List.singleton_append]

theorem head?_join (hv : v ≠ []) (separator : Char) (ws : List (List Char)) :
    (join separator (v :: ws)).head? = v.head? := by
  cases ws with
  | nil => rfl
  | cons u ws => exact List.head?_append_of_ne_nil _ hv

theorem replacePair_join {ws : List (List Char)}
    (h : ∀ w ∈ ws, w ≠ [] ∧ ∀ c ∈ w, isBlank c = false) :
    replacePair '(' ' ' '(' (replacePair ' ' ')' ')' (join ' ' ws)) = spaced ws := by
  induction ws with
  | nil => rfl
  | cons w ws ih =>
    obtain ⟨⟨-, hw⟩, hws⟩ := List.forall_mem_cons.1 h
    have hspace := space_notMem hw
    cases ws with
    | nil =>
      have hclose : replacePair ' ' ')' ')' (w ++ []) = w ++ [] :=
        replacePair_append_of_first hspace []
      have hopen : replacePair '(' ' ' '(' (w ++ []) = w ++ [] :=
        replacePair_append_of_second hspace (by simp)
      rw [List.append_nil] at hclose hopen
      rw [join, spaced, hclose, hopen]
    | cons v ws =>
      have hv := hws v List.mem_cons_self
      set rest := join ' ' (v :: ws)
      have hhead : rest.head? = v.head? := head?_join hv.1 ' ' ws
      have hfirst : (replacePair ' ' ')' ')' rest).head? = rest.head? :=
        head?_replacePair fun hc => space_notMem hv.2 (List.mem_of_head? (hhead ▸ hc))
      have hgap : wordGap w (spaced (v :: ws)) = wordGap w rest :=
        wordGap_congr ((head?_spaced hv.1 ws).trans hhead.symm) w
      have hjoin : join ' ' (w :: v :: ws) = w ++ ' ' :: rest := rfl
      rw [spaced_cons w hv.1, hgap, ← ih hws, hjoin, replacePair_append_of_first hspace,
        replacePair_close, wordGap]
      by_cases hclose : rest.head? = some ')'
      · rw [if_pos hclose, if_pos (.inr hclose), List.nil_append, List.nil_append]
        refine replacePair_append_of_second hspace fun hpair => ?_
        rw [hfirst, hclose] at hpair
        exact absurd hpair.2 (by decide)
      · rw [if_neg hclose, List.singleton_append, replacePair_open hspace]
        simp only [hclose, or_false]

/-- Words one space apart, then without the spaces before `)`, then without those behind `(`. -/
theorem tidy_eq_replacePair (s : List Char) :
    tidy s = replacePair '(' ' ' '(' (replacePair ' ' ')' ')' (join ' ' (words s))) :=
  (replacePair_join fun _ => mem_words).symm

example : tidy "( ( int ) a, ... )".toList = "((int) a, ...)".toList := by decide

/-! ## Comparing -/

theorem sameType_tidy (s : List Char) (type : String) :
    sameType (String.ofList (tidy s)) type = sameType (String.ofList s) type := by
  rw [sameType, sameType, String.toList_ofList, String.toList_ofList, squash_tidy]

/-- Tidying writes the words one space apart and takes out the spaces on the inside of parentheses.
What it makes is left as it is when tidied again, is spaced evenly, and has all characters that are
not blank, so a type compares as before. -/
theorem tidy_canonical (s : List Char) :
    tidy s = replacePair '(' ' ' '(' (replacePair ' ' ')' ')' (join ' ' (words s))) ∧
      tidy (tidy s) = tidy s ∧ EvenlySpaced (tidy s) ∧ squash (tidy s) = squash s ∧
      ∀ type, sameType (String.ofList (tidy s)) type = sameType (String.ofList s) type :=
  ⟨tidy_eq_replacePair s, tidy_eq_self_iff.2 (evenlySpaced_tidy s), evenlySpaced_tidy s,
    squash_tidy s, sameType_tidy s⟩

end DeclDoc.Text
