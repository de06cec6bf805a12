import DeclDoc.Ordered
import Mathlib.Data.List.Perm.Basic

/-!
# Ordered lists stand for what they hold

`OrderedSet.Ascending s` and `OrderedMap.Ascending map` say that a list is in strictly ascending
order. Insertion keeps the order (`ascending_insert`). An ascending set is determined by its members
(`OrderedSet.eq_of_mem_iff`), an ascending map by what is found in it (`OrderedMap.eq_of_find?_eq`),
and `find?` finds exactly the entries (`OrderedMap.find?_eq_some_iff`).
-/

set_option autoImplicit false

namespace DeclDoc

/-! ## Sets -/

namespace OrderedSet

variable {α : Type} [Ord α]

/-- Every member comes before the ones behind it. -/
def Ascending (s : List α) : Prop := s.Pairwise fun a b => compare a b = .lt

theorem ascending_singleton (a : α) : Ascending [a] := List.pairwise_singleton _ a

theorem ascending_insert [Std.TransOrd α] [Std.LawfulEqOrd α] (a : α) {s : List α}
    (h : Ascending s) : Ascending (insert a s) := by
  induction s with
  | nil => exact ascending_singleton a
  | cons b s ih =>
    obtain ⟨hb, hs⟩ := List.pairwise_cons.1 h
    simp only [insert]
    split
    · next hab =>
      refine List.pairwise_cons.2 ⟨?_, h⟩
      intro c hc
      rcases List.mem_cons.1 hc with rfl | hc
      · exact hab
      · exact Std.TransCmp.lt_trans hab (hb c hc)
    · exact h
    · next hab =>
      refine List.pairwise_cons.2 ⟨?_, ih hs⟩
      intro c hc
      rcases mem_insert.1 hc with rfl | hc
      · exact Std.OrientedCmp.lt_of_gt hab
      · exact hb c hc

theorem ascending_union [Std.TransOrd α] [Std.LawfulEqOrd α] {s : List α} (t : List α)
    (h : Ascending s) : Ascending (union s t) := by
  unfold union
  induction t generalizing s with
  | nil => exact h
  | cons a t ih => exact ih (ascending_insert a h)

theorem ascending_ofList [Std.TransOrd α] [Std.LawfulEqOrd α] (items : List α) :
    Ascending (ofList items) :=
  ascending_union items List.Pairwise.nil

theorem ne_of_compare_lt [Std.ReflOrd α] {a b : α} (h : compare a b = .lt) : a ≠ b := by
  rintro rfl
  rw [Std.ReflOrd.compare_self] at h
  cases h

/-- Ascending lists with the same members are the same. -/
theorem eq_of_mem_iff [Std.TransOrd α] {s t : List α} (hs : Ascending s) (ht : Ascending t)
    (h : ∀ a, a ∈ s ↔ a ∈ t) : s = t := by
  have hperm : s.Perm t :=
    (List.perm_ext_iff_of_nodup (hs.imp ne_of_compare_lt) (ht.imp ne_of_compare_lt)).2 h
  refine hperm.eq_of_pairwise ?_ hs ht
  intro a b _ _ hab hba
  rw [Std.OrientedOrd.eq_swap, hba] at hab
  cases hab

theorem union_assoc [Std.TransOrd α] [Std.LawfulEqOrd α] {s : List α} (h : Ascending s)
    (t u : List α) : union s (union t u) = union (union s t) u := by
  refine eq_of_mem_iff (ascending_union _ h) (ascending_union _ (ascending_union _ h)) fun a => ?_
  simp only [mem_union, or_assoc]

end OrderedSet

/-! ## Maps -/

namespace OrderedMap

variable {κ α β : Type} [Ord κ]

/-- Every key comes before the ones behind it. -/
def Ascending (map : List (κ × α)) : Prop := map.Pairwise fun a b => compare a.1 b.1 = .lt

theorem ascending_nil : Ascending ([] : List (κ × α)) := List.Pairwise.nil

@[simp] theorem find?_nil (key : κ) : find? key ([] : List (κ × α)) = none := rfl

theorem find?_insert [Std.LawfulEqOrd κ] [DecidableEq κ] (key other : κ) (value : α)
    (map : List (κ × α)) :
    find? other (insert key value map) = if other = key then some value else find? other map := by
  split
  · next h => rw [h, find?_insert_self]
  · next h => exact find?_insert_of_ne h value map

theorem mem_of_mem_insert {key : κ} {value : α} {entry : κ × α} {map : List (κ × α)}
    (h : entry ∈ insert key value map) : entry = (key, value) ∨ entry ∈ map := by
  induction map with
  | nil => exact .inl (List.mem_singleton.1 h)
  | cons head rest ih =>
    obtain ⟨k, other⟩ := head
    simp only [insert] at h
    split at h
    · exact List.mem_cons.1 h
    · rcases List.mem_cons.1 h with h | h
      · exact .inl h
      · exact .inr (List.mem_cons_of_mem _ h)
    · rcases List.mem_cons.1 h with h | h
      · exact .inr (h ▸ List.mem_cons_self)
      · exact (ih h).imp id (List.mem_cons_of_mem _)

theorem ascending_insert [Std.TransOrd κ] [Std.LawfulEqOrd κ] (key : κ) (value : α)
    {map : List (κ × α)} (h : Ascending map) : Ascending (insert key value map) := by
  induction map with
  | nil => exact List.pairwise_singleton _ _
  | cons head rest ih =>
    obtain ⟨k, other⟩ := head
    obtain ⟨hk, hrest⟩ := List.pairwise_cons.1 h
    simp only [insert]
    split
    · next hlt =>
      refine List.pairwise_cons.2 ⟨?_, h⟩
      intro e he
      rcases List.mem_cons.1 he with rfl | he
      · exact hlt
      · exact Std.TransCmp.lt_trans hlt (hk e he)
    · next heq =>
      cases Std.LawfulEqOrd.eq_of_compare heq
      exact List.pairwise_cons.2 ⟨hk, hrest⟩
    · next hgt =>
      refine List.pairwise_cons.2 ⟨?_, ih hrest⟩
      intro e he
      rcases mem_of_mem_insert he with rfl | he
      · exact Std.OrientedCmp.lt_of_gt hgt
      · exact hk e he

/-- A new key is one more. -/
theorem length_insert {key : κ} {map : List (κ × α)} (h : find? key map = none) (value : α) :
    (insert key value map).length = map.length + 1 := by
  induction map with
  | nil => rfl
  | cons head rest ih =>
    obtain ⟨k, other⟩ := head
    simp only [find?] at h
    split at h
    · cases h
    · next hne =>
      simp only [insert]
      split
      · rfl
      · next heq => exact absurd heq hne
      · rw [List.length_cons, ih h, List.length_cons]

theorem mem_of_find? [Std.LawfulEqOrd κ] {key : κ} {value : α} {map : List (κ × α)}
    (h : find? key map = some value) : (key, value) ∈ map := by
  induction map with
  | nil => cases h
  | cons head rest ih =>
    obtain ⟨k, other⟩ := head
    simp only [find?] at h
    split at h
    · next heq =>
      cases Std.LawfulEqOrd.eq_of_compare heq
      cases h
      exact List.mem_cons_self
    · exact List.mem_cons_of_mem _ (ih h)

/-- In an ascending map the entries are what is found. -/
theorem find?_eq_some_iff [Std.TransOrd κ] [Std.LawfulEqOrd κ] {key : κ} {value : α}
    {map : List (κ × α)} (hmap : Ascending map) :
    find? key map = some value ↔ (key, value) ∈ map := by
  refine ⟨mem_of_find?, ?_⟩
  intro h
  induction map with
  | nil => cases h
  | cons head rest ih =>
    obtain ⟨k, other⟩ := head
    obtain ⟨hk, hrest⟩ := List.pairwise_cons.1 hmap
    rcases List.mem_cons.1 h with h | h
    · cases h
      simp [find?, Std.ReflOrd.compare_self]
    · have hne : compare key k ≠ .eq := by
        rw [Std.OrientedOrd.eq_swap, hk _ h]
        simp
      simp only [find?, hne, if_false]
      exact ih hrest h

/-- Ascending maps in which the same is found are the same. -/
theorem eq_of_find?_eq [Std.TransOrd κ] [Std.LawfulEqOrd κ] {map other : List (κ × α)}
    (h : Ascending map) (ho : Ascending other)
    (hfind : ∀ key, find? key map = find? key other) : map = other := by
  have hne : ∀ a b : κ × α, compare a.1 b.1 = .lt → a ≠ b := fun a b hlt heq =>
    OrderedSet.ne_of_compare_lt hlt (congrArg Prod.fst heq)
  have hperm : map.Perm other := by
    refine (List.perm_ext_iff_of_nodup (h.imp (hne _ _)) (ho.imp (hne _ _))).2 fun entry => ?_
    rw [← find?_eq_some_iff h, ← find?_eq_some_iff ho, hfind]
  refine hperm.eq_of_pairwise ?_ h ho
  intro a b _ _ hab hba
  rw [Std.OrientedOrd.eq_swap, hba] at hab
  cases hab

/-- Values changed under their keys are found changed. -/
theorem find?_map [Std.LawfulEqOrd κ] (f : α → β) (key : κ) (map : List (κ × α)) :
    find? key (map.map fun entry => (entry.1, f entry.2)) = (find? key map).map f := by
  induction map with
  | nil => rfl
  | cons head rest ih =>
    obtain ⟨k, value⟩ := head
    by_cases h : compare key k = .eq <;> simp [find?, h, ih]

end OrderedMap

end DeclDoc
