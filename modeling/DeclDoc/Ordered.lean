/-! # Ordered sets and maps

Sets and maps as lists in ascending order. A map is read through `find?`: `find?_insert_self` and
`find?_insert_of_ne` say what an insertion changes, and `mem_insert` says it for sets.
-/

set_option autoImplicit false

namespace DeclDoc

namespace OrderedSet

variable {α : Type} [Ord α]

/-- The set with one more member. -/
def insert (a : α) : List α → List α
  | [] => [a]
  | b :: rest =>
    match compare a b with
    | .lt => a :: b :: rest
    | .eq => b :: rest
    | .gt => b :: insert a rest

/-- The members of both. -/
def union (s t : List α) : List α := t.foldl (fun set a => insert a set) s

def ofList (items : List α) : List α := union [] items

theorem mem_insert [Std.LawfulEqOrd α] {a b : α} {s : List α} :
    b ∈ insert a s ↔ b = a ∨ b ∈ s := by
  induction s with
  | nil => simp [insert]
  | cons c s ih =>
    simp only [insert]
    split
    · simp
    · next h =>
      have := Std.LawfulEqOrd.eq_of_compare h
      subst this
      simp
    · simp only [List.mem_cons, ih]
      constructor
      · rintro (h | h | h) <;> simp [h]
      · rintro (h | h | h) <;> simp [h]

theorem mem_union [Std.LawfulEqOrd α] {a : α} {s t : List α} :
    a ∈ union s t ↔ a ∈ s ∨ a ∈ t := by
  unfold union
  induction t generalizing s with
  | nil => simp
  | cons b t ih =>
    rw [List.foldl_cons, ih, mem_insert, List.mem_cons]
    constructor
    · rintro ((h | h) | h) <;> simp [h]
    · rintro (h | h | h) <;> simp [h]

end OrderedSet

namespace OrderedMap

variable {κ α : Type} [Ord κ]

/-- The value under a key. -/
def find? (key : κ) : List (κ × α) → Option α
  | [] => none
  | (k, value) :: rest => if compare key k = .eq then some value else find? key rest

/-- The map with a value under a key, whatever was there before. -/
def insert (key : κ) (value : α) : List (κ × α) → List (κ × α)
  | [] => [(key, value)]
  | (k, other) :: rest =>
    match compare key k with
    | .lt => (key, value) :: (k, other) :: rest
    | .eq => (key, value) :: rest
    | .gt => (k, other) :: insert key value rest

def values (map : List (κ × α)) : List α := map.map (·.2)

theorem find?_insert_self [Std.ReflOrd κ] (key : κ) (value : α) (map : List (κ × α)) :
    find? key (insert key value map) = some value := by
  induction map with
  | nil => simp [insert, find?, Std.ReflOrd.compare_self]
  | cons entry rest ih =>
    obtain ⟨k, other⟩ := entry
    simp only [insert]
    split
    · simp [find?, Std.ReflOrd.compare_self]
    · simp [find?, Std.ReflOrd.compare_self]
    · next h => simp [find?, h, ih]

theorem find?_insert_of_ne [Std.LawfulEqOrd κ] {key other : κ} (h : other ≠ key) (value : α)
    (map : List (κ × α)) : find? other (insert key value map) = find? other map := by
  have hne : compare other key ≠ .eq := fun e => h (Std.LawfulEqOrd.eq_of_compare e)
  induction map with
  | nil => simp [insert, find?, hne]
  | cons entry rest ih =>
    obtain ⟨k, old⟩ := entry
    simp only [insert]
    split
    · simp [find?, hne]
    · next hk =>
      have := Std.LawfulEqOrd.eq_of_compare hk
      subst this
      simp [find?, hne]
    · simp [find?, ih]

end OrderedMap

end DeclDoc
