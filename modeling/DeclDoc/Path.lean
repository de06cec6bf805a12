import DeclDoc.Text.Blank

/-! # Paths

A path is text cut at slashes. Empty pieces and inner `.` pieces say nothing; a leading slash or `.`
counts.

* `join_pieces`, `not_mem_of_mem_pieces`: the pieces, with slashes between, are the path, and none
  of them holds a slash.
* `components_append_slash`: a trailing slash changes no component.
-/

set_option autoImplicit false

namespace DeclDoc.Path

/-- The pieces between slashes, empty ones included. -/
def pieces : List Char → List (List Char)
  | [] => [[]]
  | c :: rest =>
    if c = '/' then [] :: pieces rest
    else
      match pieces rest with
      | [] => [[c]]
      | piece :: more => (c :: piece) :: more

inductive Component where
  | root
  | current
  | parent
  | normal (name : List Char)
deriving DecidableEq, Repr

namespace Component

def text : Component → List Char
  | .root => ['/']
  | .current => ['.']
  | .parent => ['.', '.']
  | .normal name => name

/-- The component that a piece after the first slash or start stands for. -/
def ofPiece? (piece : List Char) : Option Component :=
  if piece = [] ∨ piece = ['.'] then none
  else if piece = ['.', '.'] then some .parent
  else some (.normal piece)

/-- The root first, then `.`, then `..`, then names by their characters. -/
instance : Ord Component where
  compare a b :=
    match a, b with
    | .normal a, .normal b => compare a b
    | a, b => compare a.ctorIdx b.ctorIdx

end Component

def components (path : List Char) : List Component :=
  let opening : List Component :=
    match pieces path with
    | [] :: _ :: _ => [.root]
    | ['.'] :: _ => [.current]
    | _ => []
  opening ++ (pieces path).filterMap Component.ofPiece?

/-- The last component, if it is a name. -/
def fileName? (path : List Char) : Option (List Char) :=
  match (components path).getLast? with
  | some (.normal name) => some name
  | _ => none

/-- What follows the last dot of the file name; a dot in front makes no extension. -/
def extension? (path : List Char) : Option (List Char) :=
  match fileName? path with
  | none => none
  | some name =>
    let ending := name.reverse.takeWhile (· != '.')
    if ending.length + 1 < name.length then some ending.reverse else none

/-- A name inside a directory. -/
def child (directory name : List Char) : List Char :=
  if directory = [] ∨ directory.getLast? = some '/' then directory ++ name
  else directory ++ '/' :: name

/-- Paths are ordered component by component. -/
def order (a b : List Char) : Ordering := compare (components a) (components b)

/-! ## Pieces -/

theorem pieces_ne_nil (path : List Char) : pieces path ≠ [] := by
  cases path with
  | nil => simp [pieces]
  | cons c rest =>
    simp only [pieces]
    split
    · simp
    · split <;> simp

/-- No piece holds a slash. -/
theorem not_mem_of_mem_pieces {path piece : List Char} (h : piece ∈ pieces path) : '/' ∉ piece := by
  fun_induction pieces path generalizing piece with
  | case1 => simp_all
  | case2 rest ih =>
    rcases List.mem_cons.1 h with rfl | h
    · simp
    · exact ih h
  | case3 c rest hc hp => exact absurd hp (pieces_ne_nil rest)
  | case4 c rest hc first more hp ih =>
    rcases List.mem_cons.1 h with rfl | h
    · have := @ih first (by simp [hp])
      simpa [this] using Ne.symm hc
    · exact ih (by simp [hp, h])

theorem join_cons_cons (c : Char) (piece : List Char) (more : List (List Char)) :
    Text.join '/' ((c :: piece) :: more) = c :: Text.join '/' (piece :: more) := by
  cases more <;> rfl

/-- The pieces, with slashes between, are the path. -/
theorem join_pieces (path : List Char) : Text.join '/' (pieces path) = path := by
  fun_induction pieces path with
  | case1 => rfl
  | case2 rest ih =>
    obtain ⟨piece, more, hp⟩ := List.exists_cons_of_ne_nil (pieces_ne_nil rest)
    rw [hp] at ih ⊢
    rw [Text.join, List.nil_append, ih]
    simp
  | case3 c rest hc hp => exact absurd hp (pieces_ne_nil rest)
  | case4 c rest hc piece more hp ih => rw [join_cons_cons, ← hp, ih]

/-! ## Trailing slashes -/

theorem pieces_append_slash (path : List Char) : pieces (path ++ ['/']) = pieces path ++ [[]] := by
  induction path with
  | nil => rfl
  | cons c rest ih =>
    simp only [List.cons_append, pieces, ih]
    split
    · rfl
    · cases h : pieces rest with
      | nil => exact absurd h (pieces_ne_nil rest)
      | cons piece more => rfl

theorem filterMap_ofPiece?_append_nil (ps : List (List Char)) :
    (ps ++ [[]]).filterMap Component.ofPiece? = ps.filterMap Component.ofPiece? := by
  rw [List.filterMap_append]
  simp [Component.ofPiece?]

/-- A trailing slash changes no component of a path that names something. -/
theorem components_append_slash {path : List Char} (h : path ≠ []) :
    components (path ++ ['/']) = components path := by
  unfold components
  rw [pieces_append_slash, filterMap_ofPiece?_append_nil]
  cases path with
  | nil => exact absurd rfl h
  | cons c rest =>
    obtain ⟨piece, more, hr⟩ := List.exists_cons_of_ne_nil (pieces_ne_nil rest)
    by_cases hc : c = '/'
    · simp [pieces, hc, hr]
    · simp only [pieces, hc, hr, if_false]
      by_cases hd : c :: piece = ['.'] <;> simp_all

end DeclDoc.Path
