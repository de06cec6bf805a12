import DeclDoc.Comment.Draft
import DeclDoc.Proofs.Words

/-!
# Lines and headings of a comment

What a line of a comment may be read as (`Line.read_cases`), and what heading a directive makes
(`Heading.ofDirective_cases`). Nothing is made up: what a line or a heading says stands in the line.
-/

set_option autoImplicit false

namespace DeclDoc.Comment

open Text

/-! ## Lines of a body -/

theorem mem_of_mem_blockLine {line : List Char} {c : Char} (h : c ∈ blockLine line) : c ∈ line := by
  refine (List.dropWhile_sublist isBlank).mem (?_ : c ∈ trimStart line)
  unfold blockLine at h
  split at h
  · next hline => rwa [hline]
  · next hline => rw [hline]; exact List.mem_cons_of_mem _ h
  · exact h

theorem mem_of_mem_slashLine {line : List Char} {c : Char} (h : c ∈ slashLine line) : c ∈ line := by
  refine (List.dropWhile_sublist isBlank).mem (?_ : c ∈ trimStart line)
  unfold slashLine at h
  cases hafter : afterAnyPrefix? [['/', '/', '/'], ['/', '/', '!'], ['/', '/']] (trimStart line) with
  | none => simpa [hafter] using h
  | some rest =>
    obtain ⟨mark, -, hrest⟩ := List.exists_of_findSome?_eq_some hafter
    rw [afterPrefix?_eq_some_iff.1 hrest]
    exact List.mem_append_right _ (by simpa [hafter] using h)

/-- No line of a body holds a line feed. -/
theorem not_mem_of_body {raw : List Char} {ls : List (List Char)} (h : body raw = .ok ls) :
    ∀ l ∈ ls, '\n' ∉ l := by
  intro l hl hmem
  simp only [body] at h
  split at h
  · split at h
    · split at h <;> cases h
      obtain ⟨line, hline, rfl⟩ := List.mem_map.1 hl
      exact not_mem_of_mem_lines hline (mem_of_mem_blockLine hmem)
    · cases h
  · cases h
    obtain ⟨line, hline, rfl⟩ := List.mem_map.1 hl
    exact not_mem_of_mem_lines hline (mem_of_mem_slashLine hmem)

/-! ## Lines as they are read -/

namespace Line

def isText : Line → Bool
  | .text _ => true
  | _ => false

/-- What a line says, without the name of its directive. -/
def content : Line → List Char
  | .blank => []
  | .directive _ rest => rest
  | .text content => content

theorem exists_of_directive? {s : List Char} {line : Line} (h : directive? s = some line) :
    ∃ mark name gap rest, line = .directive name rest ∧ s = mark :: (name ++ (gap ++ rest)) ∧
      (mark = '@' ∨ mark = '\\') ∧ ∀ c ∈ gap, isBlank c = true := by
  cases s with
  | nil => cases h
  | cons mark s =>
    simp only [directive?] at h
    split at h
    · next hmark =>
      split at h <;> cases h
      refine ⟨mark, _, (s.dropWhile Char.isAlpha).takeWhile fun c => c == ' ' || c == '\t', _, rfl,
        ?_, hmark, fun c hc => ?_⟩
      · rw [List.takeWhile_append_dropWhile, List.takeWhile_append_dropWhile]
      · have hgap := List.mem_takeWhile_imp hc
        rw [Bool.or_eq_true, beq_iff_eq, beq_iff_eq] at hgap
        rcases hgap with rfl | rfl <;> decide
    · cases h

/-- A line is blank, or all of it is text, or a mark and a name stand before the rest of it. -/
theorem read_cases (dialect : Dialect) (line : List Char) :
    (trim line = [] ∧ read dialect line = .blank) ∨
    (trim line ≠ [] ∧ read dialect line = .text (trim line)) ∨
    ∃ mark name gap rest, dialect = .markup ∧ read dialect line = .directive name rest ∧
      trim line = mark :: (name ++ (gap ++ rest)) ∧ (mark = '@' ∨ mark = '\\') ∧
      ∀ c ∈ gap, isBlank c = true := by
  by_cases hline : trim line = []
  · exact .inl ⟨hline, by simp [read, hline]⟩
  cases dialect with
  | plain => exact .inr (.inl ⟨hline, by simp [read, hline]⟩)
  | markup =>
    have hread : read .markup line = (directive? (trim line)).getD (.text (trim line)) := by
      simp [read, hline]
    cases hdirective : directive? (trim line) with
    | none =>
      rw [hdirective] at hread
      exact .inr (.inl ⟨hline, hread⟩)
    | some found =>
      obtain ⟨mark, name, gap, rest, rfl, htrim, hmark, hgap⟩ := exists_of_directive? hdirective
      rw [hdirective] at hread
      exact .inr (.inr ⟨mark, name, gap, rest, rfl, hread, htrim, hmark, hgap⟩)

/-- Blanks around a line mean nothing. -/
theorem read_congr {dialect : Dialect} {line other : List Char} (h : trim line = trim other) :
    read dialect line = read dialect other := by
  simp only [read, h]

theorem mem_of_mem_content {dialect : Dialect} {line : List Char} {c : Char}
    (h : c ∈ (read dialect line).content) : c ∈ line := by
  obtain ⟨-, hread⟩ | ⟨-, hread⟩ | ⟨mark, name, gap, rest, -, hread, htrim, -⟩ :=
    read_cases dialect line
  · rw [hread] at h
    cases h
  · rw [hread] at h
    exact mem_of_mem_trim h
  · rw [hread] at h
    have hrest : c ∈ rest := h
    refine mem_of_mem_trim ?_
    rw [htrim]
    simp [hrest]

end Line

/-! ## Headings -/

namespace Heading

/-- A heading that names what it describes has a name and, behind a blank, a text. -/
theorem named_cases (directive : String) (sort : List Char → Section) (rest : List Char) :
    named directive sort rest = { sort := .ignored, remarks := [.nameMissing directive] } ∨
    ∃ name behind, named directive sort rest = { sort := sort name, text := behind.drop 1 } ∧
      trim rest = name ++ behind ∧ ∀ c ∈ behind.head?, isBlank c = true := by
  by_cases hrest : trim rest = []
  · exact .inl (by simp [named, hrest])
  · refine .inr ⟨(trim rest).takeWhile fun c => !isBlank c, (trim rest).dropWhile fun c => !isBlank c,
      by simp [named, hrest], List.takeWhile_append_dropWhile.symm, fun c hc => ?_⟩
    have hhead := List.head?_dropWhile_not (fun c => !isBlank c) (trim rest)
    rw [Option.mem_def.1 hc] at hhead
    simpa using hhead

/-- A directive heads a named section, or one that takes all of its text, or it is not known. -/
theorem ofDirective_cases (name rest : List Char) :
    (∃ directive sort, (sort = .parameter ∨ sort = .exception) ∧
      ofDirective name rest = named directive sort rest) ∨
    (∃ sort ∈ [Section.description, .returns, .see, .warning, .bug, .deprecated],
      ofDirective name rest = { sort, text := rest }) ∨
    ofDirective name rest =
      { sort := .ignored, remarks := [.unknownDirective (String.ofList name)] } := by
  unfold ofDirective
  split
  · exact .inl ⟨_, _, .inl rfl, rfl⟩
  · exact .inl ⟨_, _, .inr rfl, rfl⟩
  · exact .inl ⟨_, _, .inr rfl, rfl⟩
  all_goals first | exact .inr (.inr rfl) | exact .inr (.inl ⟨_, by decide, rfl⟩)

theorem mem_of_mem_text {name rest : List Char} {c : Char} (h : c ∈ (ofDirective name rest).text) :
    c ∈ rest := by
  obtain ⟨directive, sort, -, hheading⟩ | ⟨sort, -, hheading⟩ | hheading :=
    ofDirective_cases name rest
  · rw [hheading] at h
    obtain hnamed | ⟨target, behind, hnamed, htrim, -⟩ := named_cases directive sort rest
    · rw [hnamed] at h
      cases h
    · rw [hnamed] at h
      refine mem_of_mem_trim ?_
      rw [htrim]
      exact List.mem_append_right _ (List.mem_of_mem_drop h)
  · rwa [hheading] at h
  · rw [hheading] at h
    cases h

end Heading

end DeclDoc.Comment
