import DeclDoc.Proofs.Passages

/-!
# Two spellings of one comment

The same lines may be written as a block with a star before each of them, or each behind three slashes.
What is taken off differs, but a line is read without the blanks around it, so both ways come to the same
lines (`read_blockSpelling`, `read_slashSpelling`). Only a block can open another block inside, and
that is what the warnings can differ in (`read_spellings`).
-/

set_option autoImplicit false

namespace DeclDoc

namespace Text

variable {c : Char} {l s t : List Char}

/-! ## Lines of a text that is put together from lines -/

/-- A line without the carriage return that a line feed takes along. -/
def chomp (l : List Char) : List Char := if l.getLast? = some '\r' then l.dropLast else l

theorem chomp_cons (h : l ≠ [] ∨ c ≠ '\r') : chomp (c :: l) = c :: chomp l := by
  cases l with
  | nil => simp [chomp, h.resolve_left (absurd rfl)]
  | cons d l =>
    simp only [chomp, List.getLast?_cons_cons, List.dropLast_cons_cons]
    split <;> rfl

theorem chomp_append {mark : List Char} (h : '\r' ∉ mark) (l : List Char) :
    chomp (mark ++ l) = mark ++ chomp l := by
  induction mark with
  | nil => rfl
  | cons c mark ih =>
    obtain ⟨hc, hmark⟩ := not_or.1 (List.mem_cons.not.1 h)
    rw [List.cons_append, chomp_cons (.inr (Ne.symm hc)), ih hmark, List.cons_append]

theorem trim_chomp (l : List Char) : trim (chomp l) = trim l := by
  unfold chomp
  split
  · next h =>
    have hsplit := List.dropLast_append_getLast? _ (Option.mem_def.2 h)
    have hreturn : ∀ c ∈ ['\r'], isBlank c = true := List.forall_mem_singleton.2 (by decide)
    have htrim := trim_append_of_isBlank hreturn l.dropLast
    rw [hsplit] at htrim
    exact htrim.symm
  · rfl

theorem lines_append_cons (h : '\n' ∉ l) (rest : List Char) :
    lines (l ++ '\n' :: rest) = chomp l :: lines rest := by
  induction l with
  | nil => rw [List.nil_append, lines]; rfl
  | cons c l ih =>
    obtain ⟨hc, hl⟩ := not_or.1 (List.mem_cons.not.1 h)
    -- a carriage return is taken along only right before the line feed
    by_cases hreturn : l ≠ [] ∨ c ≠ '\r'
    · have hrest : ∀ rest', c = '\r' → l ++ '\n' :: rest ≠ '\n' :: rest' := by
        rintro rest' rfl heq
        obtain ⟨d, l, rfl⟩ := List.exists_cons_of_ne_nil (hreturn.resolve_right (absurd rfl))
        exact hl ((List.cons.inj heq).1 ▸ List.mem_cons_self)
      rw [List.cons_append, lines, ih hl, chomp_cons hreturn]
      · exact fun heq => hc heq.symm
      · exact hrest
    · obtain ⟨hnil, hchar⟩ := not_or.1 hreturn
      rw [not_not.1 hnil, not_not.1 hchar, List.singleton_append, lines]
      rfl

theorem lines_of_not_mem (hne : l ≠ []) (h : '\n' ∉ l) : lines l = [l] := by
  induction l with
  | nil => exact absurd rfl hne
  | cons c l ih =>
    obtain ⟨hc, hl⟩ := not_or.1 (List.mem_cons.not.1 h)
    have hrest : ∀ rest, c = '\r' → l ≠ '\n' :: rest :=
      fun rest _ heq => hl (heq ▸ List.mem_cons_self)
    rw [lines]
    · cases l with
      | nil => rfl
      | cons d l => rw [ih (List.cons_ne_nil d l) hl]
    · exact fun heq => hc heq.symm
    · exact hrest

theorem trimEnd_append (h : trimEnd t ≠ []) (s : List Char) : trimEnd (s ++ t) = s ++ trimEnd t := by
  have hrest : (t.reverse.dropWhile isBlank).isEmpty = false := by
    simpa [trimEnd] using h
  simp [trimEnd, List.dropWhile_append, hrest]

end Text

namespace Comment

open Text

variable {dialect : Dialect} {l : List Char} {ls : List (List Char)}

/-! ## The spellings -/

/-- Lines behind stars. -/
def starred (ls : List (List Char)) : List Char :=
  ls.flatMap fun l => [' ', '*', ' '] ++ l ++ ['\n']

/-- A block with a star before each line. -/
def blockSpelling (ls : List (List Char)) : List Char :=
  ['/', '*', '*', '\n'] ++ starred ls ++ [' ', '*', '/']

/-- Each line behind three slashes. -/
def slashSpelling (ls : List (List Char)) : List Char :=
  List.intercalate ['\n'] (ls.map fun l => ['/', '/', '/', ' '] ++ l)

/-! ## Blocks -/

theorem starred_cons (l : List Char) (ls : List (List Char)) :
    starred (l :: ls) = [' ', '*', ' '] ++ l ++ '\n' :: starred ls := by
  simp [starred]

theorem read_starred (dialect : Dialect) (l : List Char) :
    Line.read dialect (blockLine (chomp ([' ', '*', ' '] ++ l))) = Line.read dialect l := by
  have hline : blockLine ([' ', '*', ' '] ++ chomp l) = ' ' :: chomp l := rfl
  rw [chomp_append (by decide), hline]
  exact Line.read_congr ((trim_cons (by decide) _).trans (trim_chomp l))

theorem lines_starred (h : ∀ l ∈ ls, '\n' ∉ l) :
    lines (starred ls ++ [' ']) = (ls.map fun l => chomp ([' ', '*', ' '] ++ l)) ++ [[' ']] := by
  induction ls with
  | nil => rfl
  | cons l ls ih =>
    obtain ⟨hl, hls⟩ := List.forall_mem_cons.1 h
    have hline : '\n' ∉ [' ', '*', ' '] ++ l := by simpa using hl
    have hcons : starred (l :: ls) ++ [' '] =
        ([' ', '*', ' '] ++ l) ++ '\n' :: (starred ls ++ [' ']) := by simp [starred_cons]
    rw [hcons, lines_append_cons hline, ih hls]
    rfl

/-- A closed block has the lines inside of it. -/
theorem body_of_inside (inside : List Char) :
    body (['/', '*', '*'] ++ inside ++ ['*', '/']) = .ok ((lines inside).map blockLine) := by
  have htrim : trim (['/', '*', '*'] ++ inside ++ ['*', '/']) =
      ['/', '*', '*'] ++ inside ++ ['*', '/'] := by
    have hstart : ['/', '*', '*'] ++ inside ++ ['*', '/'] =
        '/' :: (['*', '*'] ++ inside ++ ['*']) ++ ['/'] := by simp
    rw [hstart, trim, List.cons_append, trimStart_cons (by decide), ← List.cons_append,
      trimEnd_append_singleton (by decide)]
  have hopens : startsWith opener (['/', '*', '*'] ++ inside ++ ['*', '/']) = true := rfl
  have hcloses : beforeSuffix? closer (['/', '*', '*'] ++ inside ++ ['*', '/']) =
      some (['/', '*', '*'] ++ inside) := beforeSuffix?_eq_some_iff.2 rfl
  have hafter : afterOpener (['/', '*', '*'] ++ inside) = inside := rfl
  have hlength : ¬(['/', '*', '*'] ++ inside ++ ['*', '/']).length < 4 := by
    simp only [List.length_append, List.length_cons, List.length_nil]
    omega
  simp only [body, htrim, hopens, hcloses, hafter, hlength, if_true, if_false]

/-- The lines of a block stand between two blank ones. -/
theorem read_blockSpelling (dialect : Dialect) (h : ∀ l ∈ ls, '\n' ∉ l) :
    ∃ written, body (blockSpelling ls) = .ok written ∧
      written.map (Line.read dialect) = .blank :: ls.map (Line.read dialect) ++ [.blank] := by
  have hspelling : blockSpelling ls =
      ['/', '*', '*'] ++ ('\n' :: (starred ls ++ [' '])) ++ ['*', '/'] := by
    simp [blockSpelling]
  refine ⟨_, by rw [hspelling, body_of_inside], ?_⟩
  have hblank : Line.read dialect (blockLine []) = .blank ∧
      Line.read dialect (blockLine [' ']) = .blank := by cases dialect <;> decide
  have hlines : (Line.read dialect ∘ blockLine ∘ fun l => chomp ([' ', '*', ' '] ++ l)) =
      Line.read dialect := by
    funext l
    rw [Function.comp_apply, Function.comp_apply, read_starred]
  rw [lines, lines_starred h]
  simp only [List.map_cons, List.map_append, List.map_map, List.map_nil, hlines, hblank]
  rfl

/-! ## Slashes -/

theorem read_slashed (dialect : Dialect) (l : List Char) :
    Line.read dialect (slashLine (chomp (['/', '/', '/', ' '] ++ l))) = Line.read dialect l ∧
      Line.read dialect (slashLine (trimEnd (['/', '/', '/', ' '] ++ l))) = Line.read dialect l := by
  have htrimEnd : trimEnd (['/', '/', '/', ' '] ++ l) = ['/', '/', '/'] ++ trimEnd (' ' :: l) := by
    simp only [List.cons_append, List.nil_append]
    rw [trimEnd_cons (by decide), trimEnd_cons (by decide), trimEnd_cons (by decide)]
  have hslash (rest : List Char) : slashLine (['/', '/', '/'] ++ rest) = rest := rfl
  constructor
  · rw [chomp_append (by decide)]
    exact Line.read_congr ((trim_cons (by decide) _).trans (trim_chomp l))
  · rw [htrimEnd, hslash]
    exact Line.read_congr ((trim_trimEnd _).trans (trim_cons (by decide) l))

theorem slashSpelling_cons (l : List Char) (ls : List (List Char)) :
    ∃ rest, slashSpelling (l :: ls) = '/' :: '/' :: rest := by
  cases ls with
  | nil => exact ⟨_, rfl⟩
  | cons next ls => exact ⟨_, rfl⟩

theorem lines_slashed (dialect : Dialect) (l : List Char) (ls : List (List Char))
    (h : ∀ m ∈ l :: ls, '\n' ∉ m) :
    (lines (trimEnd (slashSpelling (l :: ls)))).map (Line.read dialect ∘ slashLine) =
      (l :: ls).map (Line.read dialect) := by
  have hline {l : List Char} (hl : '\n' ∉ l) : '\n' ∉ ['/', '/', '/', ' '] ++ l := by simpa using hl
  -- trimming the whole text reaches into the last line only
  induction ls generalizing l with
  | nil =>
    have hspelling : slashSpelling [l] = ['/', '/', '/', ' '] ++ l := List.intercalate_singleton
    obtain ⟨blanks, htext, -⟩ := exists_trimEnd (['/', '/', '/', ' '] ++ l)
    have hne : trimEnd (['/', '/', '/', ' '] ++ l) ≠ [] := by
      rw [List.cons_append, trimEnd_cons (by decide)]
      exact List.cons_ne_nil _ _
    have hmem : '\n' ∉ trimEnd (['/', '/', '/', ' '] ++ l) := fun hmem =>
      hline (h l List.mem_cons_self) (htext ▸ List.mem_append_left _ hmem)
    rw [hspelling, lines_of_not_mem hne hmem, List.map_singleton, Function.comp_apply,
      (read_slashed dialect l).2, List.map_singleton]
  | cons next ls ih =>
    obtain ⟨hl, hls⟩ := List.forall_mem_cons.1 h
    have hspelling : slashSpelling (l :: next :: ls) =
        (['/', '/', '/', ' '] ++ l ++ ['\n']) ++ slashSpelling (next :: ls) := by
      simp [slashSpelling, List.intercalate_cons_cons]
    have hne : trimEnd (slashSpelling (next :: ls)) ≠ [] := by
      obtain ⟨rest, hrest⟩ := slashSpelling_cons next ls
      rw [hrest, trimEnd_cons (by decide)]
      exact List.cons_ne_nil _ _
    rw [hspelling, trimEnd_append hne, List.append_assoc, List.singleton_append,
      lines_append_cons (hline hl), List.map_cons, ih next hls, Function.comp_apply,
      (read_slashed dialect l).1]
    rfl

/-- The lines behind slashes are the lines. -/
theorem read_slashSpelling (dialect : Dialect) (h : ∀ l ∈ ls, '\n' ∉ l) :
    ∃ written, body (slashSpelling ls) = .ok written ∧
      written.map (Line.read dialect) = ls.map (Line.read dialect) := by
  cases ls with
  | nil => exact ⟨[], rfl, rfl⟩
  | cons l ls =>
    obtain ⟨rest, hrest⟩ := slashSpelling_cons l ls
    have htrim : trim (slashSpelling (l :: ls)) = trimEnd (slashSpelling (l :: ls)) := by
      rw [trim, hrest, trimStart_cons (by decide)]
    have hopens : startsWith opener (trimEnd (slashSpelling (l :: ls))) = false := by
      rw [hrest, trimEnd_cons (by decide), trimEnd_cons (by decide)]
      rfl
    refine ⟨_, by simp only [body, htrim, hopens]; rfl, ?_⟩
    rw [List.map_map]
    exact lines_slashed dialect l ls h

/-! ## Openers inside -/

theorem contains_opener_cons {c : Char} (h : c ≠ '/') (s : List Char) :
    contains opener (c :: s) = contains opener s := by
  simp [contains, opener, startsWith, afterPrefix?, h.symm]

/-- No opener lies across a line feed. -/
theorem contains_opener_append (s t : List Char) :
    contains opener (s ++ '\n' :: t) = (contains opener s || contains opener t) := by
  induction s with
  | nil => exact contains_opener_cons (by decide) t
  | cons c s ih =>
    have hstarts : startsWith opener (c :: (s ++ '\n' :: t)) = startsWith opener (c :: s) := by
      cases s with
      | nil => by_cases hc : '/' = c <;> simp [startsWith, opener, afterPrefix?, hc]
      | cons d s =>
        simp only [startsWith, opener, List.cons_append, afterPrefix?]
        split
        · split <;> rfl
        · rfl
    rw [List.cons_append, contains, hstarts, ih, contains, Bool.or_assoc]

theorem contains_opener_starred (ls : List (List Char)) :
    contains opener (starred ls ++ [' ', '*', '/']) = ls.any (contains opener) := by
  induction ls with
  | nil => decide
  | cons l ls ih =>
    rw [starred_cons, List.append_assoc, List.append_assoc, List.cons_append, List.cons_append,
      List.cons_append, List.cons_append, List.nil_append, contains_opener_cons (by decide),
      contains_opener_cons (by decide), contains_opener_cons (by decide), contains_opener_append, ih,
      List.any_cons]

theorem start_slashSpelling (ls : List (List Char)) :
    (Draft.start (slashSpelling ls)).remarks = [] := by
  cases ls with
  | nil => rfl
  | cons l ls =>
    obtain ⟨rest, hrest⟩ := slashSpelling_cons l ls
    rw [hrest]
    rfl

theorem start_blockSpelling (ls : List (List Char)) :
    (Draft.start (blockSpelling ls)).remarks =
      if ls.any (contains opener) then [.nestedOpener] else [] := by
  have hafter : afterPrefix? opener (trimStart (blockSpelling ls)) =
      some ('*' :: '\n' :: (starred ls ++ [' ', '*', '/'])) := rfl
  rw [Draft.start, hafter]
  dsimp only
  rw [contains_opener_cons (by decide), contains_opener_cons (by decide), contains_opener_starred]
  split <;> rfl

/-- Blank lines at both ends make no passages. -/
theorem passages_between_blanks (lines : List Line) :
    passages (.blank :: lines ++ [.blank]) = passages lines := by
  have hapart : Apart lines [.blank] := .inr (by simp [Line.isText])
  rw [List.cons_append, passages, passages_append hapart, passages, passages, List.append_nil]

/-- Both spellings are read, as the same comment but for its raw text. The warnings are the same exactly if
no line opens a block. -/
theorem read_spellings (dialect : Dialect) (h : ∀ l ∈ ls, '\n' ∉ l) :
    ∃ block slashes, dialect.reader.read (blockSpelling ls) = .ok block ∧
      dialect.reader.read (slashSpelling ls) = .ok slashes ∧
      { block.comment with raw := slashes.comment.raw } = slashes.comment ∧
      (block.warnings = slashes.warnings ↔ ∀ l ∈ ls, contains opener l = false) := by
  obtain ⟨starredLines, hblock, hstarred⟩ := read_blockSpelling dialect h
  obtain ⟨slashedLines, hslash, hslashed⟩ := read_slashSpelling dialect h
  have hpassages : passagesIn dialect starredLines = passagesIn dialect slashedLines := by
    rw [passagesIn, hstarred, passages_between_blanks, ← hslashed]
    rfl
  refine ⟨_, _, reader_of_body dialect hblock, reader_of_body dialect hslash, ?_, ?_⟩
  · rw [hpassages]
    rfl
  · have hany : ls.any (contains opener) = false ↔ ∀ l ∈ ls, contains opener l = false := by simp
    rw [hpassages, parsedOf, parsedOf, start_blockSpelling, start_slashSpelling, ← hany]
    cases ls.any (contains opener) <;> simp

/-- A line with a star and a slash at its head, a carriage return at the end of it, a blank line, and a
directive: both spellings say the same two things. -/
theorem read_spellings_oddLines :
    let ls := ["*/ one\r", "\t", "@param x two "].map String.toList
    let comment : Comment :=
      { raw := String.ofList (slashSpelling ls)
        shortDescription := some "*/ one"
        parameters := [⟨"x", "two"⟩] }
    (∀ l ∈ ls, '\n' ∉ l) ∧
      ∃ block slashes, Reader.markup.read (blockSpelling ls) = .ok block ∧
        Reader.markup.read (slashSpelling ls) = .ok slashes ∧
        { block.comment with raw := slashes.comment.raw } = slashes.comment ∧
        (block.warnings = slashes.warnings ↔ ∀ l ∈ ls, contains opener l = false) ∧
        slashes.comment = comment ∧ slashes.warnings = [] := by
  intro ls comment
  have hlines : ∀ l ∈ ls, '\n' ∉ l := by decide
  have hread : Reader.markup.read (slashSpelling ls) = .ok { comment } := by decide +kernel
  obtain ⟨block, slashes, hblock, hslashes, hsame, hwarnings⟩ := read_spellings .markup hlines
  obtain rfl : slashes = { comment } := Except.ok.inj (hslashes.symm.trans hread)
  exact ⟨hlines, block, { comment }, hblock, hslashes, hsame, hwarnings, rfl, rfl⟩

end Comment

end DeclDoc
