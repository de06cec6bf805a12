import DeclDoc.Proofs.WordConservation

/-!
# Comments read as plain text

Plain comments know no directives, so their passages are the runs of lines that are not blank
(`passagesIn_plain`). Each run becomes one paragraph, its lines trimmed and one space apart: the text
keeps its words and their order, and no other field is filled (`read_plain`).
-/

set_option autoImplicit false

namespace DeclDoc.Comment

open Text

/-! ## Runs of lines -/

def isBlankLine (l : List Char) : Bool := l.all isBlank

/-- The maximal runs of lines that are not blank. -/
def runs (ls : List (List Char)) : List (List (List Char)) :=
  (ls.splitOnP isBlankLine).filter fun run => !run.isEmpty

variable {l : List Char} {ls : List (List Char)}

theorem isBlankLine_iff : isBlankLine l = true ↔ trim l = [] := by
  rw [trim_eq_nil_iff, isBlankLine, List.all_eq_true]

theorem runs_blank (h : isBlankLine l = true) (ls : List (List Char)) : runs (l :: ls) = runs ls := by
  simp [runs, List.splitOnP_cons_eq_if_modifyHead, h]

theorem runs_cons (h : isBlankLine l = false) (ls : List (List Char)) :
    runs (l :: ls) =
      (l :: ls.takeWhile fun l => !isBlankLine l) :: runs (ls.dropWhile fun l => !isBlankLine l) := by
  have hrun : ∀ m ∈ l :: ls.takeWhile fun l => !isBlankLine l, isBlankLine m = false :=
    List.forall_mem_cons.2 ⟨h, fun m hm => by simpa using List.mem_takeWhile_imp hm⟩
  have hsplit := List.takeWhile_append_dropWhile (p := fun l => !isBlankLine l) (l := ls)
  cases hdrop : ls.dropWhile fun l => !isBlankLine l with
  | nil =>
    rw [hdrop, List.append_nil] at hsplit
    rw [hsplit] at hrun ⊢
    rw [runs, List.splitOnP_eq_singleton hrun]
    rfl
  | cons blank more =>
    have hblank : isBlankLine blank = true := by
      have := List.head?_dropWhile_not (fun l => !isBlankLine l) ls
      rw [hdrop] at this
      simpa using this
    rw [hdrop] at hsplit
    rw [runs_blank hblank]
    conv =>
      lhs
      rw [← hsplit, ← List.cons_append, runs,
        List.splitOnP_append_cons_of_forall_mem hrun blank hblank]
    rfl

/-- A plain line is blank, or all of it is text. -/
theorem read_plain_eq (l : List Char) :
    Line.read .plain l = if isBlankLine l = true then .blank else .text (trim l) := by
  simp only [Line.read, isBlankLine_iff, List.isEmpty_iff]

theorem content_read_plain (l : List Char) : (Line.read .plain l).content = trim l := by
  rw [read_plain_eq]
  split
  · next h => exact (isBlankLine_iff.1 h).symm
  · rfl

theorem isText_read_plain : Line.isText ∘ Line.read .plain = fun l => !isBlankLine l := by
  funext l
  cases h : isBlankLine l <;> simp [read_plain_eq, h, Line.isText]

theorem directive_not_mem_plain (ls : List (List Char)) (name rest : List Char) :
    Line.directive name rest ∉ ls.map (Line.read .plain) := by
  intro h
  obtain ⟨l, -, hread⟩ := List.mem_map.1 h
  rw [read_plain_eq] at hread
  split at hread <;> cases hread

/-- The passages of plain text are the runs of lines that are not blank. -/
theorem passagesIn_plain : ∀ ls : List (List Char),
    passagesIn .plain ls = (runs ls).map fun run => ⟨{ sort := .description }, run.map trim⟩
  | [] => by simp [passagesIn, passages, runs]
  | l :: ls => by
    rw [passagesIn, List.map_cons]
    cases h : isBlankLine l with
    | true =>
      rw [read_plain_eq, if_pos h, passages, runs_blank h]
      exact passagesIn_plain ls
    | false =>
      have hbelow := passagesIn_plain (ls.dropWhile fun l => !isBlankLine l)
      have hcontent : Line.content ∘ Line.read .plain = trim := funext content_read_plain
      rw [read_plain_eq, if_neg (by simp [h]), passages, List.takeWhile_map, List.dropWhile_map,
        isText_read_plain, List.map_map, hcontent, runs_cons h, List.map_cons, ← hbelow]
      rfl
termination_by ls => ls.length
decreasing_by
  · exact Nat.lt_succ_of_le (List.dropWhile_sublist _).length_le
  · exact Nat.lt_succ_self _

theorem trim_ne_nil_of_mem_runs {run : List (List Char)} (hrun : run ∈ runs ls) (hl : l ∈ run) :
    trim l ≠ [] := by
  have hpassage : (⟨{ sort := .description }, run.map trim⟩ : Passage) ∈ passagesIn .plain ls := by
    rw [passagesIn_plain]
    exact List.mem_map_of_mem hrun
  have htext := (isFrom_of_mem_passages hpassage).texts (trim l) (List.mem_map_of_mem hl)
  obtain ⟨m, -, hread⟩ := List.mem_map.1 htext
  rw [read_plain_eq] at hread
  split at hread
  · cases hread
  · next hm => rwa [← Line.text.inj hread, ne_eq, ← isBlankLine_iff]

/-! ## Paragraphs -/

theorem foldl_extend_eq_join {text : List Char} (h : text ≠ []) (texts : List (List Char)) :
    texts.foldl extend text = join ' ' (text :: texts) := by
  induction texts generalizing text with
  | nil => rfl
  | cons more texts ih =>
    have hextend : extend text more = text ++ ' ' :: more := by simp [extend, h]
    rw [List.foldl_cons, hextend, ih (by simp)]
    cases texts with
    | nil => rfl
    | cons next texts => simp [join]

/-- The lines of a run, trimmed and one space apart. -/
def paragraphOf (run : List (List Char)) : List Char := join ' ' (run.map trim)

theorem text_of_mem_runs {run : List (List Char)} (h : run ∈ runs ls) :
    (⟨{ sort := .description }, run.map trim⟩ : Passage).text = paragraphOf run ∧
      paragraphOf run ≠ [] := by
  have hlines : ∀ l ∈ run, trim l ≠ [] := fun l hl => trim_ne_nil_of_mem_runs h hl
  cases run with
  | nil => simp [runs] at h
  | cons l run =>
    have hl := hlines l List.mem_cons_self
    refine ⟨foldl_extend_eq_join hl (run.map trim), ?_⟩
    cases run <;> simp [paragraphOf, join, hl]

theorem saidUnder_plain (ls : List (List Char)) :
    saidUnder .description (passagesIn .plain ls) = (runs ls).map paragraphOf := by
  have htexts : textsUnder .description (passagesIn .plain ls) = (runs ls).map paragraphOf := by
    rw [passagesIn_plain, textsUnder, List.filter_eq_self.2 (by simp), List.map_map]
    exact List.map_congr_left fun run hrun => (text_of_mem_runs hrun).1
  rw [saidUnder, htexts, List.filter_eq_self]
  intro text htext
  obtain ⟨run, hrun, rfl⟩ := List.mem_map.1 htext
  simpa using (text_of_mem_runs hrun).2

/-- Plain text fills the descriptions and no other field. -/
theorem commentOf_plain (ls : List (List Char)) :
    commentOf (passagesIn .plain ls) =
      { shortDescription := ((runs ls).map paragraphOf).head?.map String.ofList
        longDescription := furtherText ((runs ls).map paragraphOf) } := by
  have hother (sort : Section) (h : .description ≠ sort) :
      textsUnder sort (passagesIn .plain ls) = [] := by
    simp [passagesIn_plain, textsUnder, h]
  have hnamed : (passagesIn .plain ls).filterMap Passage.parameter? = [] ∧
      (passagesIn .plain ls).filterMap Passage.exception? = [] := by
    simp [passagesIn_plain, Passage.parameter?, Passage.exception?]
  have hsaid (sort : Section) (h : .description ≠ sort) :
      saidUnder sort (passagesIn .plain ls) = [] := by rw [saidUnder, hother sort h, List.filter_nil]
  rw [commentOf, saidUnder_plain]
  simp [hother, hsaid, hnamed]

/-- The words of the short description, then those of the long one. -/
def descriptionWords (comment : Comment) : List (List Char) :=
  (comment.shortDescription.toList ++ comment.longDescription.toList).flatMap fun text =>
    words text.toList

/-- The paragraphs have the words of the lines, in the same order. -/
theorem flatMap_words_runs (ls : List (List Char)) :
    ((runs ls).map paragraphOf).flatMap words = ls.flatMap words := by
  have hpassages := flatMap_words_content fun name rest hmem =>
    absurd hmem (directive_not_mem_plain ls name rest)
  have hlines : (ls.flatMap fun l => words (Line.read .plain l).content) = ls.flatMap words :=
    List.flatMap_congr fun l _ => by rw [content_read_plain, words_trim]
  rw [List.flatMap_map] at hpassages
  rw [← hlines, hpassages]
  change _ = (passagesIn .plain ls).flatMap Passage.words
  rw [passagesIn_plain, List.flatMap_map, List.flatMap_map]
  refine List.flatMap_congr fun run hrun => ?_
  rw [Passage.words, (text_of_mem_runs hrun).1]
  rfl

theorem runs_eq_nil_iff : runs ls = [] ↔ ∀ l ∈ ls, ∀ c ∈ l, isBlank c = true := by
  constructor
  · intro h l hl
    have hwords := flatMap_words_runs ls
    rw [h] at hwords
    exact words_eq_nil_iff.1 (List.flatMap_eq_nil_iff.1 hwords.symm l hl)
  · intro h
    induction ls with
    | nil => rfl
    | cons l ls ih =>
      obtain ⟨hl, hls⟩ := List.forall_mem_cons.1 h
      rw [runs_blank (List.all_eq_true.2 hl), ih hls]

/-- Plain text keeps its words in their order. There is one paragraph for each run of lines that are not
blank; no other field is filled, and the comment is empty exactly if all lines are blank. -/
theorem read_plain {raw : List Char} {parsed : Parsed} (h : Reader.plain.read raw = .ok parsed) :
    ∃ ls, body raw = .ok ls ∧
      parsed.comment.descriptionWords = ls.flatMap words ∧
      parsed.comment.paragraphs = (runs ls).map paragraphOf ∧
      parsed.comment =
        { raw := String.ofList raw
          shortDescription := parsed.comment.shortDescription
          longDescription := parsed.comment.longDescription } ∧
      (parsed.comment.isEmpty = true ↔ ∀ l ∈ ls, ∀ c ∈ l, isBlank c = true) := by
  obtain ⟨ls, hbody, rfl⟩ := exists_of_reader_eq_ok h
  have hlines := not_mem_of_body hbody
  have hparagraphs : (commentOf (passagesIn .plain ls)).paragraphs = (runs ls).map paragraphOf := by
    rw [paragraphs_commentOf hlines, saidUnder_plain]
  have hwords := words_furtherText ((runs ls).map paragraphOf)
  rw [commentOf_plain] at hparagraphs
  rw [parsedOf, commentOf_plain]
  refine ⟨ls, hbody, ?_, hparagraphs, rfl, ?_⟩
  · rw [← flatMap_words_runs, ← hwords, descriptionWords, List.flatMap_append, Option.toList_map,
      flatMap_words_ofList]
  · rw [← runs_eq_nil_iff, isEmpty_iff]
    cases runs ls <;> simp [furtherText]

/-- Two runs, of which the second one has a line that would be a directive elsewhere. -/
theorem read_plain_directive :
    let raw := "/** Runs\n * it.\n *\n * @param x The x.\n */".toList
    let comment : Comment :=
      { raw := String.ofList raw
        shortDescription := some "Runs it."
        longDescription := some "@param x The x." }
    Reader.plain.read raw = .ok { comment } ∧
      ∃ ls, body raw = .ok ls ∧
        comment.descriptionWords = ls.flatMap words ∧
        comment.paragraphs = (runs ls).map paragraphOf ∧
        comment =
          { raw := String.ofList raw
            shortDescription := comment.shortDescription
            longDescription := comment.longDescription } ∧
        (comment.isEmpty = true ↔ ∀ l ∈ ls, ∀ c ∈ l, isBlank c = true) := by
  intro raw comment
  have hread : Reader.plain.read raw = .ok { comment } := by decide
  exact ⟨hread, read_plain hread⟩

end DeclDoc.Comment
