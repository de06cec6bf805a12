import DeclDoc.Proofs.CommentLines

/-!
# Passages of a comment

The lines of a comment fall into passages: a directive with the text lines right behind it, or text
lines that no directive heads. Blank lines stand between passages and in none. Reading the lines one
after the other comes to what the passages say, each in the section of its heading (`readLines_eq`,
`read_eq`), so every field of a comment can be told from the passages alone (`commentOf`).
-/

set_option autoImplicit false

namespace DeclDoc.Comment

open Text

/-! ## Passages -/

/-- A heading and the lines of text below it. -/
structure Passage where
  heading : Heading
  texts : List (List Char)

def passages : List Line → List Passage
  | [] => []
  | .blank :: rest => passages rest
  | .directive name after :: rest =>
    ⟨.ofDirective name after, (rest.takeWhile Line.isText).map Line.content⟩ ::
      passages (rest.dropWhile Line.isText)
  | .text content :: rest =>
    ⟨{ sort := .description }, content :: (rest.takeWhile Line.isText).map Line.content⟩ ::
      passages (rest.dropWhile Line.isText)
termination_by lines => lines.length
decreasing_by
  · exact Nat.lt_succ_self _
  · exact Nat.lt_succ_of_le (List.dropWhile_sublist _).length_le
  · exact Nat.lt_succ_of_le (List.dropWhile_sublist _).length_le

/-- Nothing is open where the first lines end or the further ones begin. -/
def Apart (lines more : List Line) : Prop :=
  (∀ line ∈ lines.getLast?, line = .blank) ∨ ∀ line ∈ more.head?, line.isText = false

theorem Apart.tail {line : Line} {lines more : List Line} (h : Apart (line :: lines) more) :
    Apart lines more := by
  refine h.imp_left fun hlast last hmem => hlast last ?_
  rw [List.getLast?_cons, Option.mem_def.1 hmem]
  rfl

/-- Text behind a line ends where it would end without the further lines. -/
theorem Apart.span {line : Line} {lines more : List Line} (h : Apart (line :: lines) more)
    (hline : line ≠ .blank) :
    (lines ++ more).takeWhile Line.isText = lines.takeWhile Line.isText ∧
      (lines ++ more).dropWhile Line.isText = lines.dropWhile Line.isText ++ more ∧
      Apart (lines.dropWhile Line.isText) more := by
  induction lines generalizing line with
  | nil =>
    have hmore : ∀ line ∈ more.head?, line.isText = false :=
      h.resolve_left fun hlast => hline (hlast line rfl)
    cases more with
    | nil => exact ⟨rfl, rfl, .inr hmore⟩
    | cons first more =>
      have hfirst := hmore first rfl
      simp [hfirst, Apart]
  | cons next lines ih =>
    cases hnext : next.isText with
    | true =>
      obtain ⟨htake, hdrop, hrest⟩ := ih h.tail (by rintro rfl; cases hnext)
      simp [hnext, htake, hdrop, hrest]
    | false => simpa [hnext] using h.tail

theorem passages_append {lines more : List Line} (h : Apart lines more) :
    passages (lines ++ more) = passages lines ++ passages more := by
  fun_induction passages lines with
  | case1 => rfl
  | case2 rest ih => rw [List.cons_append, passages, ih h.tail]
  | case3 name after rest ih =>
    obtain ⟨htake, hdrop, hrest⟩ := h.span (by simp)
    rw [List.cons_append, passages, htake, hdrop, ih hrest, List.cons_append]
  | case4 content rest ih =>
    obtain ⟨htake, hdrop, hrest⟩ := h.span (by simp)
    rw [List.cons_append, passages, htake, hdrop, ih hrest, List.cons_append]

/-- The heading and the texts of a passage stand in the lines. -/
structure Passage.IsFrom (lines : List Line) (passage : Passage) : Prop where
  heading : passage.heading = { sort := .description } ∨
    ∃ name rest, .directive name rest ∈ lines ∧ passage.heading = .ofDirective name rest
  texts : ∀ text ∈ passage.texts, .text text ∈ lines

theorem Passage.IsFrom.mono {lines more : List Line} {passage : Passage}
    (h : passage.IsFrom lines) (hsub : ∀ line ∈ lines, line ∈ more) : passage.IsFrom more where
  heading := h.heading.imp_right fun ⟨name, rest, hmem, hheading⟩ =>
    ⟨name, rest, hsub _ hmem, hheading⟩
  texts text htext := hsub _ (h.texts text htext)

theorem text_mem_of_mem_span {lines : List Line} {text : List Char}
    (h : text ∈ (lines.takeWhile Line.isText).map Line.content) : .text text ∈ lines := by
  obtain ⟨line, hline, rfl⟩ := List.mem_map.1 h
  have htext := List.mem_takeWhile_imp hline
  have hmem := (List.takeWhile_sublist _).mem hline
  cases line with
  | text content => exact hmem
  | _ => cases htext

theorem isFrom_of_mem_passages {lines : List Line} {passage : Passage}
    (h : passage ∈ passages lines) : passage.IsFrom lines := by
  have hbelow {line : Line} {rest : List Line} (hrest : passage.IsFrom (rest.dropWhile Line.isText)) :
      passage.IsFrom (line :: rest) :=
    hrest.mono fun _ hline => List.mem_cons_of_mem _ ((List.dropWhile_sublist _).mem hline)
  fun_induction passages lines with
  | case1 => cases h
  | case2 rest ih => exact (ih h).mono fun _ hline => List.mem_cons_of_mem _ hline
  | case3 name after rest ih =>
    rcases List.mem_cons.1 h with rfl | h
    · exact ⟨.inr ⟨name, after, List.mem_cons_self, rfl⟩,
        fun text htext => List.mem_cons_of_mem _ (text_mem_of_mem_span htext)⟩
    · exact hbelow (ih h)
  | case4 content rest ih =>
    rcases List.mem_cons.1 h with rfl | h
    · refine ⟨.inl rfl, fun text htext => ?_⟩
      rcases List.mem_cons.1 htext with rfl | htext
      · exact List.mem_cons_self
      · exact List.mem_cons_of_mem _ (text_mem_of_mem_span htext)
    · exact hbelow (ih h)

/-- No directive goes without its passage. -/
theorem exists_passage_of_directive {lines : List Line} {name rest : List Char}
    (h : .directive name rest ∈ lines) :
    ∃ passage ∈ passages lines, passage.heading = .ofDirective name rest := by
  have hbelow {line : Line} {more : List Line} (hline : line ≠ .directive name rest)
      (h : .directive name rest ∈ line :: more) :
      .directive name rest ∈ more.dropWhile Line.isText := by
    have hmore := (List.mem_cons.1 h).resolve_left (Ne.symm hline)
    rw [← List.takeWhile_append_dropWhile (p := Line.isText) (l := more), List.mem_append] at hmore
    exact hmore.resolve_left fun htake => absurd (List.mem_takeWhile_imp htake) (by simp [Line.isText])
  fun_induction passages lines with
  | case1 => cases h
  | case2 more ih => exact ih ((List.mem_cons.1 h).resolve_left (by simp))
  | case3 other after more ih =>
    by_cases hline : Line.directive other after = .directive name rest
    · cases hline
      exact ⟨_, List.mem_cons_self, rfl⟩
    · obtain ⟨passage, hpassage, hheading⟩ := ih (hbelow hline h)
      exact ⟨passage, List.mem_cons_of_mem _ hpassage, hheading⟩
  | case4 content more ih =>
    obtain ⟨passage, hpassage, hheading⟩ := ih (hbelow (by simp) h)
    exact ⟨passage, List.mem_cons_of_mem _ hpassage, hheading⟩

/-! ## What a passage says -/

/-- Text, and a space before more of it. -/
def extend (text more : List Char) : List Char := if text.isEmpty then more else text ++ ' ' :: more

namespace Passage

/-- The text of the heading and of the lines below it. -/
def text (passage : Passage) : List Char := passage.texts.foldl extend (trim passage.heading.text)

def parameter? (passage : Passage) : Option NamedDescription :=
  match passage.heading.sort with
  | .parameter name => some ⟨String.ofList name, String.ofList passage.text⟩
  | _ => none

def exception? (passage : Passage) : Option NamedDescription :=
  match passage.heading.sort with
  | .exception name => some ⟨String.ofList name, String.ofList passage.text⟩
  | _ => none

/-- What is odd about the heading, then about a section that says nothing. -/
def remarks (passage : Passage) : List Remark :=
  passage.heading.remarks ++
    if passage.text.isEmpty then
      match passage.heading.sort with
      | .parameter name => [.descriptionMissing (String.ofList name)]
      | .returns => [.returnsEmpty]
      | _ => []
    else []

end Passage

/-! ## What passages come to -/

/-- The texts of one section. -/
def textsUnder (sort : Section) (ps : List Passage) : List (List Char) :=
  (ps.filter fun passage => passage.heading.sort = sort).map Passage.text

/-- The texts of one section that say something. -/
def saidUnder (sort : Section) (ps : List Passage) : List (List Char) :=
  (textsUnder sort ps).filter fun text => !text.isEmpty

section
variable (sort : Section) (ps more : List Passage) (passage : Passage)

theorem textsUnder_append :
    textsUnder sort (ps ++ more) = textsUnder sort ps ++ textsUnder sort more := by
  simp [textsUnder]

theorem saidUnder_append :
    saidUnder sort (ps ++ more) = saidUnder sort ps ++ saidUnder sort more := by
  simp [saidUnder, textsUnder_append]

theorem textsUnder_singleton :
    textsUnder sort [passage] = if passage.heading.sort = sort then [passage.text] else [] := by
  by_cases h : passage.heading.sort = sort <;> simp [textsUnder, h]

theorem saidUnder_singleton :
    saidUnder sort [passage] =
      if passage.heading.sort = sort ∧ passage.text ≠ [] then [passage.text] else [] := by
  by_cases h : passage.heading.sort = sort <;> by_cases htext : passage.text = [] <;>
    simp [saidUnder, textsUnder_singleton, h, htext]

end

/-- The paragraphs below the first one, with a blank line between each two. -/
def furtherText (paragraphs : List (List Char)) : Option String :=
  match paragraphs.tail with
  | [] => none
  | more => some (String.ofList (List.intercalate ['\n', '\n'] more))

/-- The first text about the returned value counts, and the last one about deprecation. -/
def commentOf (ps : List Passage) : Comment where
  shortDescription := (saidUnder .description ps).head?.map String.ofList
  longDescription := furtherText (saidUnder .description ps)
  parameters := ps.filterMap Passage.parameter?
  returns := (saidUnder .returns ps).head?.map String.ofList
  exceptions := ps.filterMap Passage.exception?
  seeAlso := ((textsUnder .see ps).flatMap words).map String.ofList
  warnings := (saidUnder .warning ps).map String.ofList
  bugs := (saidUnder .bug ps).map String.ofList
  deprecated := (textsUnder .deprecated ps).getLast?.map String.ofList

namespace Draft

/-- A draft in which passages have been read and the last one is closed. -/
def ofPassages (remarks : List Remark) (ps : List Passage) : Draft where
  comment := { commentOf ps with shortDescription := none, longDescription := none }
  paragraphs := saidUnder .description ps
  remarks := remarks ++ ps.flatMap Passage.remarks

def addPassage (draft : Draft) (passage : Passage) : Draft :=
  (passage.texts.foldl addText (draft.openSection passage.heading)).close

theorem close_ofPassages (remarks : List Remark) (ps : List Passage) :
    (ofPassages remarks ps).close = ofPassages remarks ps := rfl

theorem foldl_addText (draft : Draft) (texts : List (List Char)) :
    texts.foldl addText draft = { draft with buffer := texts.foldl extend draft.buffer } := by
  induction texts generalizing draft with
  | nil => rfl
  | cons text texts ih => exact ih (draft.addText text)

theorem openSection_ofPassages (remarks : List Remark) (ps : List Passage) (heading : Heading) :
    (ofPassages remarks ps).openSection heading =
      { ofPassages remarks ps with
        current := heading.sort
        buffer := trim heading.text
        remarks := (ofPassages remarks ps).remarks ++ heading.remarks } := by
  rw [openSection, close_ofPassages]
  dsimp only
  split
  · next h => rw [List.isEmpty_iff.1 h]; rfl
  · rfl

theorem addPassage_ofPassages (remarks : List Remark) (ps : List Passage) (passage : Passage) :
    (ofPassages remarks ps).addPassage passage = ofPassages remarks (ps ++ [passage]) := by
  rw [addPassage, openSection_ofPassages, foldl_addText]
  have htext : passage.texts.foldl extend (trim passage.heading.text) = passage.text := rfl
  dsimp only
  rw [htext]
  unfold close
  dsimp only
  -- one case for each section, with a text and without
  cases hsort : passage.heading.sort <;> by_cases h : passage.text = [] <;>
    simp [ofPassages, commentOf, Passage.parameter?, Passage.exception?, Passage.remarks, hsort,
      textsUnder_append, saidUnder_append, textsUnder_singleton, saidUnder_singleton, h,
      List.head?_append]

/-! ## Line by line and passage by passage -/

theorem close_current (draft : Draft) : draft.close.current = .description := by
  unfold close
  cases draft.current <;> simp [apply_ite Draft.current]

theorem close_buffer (draft : Draft) : draft.close.buffer = [] := by
  unfold close
  cases draft.current <;> simp [apply_ite Draft.buffer]

theorem close_of_closed {draft : Draft} (hcurrent : draft.current = .description)
    (hbuffer : draft.buffer = []) : draft.close = draft := by
  obtain ⟨comment, paragraphs, remarks, current, buffer⟩ := draft
  subst hcurrent hbuffer
  rfl

theorem close_close (draft : Draft) : draft.close.close = draft.close :=
  close_of_closed (close_current draft) (close_buffer draft)

theorem foldl_readLine_texts {lines : List Line} (h : ∀ line ∈ lines, line.isText = true)
    (draft : Draft) : lines.foldl readLine draft = (lines.map Line.content).foldl addText draft := by
  induction lines generalizing draft with
  | nil => rfl
  | cons line lines ih =>
    cases line with
    | text content => exact ih (fun next hnext => h next (List.mem_cons_of_mem _ hnext)) _
    | _ => cases h _ List.mem_cons_self

/-- Lines that no text begins close what is open. -/
theorem close_foldl_readLine_close {lines : List Line}
    (h : ∀ line ∈ lines.head?, line.isText = false) (draft : Draft) :
    (lines.foldl readLine draft.close).close = (lines.foldl readLine draft).close := by
  cases lines with
  | nil => exact close_close draft
  | cons line lines =>
    have hline : draft.close.readLine line = draft.readLine line := by
      cases line with
      | blank => exact close_close draft
      | directive name rest => simp only [readLine, openSection, close_close]
      | text content => cases h _ rfl
    rw [List.foldl_cons, hline, List.foldl_cons]

/-- Text is read up to the first line that closes its section. -/
theorem close_foldl_readLine_span (lines : List Line) (draft : Draft) :
    (lines.foldl readLine draft).close =
      ((lines.dropWhile Line.isText).foldl readLine
        (((lines.takeWhile Line.isText).map Line.content).foldl addText draft).close).close := by
  have hhead : ∀ line ∈ (lines.dropWhile Line.isText).head?, line.isText = false := by
    intro line hline
    have := List.head?_dropWhile_not Line.isText lines
    rwa [Option.mem_def.1 hline] at this
  rw [close_foldl_readLine_close hhead,
    ← foldl_readLine_texts fun line hline => List.mem_takeWhile_imp hline, ← List.foldl_append,
    List.takeWhile_append_dropWhile]

/-- Reading lines adds the passages that they are. -/
theorem close_foldl_readLine (lines : List Line) (remarks : List Remark) (ps : List Passage) :
    (lines.foldl readLine (ofPassages remarks ps)).close =
      ofPassages remarks (ps ++ passages lines) := by
  fun_induction passages lines generalizing ps with
  | case1 => rw [List.foldl_nil, close_ofPassages, List.append_nil]
  | case2 rest ih => exact ih ps
  | case3 name after rest ih =>
    have hadd := addPassage_ofPassages remarks ps
      ⟨.ofDirective name after, (rest.takeWhile Line.isText).map Line.content⟩
    rw [addPassage] at hadd
    rw [List.foldl_cons, readLine, close_foldl_readLine_span, hadd, ih, List.append_assoc,
      List.singleton_append]
  | case4 content rest ih =>
    have hadd := addPassage_ofPassages remarks ps
      ⟨{ sort := .description }, content :: (rest.takeWhile Line.isText).map Line.content⟩
    -- text behind a closed draft needs no heading: a description is open there
    have hopen : (ofPassages remarks ps).openSection { sort := .description } =
        ofPassages remarks ps := by
      rw [openSection_ofPassages, List.append_nil]
      rfl
    rw [addPassage, hopen, List.foldl_cons] at hadd
    rw [List.foldl_cons, readLine, close_foldl_readLine_span, hadd, ih, List.append_assoc,
      List.singleton_append]

theorem start_eq (raw : List Char) : start raw = ofPassages (start raw).remarks [] := by
  unfold start
  split
  · split <;> rfl
  · rfl

end Draft

/-! ## Whole comments -/

/-- The passages of the lines of a body. -/
def passagesIn (dialect : Dialect) (ls : List (List Char)) : List Passage :=
  passages (ls.map (Line.read dialect))

/-- What lines of a body are read as, wherever they were found. -/
def readLines (dialect : Dialect) (ls : List (List Char)) : Reading :=
  let draft := (ls.map (Line.read dialect)).foldl Draft.readLine {}
  { comment := draft.finish [], remarks := draft.close.remarks }

theorem readLines_eq (dialect : Dialect) (ls : List (List Char)) :
    readLines dialect ls =
      { comment := commentOf (passagesIn dialect ls)
        remarks := (passagesIn dialect ls).flatMap Passage.remarks } := by
  have hclose := Draft.close_foldl_readLine (ls.map (Line.read dialect)) [] []
  have hempty : ({} : Draft) = Draft.ofPassages [] [] := rfl
  rw [readLines, Draft.finish, hempty, hclose]
  rfl

theorem read_eq (dialect : Dialect) (raw : List Char) :
    read dialect raw =
      (body raw).map fun ls =>
        { comment := { (readLines dialect ls).comment with raw := String.ofList raw }
          remarks := (Draft.start raw).remarks ++ (readLines dialect ls).remarks } := by
  have hclose (ls : List (List Char)) :=
    Draft.close_foldl_readLine (ls.map (Line.read dialect)) (Draft.start raw).remarks []
  rw [← Draft.start_eq] at hclose
  simp only [read, Draft.finish, hclose, readLines_eq]
  rfl

/-- What is made of a raw text whose body has these passages. -/
def parsedOf (raw : List Char) (ps : List Passage) : Parsed where
  comment := { commentOf ps with raw := String.ofList raw }
  warnings := ((Draft.start raw).remarks ++ ps.flatMap Passage.remarks).map Remark.message

theorem reader_of_body (dialect : Dialect) {raw : List Char} {ls : List (List Char)}
    (h : body raw = .ok ls) :
    dialect.reader.read raw = .ok (parsedOf raw (passagesIn dialect ls)) := by
  simp only [Dialect.reader, read_eq, readLines_eq, h]
  rfl

theorem exists_of_reader_eq_ok {dialect : Dialect} {raw : List Char} {parsed : Parsed}
    (h : dialect.reader.read raw = .ok parsed) :
    ∃ ls, body raw = .ok ls ∧ parsed = parsedOf raw (passagesIn dialect ls) := by
  cases hbody : body raw with
  | error e =>
    have hread : read dialect raw = .error e := read_eq_error_iff.2 hbody
    simp only [Dialect.reader, hread] at h
    cases h
  | ok ls =>
    rw [reader_of_body dialect hbody] at h
    exact ⟨ls, rfl, (Except.ok.inj h).symm⟩

end DeclDoc.Comment
