import DeclDoc.Proofs.Paragraphs
import Mathlib.Data.List.Perm.Basic

/-!
# No word of a comment is lost

Each word of a line, the name of a directive apart, is a word of one passage
(`flatMap_words_content`), and a passage that is not ignored puts its words into one field. Only two
fields have room for one text and drop the others: so what a comment without remarks says and the texts
that are superseded (`superseded`) are together the words of its lines (`fieldWords_conserved`).
-/

set_option autoImplicit false

namespace DeclDoc.Comment

open Text

/-! ## Words of lines -/

/-- A line without the directive that heads it. -/
def withoutDirective (l : List Char) : List Char :=
  match Line.read .markup l with
  | .directive name _ => (trim l).drop (name.length + 1)
  | _ => l

theorem words_withoutDirective (l : List Char) :
    words (withoutDirective l) = words (Line.read .markup l).content := by
  unfold withoutDirective
  obtain ⟨htrim, hread⟩ | ⟨-, hread⟩ | ⟨mark, name, gap, rest, -, hread, htrim, -, hgap⟩ :=
    Line.read_cases .markup l
  · rw [hread, ← words_trim, htrim]
    rfl
  · rw [hread]
    exact (words_trim l).symm
  · have hdrop : (trim l).drop (name.length + 1) = gap ++ rest := by
      rw [htrim, List.drop_succ_cons, List.drop_left]
    rw [hread]
    dsimp only [Line.content]
    rw [hdrop, words_blank_append hgap]

/-! ## Words of passages -/

/-- What a section describes, if it names it. -/
def Section.name : Section → List Char
  | .parameter name => name
  | .exception name => name
  | _ => []

/-- The name and the text behind a directive have its words. -/
theorem Heading.words_ofDirective {name rest : List Char} (h : (ofDirective name rest).remarks = []) :
    words rest = words (ofDirective name rest).sort.name ++ words (ofDirective name rest).text ∧
      (ofDirective name rest).sort ≠ .ignored := by
  obtain ⟨directive, sort, hsort, hheading⟩ | ⟨sort, hsort, hheading⟩ | hheading :=
    ofDirective_cases name rest
  · rw [hheading] at h ⊢
    obtain hnamed | ⟨target, behind, hnamed, htrim, hbehind⟩ := named_cases directive sort rest
    · rw [hnamed] at h
      cases h
    · have hname : (sort target).name = target ∧ sort target ≠ .ignored := by
        rcases hsort with rfl | rfl <;> exact ⟨rfl, by simp⟩
      rw [hnamed]
      refine ⟨?_, hname.2⟩
      dsimp only
      rw [hname.1, ← words_trim, htrim]
      cases behind with
      | nil => simp [words]
      | cons blank text => exact words_append_cons (hbehind blank rfl) target text
  · have hname : ∀ sort ∈ [Section.description, .returns, .see, .warning, .bug, .deprecated],
        sort.name = [] ∧ sort ≠ .ignored := by decide
    rw [hheading]
    dsimp only
    rw [(hname sort hsort).1]
    exact ⟨rfl, (hname sort hsort).2⟩
  · rw [hheading] at h
    cases h

theorem words_extend (text more : List Char) : words (extend text more) = words text ++ words more := by
  unfold extend
  split
  · next h => rw [List.isEmpty_iff.1 h]; rfl
  · exact words_append_cons (by decide) text more

theorem words_foldl_extend (texts : List (List Char)) (text : List Char) :
    words (texts.foldl extend text) = words text ++ texts.flatMap words := by
  induction texts generalizing text with
  | nil => simp
  | cons more texts ih =>
    rw [List.foldl_cons, ih, words_extend, List.flatMap_cons, List.append_assoc]

namespace Passage

/-- The words of the name and of the text. -/
def words (passage : Passage) : List (List Char) :=
  Text.words passage.heading.sort.name ++ Text.words passage.text

theorem words_eq (passage : Passage) :
    passage.words = Text.words passage.heading.sort.name ++
      (Text.words passage.heading.text ++ passage.texts.flatMap Text.words) := by
  rw [words, text, words_foldl_extend, words_trim]

end Passage

/-- The lines have the words of their passages, one after the other. -/
theorem flatMap_words_content {lines : List Line}
    (h : ∀ name rest, .directive name rest ∈ lines → (Heading.ofDirective name rest).remarks = []) :
    lines.flatMap (fun line => words line.content) = (passages lines).flatMap Passage.words := by
  have hspan (rest : List Line) :
      rest.flatMap (fun line => words line.content) =
        ((rest.takeWhile Line.isText).map Line.content).flatMap words ++
          (rest.dropWhile Line.isText).flatMap fun line => words line.content := by
    rw [List.flatMap_map, ← List.flatMap_append, List.takeWhile_append_dropWhile]
  have hbelow {line : Line} {rest : List Line}
      (h : ∀ name after, .directive name after ∈ line :: rest →
        (Heading.ofDirective name after).remarks = []) :
      ∀ name after, .directive name after ∈ rest.dropWhile Line.isText →
        (Heading.ofDirective name after).remarks = [] :=
    fun name after hmem =>
      h name after (List.mem_cons_of_mem _ ((List.dropWhile_sublist _).mem hmem))
  fun_induction passages lines with
  | case1 => rfl
  | case2 rest ih => exact ih fun name after hmem => h name after (List.mem_cons_of_mem _ hmem)
  | case3 name after rest ih =>
    have hheading := (Heading.words_ofDirective (h name after List.mem_cons_self)).1
    rw [List.flatMap_cons, hspan, ih (hbelow h), List.flatMap_cons, Passage.words_eq]
    simp only [Line.content, hheading, List.append_assoc]
  | case4 content rest ih =>
    rw [List.flatMap_cons, hspan, ih (hbelow h), List.flatMap_cons, Passage.words_eq,
      List.flatMap_cons]
    simp only [Line.content, Section.name, words, List.nil_append, List.append_assoc]

/-! ## Words of sections -/

def entryWords (entries : List NamedDescription) : List (List Char) :=
  entries.flatMap fun entry => words entry.name.toList ++ words entry.description.toList

/-- The words of all passages under each heading that is not ignored. -/
def sectionWords (ps : List Passage) : List (List Char) :=
  (textsUnder .description ps).flatMap words ++ entryWords (ps.filterMap Passage.parameter?) ++
    (textsUnder .returns ps).flatMap words ++ entryWords (ps.filterMap Passage.exception?) ++
    (textsUnder .see ps).flatMap words ++ (textsUnder .warning ps).flatMap words ++
    (textsUnder .bug ps).flatMap words ++ (textsUnder .deprecated ps).flatMap words

theorem sectionWords_singleton {passage : Passage} (h : passage.heading.sort ≠ .ignored) :
    sectionWords [passage] = passage.words := by
  unfold sectionWords Passage.words entryWords Passage.parameter? Passage.exception?
  simp only [textsUnder_singleton]
  cases hsort : passage.heading.sort with
  | ignored => exact absurd hsort h
  | _ => simp [hsort, Section.name, words]

theorem sectionWords_append (ps more : List Passage) :
    (sectionWords (ps ++ more)).Perm (sectionWords ps ++ sectionWords more) := by
  rw [List.perm_iff_count]
  intro word
  simp only [sectionWords, entryWords, textsUnder_append, List.filterMap_append, List.flatMap_append,
    List.count_append]
  omega

/-- Every word of a passage is in one section. -/
theorem sectionWords_perm {ps : List Passage} (h : ∀ passage ∈ ps, passage.heading.sort ≠ .ignored) :
    (sectionWords ps).Perm (ps.flatMap Passage.words) := by
  induction ps with
  | nil => exact .refl _
  | cons passage ps ih =>
    obtain ⟨hpassage, hps⟩ := List.forall_mem_cons.1 h
    have happend := sectionWords_append [passage] ps
    rw [sectionWords_singleton hpassage] at happend
    exact happend.trans ((ih hps).append_left _)

/-! ## Words of fields -/

/-- The texts of all fields. -/
def texts (comment : Comment) : List String :=
  comment.shortDescription.toList ++ comment.longDescription.toList ++
    comment.parameters.flatMap (fun entry => [entry.name, entry.description]) ++
    comment.returns.toList ++
    comment.exceptions.flatMap (fun entry => [entry.name, entry.description]) ++
    comment.seeAlso ++ comment.warnings ++ comment.bugs ++ comment.deprecated.toList

def fieldWords (comment : Comment) : List (List Char) :=
  comment.texts.flatMap fun text => words text.toList

/-- Texts for which there is no room: all but the first one about the returned value, and all but the last
one about deprecation. -/
def superseded (ps : List Passage) : List (List Char) :=
  (saidUnder .returns ps).tail ++ (textsUnder .deprecated ps).dropLast

theorem words_intercalate (paragraphs : List (List Char)) :
    words (List.intercalate ['\n', '\n'] paragraphs) = paragraphs.flatMap words := by
  induction paragraphs with
  | nil => rfl
  | cons paragraph paragraphs ih =>
    cases paragraphs with
    | nil => simp
    | cons next paragraphs =>
      rw [List.intercalate_cons_cons, List.append_assoc, List.cons_append, List.singleton_append,
        words_append_cons (by decide), words_cons (by decide), ih]
      rfl

/-- The first paragraph and the further text have the words of the paragraphs, one after the other. -/
theorem words_furtherText (paragraphs : List (List Char)) :
    paragraphs.head?.toList.flatMap words ++
      (furtherText paragraphs).toList.flatMap (fun text => words text.toList) =
      paragraphs.flatMap words := by
  cases paragraphs with
  | nil => rfl
  | cons first more =>
    cases more with
    | nil => simp [furtherText]
    | cons next more =>
      have hwords := words_intercalate (next :: more)
      simp [furtherText, hwords]

theorem flatMap_words_saidUnder (sort : Section) (ps : List Passage) :
    (saidUnder sort ps).flatMap words = (textsUnder sort ps).flatMap words := by
  unfold saidUnder
  induction textsUnder sort ps with
  | nil => rfl
  | cons text texts ih => cases text <;> simp [words, ih]

theorem flatMap_words_ofList (texts : List (List Char)) :
    (texts.map String.ofList).flatMap (fun text => words text.toList) = texts.flatMap words := by
  simp [List.flatMap_map]

/-- What the fields say and what is superseded is what stands in the sections. -/
theorem fieldWords_commentOf (ps : List Passage) :
    ((commentOf ps).fieldWords ++ (superseded ps).flatMap words).Perm (sectionWords ps) := by
  have hentries (entries : List NamedDescription) :
      (entries.flatMap fun entry => [entry.name, entry.description]).flatMap
        (fun text => words text.toList) = entryWords entries := by
    simp [entryWords, List.flatMap_assoc]
  have hsee : ((textsUnder .see ps).flatMap words).flatMap words =
      (textsUnder .see ps).flatMap words := by
    rw [List.flatMap_assoc]
    exact List.flatMap_congr fun text _ => flatMap_words_words text
  have hreturns : (saidUnder .returns ps).head?.toList ++ (saidUnder .returns ps).tail =
      saidUnder .returns ps := by cases saidUnder .returns ps <;> rfl
  have hdeprecated : (textsUnder .deprecated ps).dropLast ++
      (textsUnder .deprecated ps).getLast?.toList = textsUnder .deprecated ps := by
    cases h : (textsUnder .deprecated ps).getLast? with
    | none => simp [List.getLast?_eq_none_iff.1 h]
    | some last => exact List.dropLast_append_getLast? last h
  -- no field is put where its section is, so each word is counted on both sides
  rw [List.perm_iff_count]
  intro word
  have hdescription := congrArg (List.count word) (words_furtherText (saidUnder .description ps))
  replace hreturns := congrArg (fun texts => (texts.flatMap words).count word) hreturns
  replace hdeprecated := congrArg (fun texts => (texts.flatMap words).count word) hdeprecated
  simp only [List.flatMap_append, List.count_append, flatMap_words_saidUnder]
    at hdescription hreturns hdeprecated
  simp only [fieldWords, texts, commentOf, superseded, sectionWords, List.flatMap_append,
    List.count_append, hentries, Option.toList_map, flatMap_words_ofList, hsee,
    flatMap_words_saidUnder]
  omega

/-! ## Comments without remarks -/

/-- Lines without remarks have the words that the fields and the superseded texts have. -/
theorem words_perm_of_remarks {ls : List (List Char)}
    (h : (passagesIn .markup ls).flatMap Passage.remarks = []) :
    (ls.flatMap fun l => words (withoutDirective l)).Perm
      ((commentOf (passagesIn .markup ls)).fieldWords ++
        (superseded (passagesIn .markup ls)).flatMap words) := by
  have hquiet : ∀ name rest, Line.directive name rest ∈ ls.map (Line.read .markup) →
      (Heading.ofDirective name rest).remarks = [] := by
    intro name rest hmem
    obtain ⟨passage, hpassage, hheading⟩ := exists_passage_of_directive hmem
    have hremarks := List.flatMap_eq_nil_iff.1 h passage hpassage
    rw [← hheading]
    exact (List.append_eq_nil_iff.1 hremarks).1
  have hsort : ∀ passage ∈ passagesIn .markup ls, passage.heading.sort ≠ .ignored := by
    intro passage hpassage
    obtain hheading | ⟨name, rest, hmem, hheading⟩ := (isFrom_of_mem_passages hpassage).heading
    · rw [hheading]
      simp
    · rw [hheading]
      exact (Heading.words_ofDirective (hquiet name rest hmem)).2
  have hlines : (ls.flatMap fun l => words (withoutDirective l)) =
      (passagesIn .markup ls).flatMap Passage.words := by
    rw [passagesIn, ← flatMap_words_content hquiet, List.flatMap_map]
    exact List.flatMap_congr fun l _ => words_withoutDirective l
  rw [hlines]
  exact (sectionWords_perm hsort).symm.trans (fieldWords_commentOf _).symm

/-- A comment that is read without warnings says every word of its lines, but for the directives and what
is superseded; so it says all of them exactly if what is superseded says nothing. -/
theorem fieldWords_conserved {raw : List Char} {comment : Comment}
    (h : Reader.markup.read raw = .ok { comment }) :
    ∃ ls, body raw = .ok ls ∧
      (ls.flatMap fun l => words (withoutDirective l)).Perm
        (comment.fieldWords ++ (superseded (passagesIn .markup ls)).flatMap words) ∧
      ((ls.flatMap fun l => words (withoutDirective l)).Perm comment.fieldWords ↔
        ∀ text ∈ superseded (passagesIn .markup ls), words text = []) := by
  obtain ⟨ls, hbody, hparsed⟩ := exists_of_reader_eq_ok h
  obtain ⟨hcomment, hwarnings⟩ := Parsed.mk.inj hparsed
  have hremarks : (passagesIn .markup ls).flatMap Passage.remarks = [] := by
    have hall := List.map_eq_nil_iff.1 hwarnings.symm
    exact (List.append_eq_nil_iff.1 hall).2
  have hperm := words_perm_of_remarks hremarks
  have hfields : comment.fieldWords = (commentOf (passagesIn .markup ls)).fieldWords := by
    rw [hcomment]
    rfl
  rw [← hfields] at hperm
  refine ⟨ls, hbody, hperm, ?_⟩
  rw [← List.flatMap_eq_nil_iff]
  constructor
  · intro hequal
    -- as many words on both sides leave none for what is superseded
    have hlength := (hequal.symm.trans hperm).length_eq
    rw [List.length_append] at hlength
    exact List.eq_nil_of_length_eq_zero (by omega)
  · intro hnone
    rwa [hnone, List.append_nil] at hperm

def returnsTwice : List Char := "/** @return a\n@return b */".toList

def deprecatedTwice : List Char := "/** @deprecated a\n@deprecated b */".toList

/-- Of two texts about the returned value the second one is lost without a warning, and of two about
deprecation the first one. -/
theorem word_superseded :
    (Reader.markup.read returnsTwice =
        .ok { comment := { raw := String.ofList returnsTwice, returns := some "a" } } ∧
      body returnsTwice = .ok ["@return a".toList, "@return b ".toList] ∧
      ¬(["@return a".toList, "@return b ".toList].flatMap fun l => words (withoutDirective l)).Perm
        (fieldWords { raw := String.ofList returnsTwice, returns := some "a" })) ∧
    Reader.markup.read deprecatedTwice =
        .ok { comment := { raw := String.ofList deprecatedTwice, deprecated := some "b" } } ∧
      body deprecatedTwice = .ok ["@deprecated a".toList, "@deprecated b ".toList] ∧
      ¬(["@deprecated a".toList, "@deprecated b ".toList].flatMap fun l =>
          words (withoutDirective l)).Perm
        (fieldWords { raw := String.ofList deprecatedTwice, deprecated := some "b" }) := by
  refine ⟨⟨?_, rfl, ?_⟩, ?_, rfl, ?_⟩ <;> decide

/-- A comment with text behind its directives and with a second text about the returned value. -/
def mixedComment : List Char :=
  "/** Runs\n * it.\n * @param x The x.\n * @return One.\n *\n * More.\n * @return Two. */".toList

theorem fieldWords_conserved_mixed :
    let comment : Comment :=
      { raw := String.ofList mixedComment
        shortDescription := some "Runs it."
        longDescription := some "More."
        parameters := [⟨"x", "The x."⟩]
        returns := some "One." }
    Reader.markup.read mixedComment = .ok { comment } ∧
      ∃ ls, body mixedComment = .ok ls ∧
        (ls.flatMap fun l => words (withoutDirective l)).Perm
          (comment.fieldWords ++ (superseded (passagesIn .markup ls)).flatMap words) ∧
        ((ls.flatMap fun l => words (withoutDirective l)).Perm comment.fieldWords ↔
          ∀ text ∈ superseded (passagesIn .markup ls), words text = []) := by
  intro comment
  have hread : Reader.markup.read mixedComment = .ok { comment } := by decide
  exact ⟨hread, fieldWords_conserved hread⟩

end DeclDoc.Comment
