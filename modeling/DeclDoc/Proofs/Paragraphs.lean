import DeclDoc.Proofs.Passages

/-!
# Paragraphs, and comments one behind the other

The short description and the parts of the long one are the paragraphs of a comment: no line holds a line
feed, so the blank lines between the parts are the ones that were put there (`paragraphs_commentOf`).
Lines that are read apart from the lines before them add what they say by themselves
(`readLines_append`): lists grow at their end, the first text about the returned value stays, and the
last one about deprecation comes to count.
-/

set_option autoImplicit false

namespace DeclDoc

namespace Text

/-- The parts of a text between blank lines. -/
def cutAtBlankLines : List Char → List (List Char)
  | [] => [[]]
  | '\n' :: '\n' :: rest => [] :: cutAtBlankLines rest
  | c :: rest =>
    match cutAtBlankLines rest with
    | [] => [[c]]
    | part :: more => (c :: part) :: more

theorem cutAtBlankLines_cons {c : Char} (h : c ≠ '\n') (rest : List Char) :
    cutAtBlankLines (c :: rest) =
      match cutAtBlankLines rest with
      | [] => [[c]]
      | part :: more => (c :: part) :: more := by
  rw [cutAtBlankLines]
  simpa using fun _ hc => absurd hc h

theorem cutAtBlankLines_of_not_mem {part : List Char} (h : '\n' ∉ part) :
    cutAtBlankLines part = [part] := by
  induction part with
  | nil => rfl
  | cons c part ih =>
    obtain ⟨hc, hpart⟩ := not_or.1 (List.mem_cons.not.1 h)
    rw [cutAtBlankLines_cons (Ne.symm hc), ih hpart]

theorem cutAtBlankLines_append {part : List Char} (h : '\n' ∉ part) (rest : List Char) :
    cutAtBlankLines (part ++ '\n' :: '\n' :: rest) = part :: cutAtBlankLines rest := by
  induction part with
  | nil => rw [List.nil_append, cutAtBlankLines]
  | cons c part ih =>
    obtain ⟨hc, hpart⟩ := not_or.1 (List.mem_cons.not.1 h)
    rw [List.cons_append, cutAtBlankLines_cons (Ne.symm hc), ih hpart]

/-- Parts without line feeds are found again between the blank lines. -/
theorem cutAtBlankLines_intercalate {parts : List (List Char)} (hne : parts ≠ [])
    (h : ∀ part ∈ parts, '\n' ∉ part) :
    cutAtBlankLines (List.intercalate ['\n', '\n'] parts) = parts := by
  induction parts with
  | nil => exact absurd rfl hne
  | cons part parts ih =>
    obtain ⟨hpart, hparts⟩ := List.forall_mem_cons.1 h
    cases parts with
    | nil => rw [List.intercalate_singleton, cutAtBlankLines_of_not_mem hpart]
    | cons next parts =>
      rw [List.intercalate_cons_cons, List.append_assoc, List.cons_append, List.singleton_append,
        cutAtBlankLines_append hpart, ih (List.cons_ne_nil _ _) hparts]

end Text

namespace Comment

open Text

/-! ## Paragraphs of a comment -/

/-- The short description and the parts of the long one. -/
def paragraphs (comment : Comment) : List (List Char) :=
  comment.shortDescription.toList.map String.toList ++
    comment.longDescription.toList.flatMap fun text => cutAtBlankLines text.toList

theorem paragraphs_of_texts {comment : Comment} {texts : List (List Char)}
    (hshort : comment.shortDescription = texts.head?.map String.ofList)
    (hlong : comment.longDescription = furtherText texts) (h : ∀ text ∈ texts, '\n' ∉ text) :
    comment.paragraphs = texts := by
  cases texts with
  | nil => simp [paragraphs, hshort, hlong, furtherText]
  | cons text more =>
    obtain ⟨-, hmore⟩ := List.forall_mem_cons.1 h
    cases more with
    | nil => simp [paragraphs, hshort, hlong, furtherText]
    | cons next more =>
      have hcut := cutAtBlankLines_intercalate (List.cons_ne_nil next more) hmore
      simp [paragraphs, hshort, hlong, furtherText, hcut]

/-! ## Texts without line feeds -/

theorem mem_extend {text more : List Char} {c : Char} (h : c ∈ extend text more) :
    c = ' ' ∨ c ∈ text ∨ c ∈ more := by
  unfold extend at h
  split at h
  · exact .inr (.inr h)
  · rcases List.mem_append.1 h with h | h
    · exact .inr (.inl h)
    · exact (List.mem_cons.1 h).imp_right .inr

theorem mem_foldl_extend {texts : List (List Char)} {text : List Char} {c : Char}
    (h : c ∈ texts.foldl extend text) : c = ' ' ∨ c ∈ text ∨ ∃ more ∈ texts, c ∈ more := by
  induction texts generalizing text with
  | nil => exact .inr (.inl h)
  | cons first texts ih =>
    obtain hc | hc | ⟨more, hmore, hc⟩ := ih h
    · exact .inl hc
    · obtain hc | hc | hc := mem_extend hc
      · exact .inl hc
      · exact .inr (.inl hc)
      · exact .inr (.inr ⟨first, List.mem_cons_self, hc⟩)
    · exact .inr (.inr ⟨more, List.mem_cons_of_mem _ hmore, hc⟩)

/-- A passage says nothing that does not stand in the lines, but for spaces between them. -/
theorem exists_of_mem_text {dialect : Dialect} {ls : List (List Char)} {passage : Passage} {c : Char}
    (hpassage : passage ∈ passagesIn dialect ls) (h : c ∈ passage.text) :
    c = ' ' ∨ ∃ l ∈ ls, c ∈ l := by
  have hfrom := isFrom_of_mem_passages hpassage
  have hline {line : Line} (hmem : line ∈ ls.map (Line.read dialect)) (hc : c ∈ line.content) :
      ∃ l ∈ ls, c ∈ l := by
    obtain ⟨l, hl, rfl⟩ := List.mem_map.1 hmem
    exact ⟨l, hl, Line.mem_of_mem_content hc⟩
  obtain hc | hc | ⟨text, htext, hc⟩ := mem_foldl_extend h
  · exact .inl hc
  · replace hc := mem_of_mem_trim hc
    obtain hheading | ⟨name, rest, hmem, hheading⟩ := hfrom.heading
    · rw [hheading] at hc
      cases hc
    · rw [hheading] at hc
      exact .inr (hline hmem (Heading.mem_of_mem_text hc))
  · exact .inr (hline (hfrom.texts text htext) hc)

theorem not_mem_of_mem_saidUnder {dialect : Dialect} {ls : List (List Char)}
    (h : ∀ l ∈ ls, '\n' ∉ l) {sort : Section} {text : List Char}
    (htext : text ∈ saidUnder sort (passagesIn dialect ls)) : '\n' ∉ text := by
  obtain ⟨passage, hpassage, rfl⟩ := List.mem_map.1 (List.mem_filter.1 htext).1
  intro hmem
  obtain hspace | ⟨l, hl, hc⟩ := exists_of_mem_text (List.mem_filter.1 hpassage).1 hmem
  · cases hspace
  · exact h l hl hc

/-- The paragraphs of a comment are the passages of its description. -/
theorem paragraphs_commentOf {dialect : Dialect} {ls : List (List Char)} (h : ∀ l ∈ ls, '\n' ∉ l) :
    (commentOf (passagesIn dialect ls)).paragraphs =
      saidUnder .description (passagesIn dialect ls) :=
  paragraphs_of_texts rfl rfl fun _ htext => not_mem_of_mem_saidUnder h htext

/-! ## Comments one behind the other -/

/-- What two comments say together, one behind the other. -/
def followedBy (first second : Comment) : Comment where
  raw := first.raw ++ second.raw
  shortDescription := (first.paragraphs ++ second.paragraphs).head?.map String.ofList
  longDescription := furtherText (first.paragraphs ++ second.paragraphs)
  parameters := first.parameters ++ second.parameters
  returns := first.returns.or second.returns
  exceptions := first.exceptions ++ second.exceptions
  seeAlso := first.seeAlso ++ second.seeAlso
  warnings := first.warnings ++ second.warnings
  bugs := first.bugs ++ second.bugs
  deprecated := second.deprecated.or first.deprecated

def Reading.followedBy (first second : Reading) : Reading where
  comment := first.comment.followedBy second.comment
  remarks := first.remarks ++ second.remarks

theorem passagesIn_append {dialect : Dialect} {a b : List (List Char)}
    (h : Apart (a.map (Line.read dialect)) (b.map (Line.read dialect))) :
    passagesIn dialect (a ++ b) = passagesIn dialect a ++ passagesIn dialect b := by
  rw [passagesIn, List.map_append, passages_append h]
  rfl

theorem commentOf_append {dialect : Dialect} {a b : List (List Char)} (ha : ∀ l ∈ a, '\n' ∉ l)
    (hb : ∀ l ∈ b, '\n' ∉ l) :
    commentOf (passagesIn dialect a ++ passagesIn dialect b) =
      (commentOf (passagesIn dialect a)).followedBy (commentOf (passagesIn dialect b)) := by
  rw [followedBy, paragraphs_commentOf ha, paragraphs_commentOf hb]
  simp [commentOf, saidUnder_append, textsUnder_append, List.head?_append, List.getLast?_append,
    Option.map_or]

/-- Lines that stand apart are read as by themselves, one behind the other. So is every comment whose
body they are; what is odd about its raw text is said first. -/
theorem readLines_append (dialect : Dialect) {a b : List (List Char)}
    (hlines : ∀ l ∈ a ++ b, '\n' ∉ l)
    (hapart : Apart (a.map (Line.read dialect)) (b.map (Line.read dialect))) :
    let both := (readLines dialect a).followedBy (readLines dialect b)
    readLines dialect (a ++ b) = both ∧
      ∀ raw, body raw = .ok (a ++ b) →
        dialect.reader.read raw = .ok
          { comment := { both.comment with raw := String.ofList raw }
            warnings := ((Draft.start raw).remarks ++ both.remarks).map Remark.message } := by
  intro both
  obtain ⟨ha, hb⟩ := List.forall_mem_append.1 hlines
  have hboth : readLines dialect (a ++ b) = both := by
    simp only [both, readLines_eq, passagesIn_append hapart, commentOf_append ha hb,
      List.flatMap_append, Reading.followedBy]
  refine ⟨hboth, fun raw hraw => ?_⟩
  rw [reader_of_body dialect hraw, ← hboth, readLines_eq]
  rfl

/-- A second text about the returned value, apart from the first one. -/
theorem readLines_append_returnsTwice :
    let a := ["Runs it.", "@return One.", ""].map String.toList
    let b := ["@return Two.", "@bug None."].map String.toList
    let raw := "Runs it.\n@return One.\n\n@return Two.\n@bug None.".toList
    let both := (readLines .markup a).followedBy (readLines .markup b)
    (∀ l ∈ a ++ b, '\n' ∉ l) ∧ Apart (a.map (Line.read .markup)) (b.map (Line.read .markup)) ∧
      body raw = .ok (a ++ b) ∧
      readLines .markup (a ++ b) = both ∧
      Reader.markup.read raw = .ok
        { comment := { both.comment with raw := String.ofList raw }
          warnings := ((Draft.start raw).remarks ++ both.remarks).map Remark.message } ∧
      (readLines .markup a).comment.returns = some "One." ∧
      (readLines .markup b).comment.returns = some "Two." ∧ both.comment.returns = some "One." := by
  intro a b raw both
  have hlines : ∀ l ∈ a ++ b, '\n' ∉ l := by decide
  have hapart : Apart (a.map (Line.read .markup)) (b.map (Line.read .markup)) := .inl (by decide)
  have hbody : body raw = .ok (a ++ b) := rfl
  obtain ⟨hboth, hread⟩ := readLines_append .markup hlines hapart
  exact ⟨hlines, hapart, hbody, hboth, hread raw hbody, by decide, by decide, by decide⟩

end Comment

end DeclDoc
