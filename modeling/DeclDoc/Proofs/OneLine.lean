import DeclDoc.Declaration.Declarator
import DeclDoc.Proofs.EvenSpacing
import DeclDoc.Proofs.Paragraphs
import DeclDoc.Proofs.TokenExtent
import DeclDoc.SourceFile

/-!
# Texts of one line

A text is `OneLine` if it holds no line feed. So are all texts that are put into one line on the way
from a source to its outline: identifiers (`Lexeme.oneLine_of_ident`), types (`oneLine_line`), titles of
groups (`SourceFile.oneLine_groupBetween`) and short descriptions
(`Comment.oneLine_shortDescription`).
-/

set_option autoImplicit false

namespace DeclDoc

theorem forall_mem_none {α : Type} {P : α → Prop} : ∀ x ∈ (none : Option α), P x :=
  fun _ h => by cases h

/-- The text holds no line feed. -/
def OneLine (text : String) : Prop := '\n' ∉ text.toList

instance (text : String) : Decidable (OneLine text) :=
  inferInstanceAs (Decidable ('\n' ∉ text.toList))

namespace OneLine

variable {a b : String} {texts : List String}

@[simp] theorem ofList_iff {text : List Char} : OneLine (String.ofList text) ↔ '\n' ∉ text := by
  rw [OneLine, String.toList_ofList]

theorem append (ha : OneLine a) (hb : OneLine b) : OneLine (a ++ b) := by
  rw [OneLine, String.toList_append, List.mem_append, not_or]
  exact ⟨ha, hb⟩

theorem join (h : ∀ text ∈ texts, OneLine text) : OneLine (String.join texts) := by
  rw [OneLine, String.toList_join, List.mem_flatMap]
  rintro ⟨text, htext, hbreak⟩
  exact h text htext hbreak

theorem mem_of_mem_intersperse {α : Type} {separator x : α} {xs : List α}
    (h : x ∈ xs.intersperse separator) : x ∈ xs ∨ x = separator := by
  induction xs with
  | nil => cases h
  | cons y ys ih =>
    cases ys with
    | nil => exact .inl h
    | cons z zs =>
      rw [List.intersperse_cons_cons] at h
      rcases List.mem_cons.1 h with rfl | h
      · exact .inl List.mem_cons_self
      rcases List.mem_cons.1 h with rfl | h
      · exact .inr rfl
      · exact (ih h).imp_left (List.mem_cons_of_mem y)

theorem intercalate (ha : OneLine a) (h : ∀ text ∈ texts, OneLine text) :
    OneLine (a.intercalate texts) := by
  rw [OneLine, String.toList_intercalate, List.intercalate, List.mem_flatten]
  rintro ⟨part, hpart, hbreak⟩
  obtain hpart | rfl := mem_of_mem_intersperse hpart
  · obtain ⟨text, htext, rfl⟩ := List.mem_map.1 hpart
    exact h text htext hbreak
  · exact ha hbreak

end OneLine

/-! ## Types -/

namespace Text

/-- A text that was tidied stands on one line. -/
theorem notMem_tidy (s : List Char) : '\n' ∉ tidy s := fun hbreak =>
  absurd ((evenlySpaced_tidy s).space '\n' hbreak (by decide)) (by decide)

end Text

theorem oneLine_line (code : Code) : OneLine code.line := OneLine.ofList_iff.2 (Text.notMem_tidy _)

theorem Declaration.Declarator.oneLine_typeName (declarator : Declarator) :
    OneLine declarator.typeName := OneLine.ofList_iff.2 (Text.notMem_tidy _)

/-! ## Identifiers -/

namespace Lexer

/-- Only what may begin an identifier begins one. -/
theorem isIdentStart_of_read {c : Char} {rest : List Char}
    (h : (Extent.read c rest).token = some .ident) : isIdentStart c = true := by
  have hliteral : ∀ token ∈ [Token.stringLiteral, .charLiteral], ∀ quote opening,
      (Extent.literal token quote opening rest).token ≠ some .ident := by
    intro token htoken quote opening
    unfold Extent.literal
    dsimp only
    split
    · rintro ⟨⟩
      simp at htoken
    · exact nofun
  have hsingle : single? c ≠ some .ident := by
    unfold single?
    split <;> exact nofun
  unfold Extent.read at h
  split at h
  · assumption
  split at h
  · cases h
  split at h
  · cases h
  · cases h
  · cases h
  · exact absurd h (hliteral _ (by decide) _ _)
  · split at h <;> cases h
  · exact absurd h (hliteral _ (by decide) _ _)
  · exact absurd h (hliteral _ (by decide) _ _)
  · cases h
  · exact absurd h hsingle

theorem notMem_run {part : Char → Bool} (h : part '\n' = false) (s : List Char) :
    '\n' ∉ s.take (run part s) := by
  have htake : s.take (run part s) = s.takeWhile part :=
    (List.prefix_iff_eq_take.1 (List.takeWhile_prefix part)).symm
  rw [htake]
  intro hbreak
  rw [List.mem_takeWhile_imp hbreak] at h
  cases h

end Lexer

namespace Lexeme

theorem oneLine_of_lexFrom {offset : Nat} {s : List Char} {lexeme : Lexeme}
    (h : lexeme ∈ (lexFrom offset s).1) (htoken : lexeme.token = some .ident) :
    '\n' ∉ lexeme.text := by
  fun_induction lexFrom offset s with
  | case1 => cases h
  | case2 offset s gap c rest _ start extent text after ih =>
    rcases List.mem_cons.1 h with rfl | h
    · have hstart := Lexer.isIdentStart_of_read htoken
      have hc : '\n' ≠ c := by
        rintro rfl
        exact absurd hstart (by decide)
      have hextent : extent.more = Lexer.run Lexer.isIdentPart rest :=
        congrArg Lexer.Extent.more (Lexer.Extent.read_ident hstart)
      show '\n' ∉ c :: rest.take extent.more
      rw [hextent]
      exact List.not_mem_cons_of_ne_of_not_mem hc (Lexer.notMem_run (by decide) rest)
    · exact ih h

/-- An identifier stands on one line. -/
theorem oneLine_of_ident {source : List Char} {lexeme : Lexeme} (h : lexeme ∈ (lex source).1)
    (htoken : lexeme.token = some .ident) : '\n' ∉ lexeme.text :=
  oneLine_of_lexFrom h htoken

end Lexeme

/-! ## Groups and comments -/

/-- A title ends where its line does. -/
theorem notMem_of_groupTitle? {text title : List Char} (h : groupTitle? text = some title) :
    '\n' ∉ title := by
  unfold groupTitle? markerTitle? at h
  split at h
  · cases h
  split at h
  · split at h
    · dsimp only at h
      split at h
      · cases h
      · cases h
        intro hbreak
        have := List.mem_takeWhile_imp (Text.mem_of_mem_trim hbreak)
        exact absurd this (by decide)
    · cases h
  · cases h

theorem SourceFile.oneLine_groupBetween (file : SourceFile) (start stop : Nat) :
    ∀ title ∈ file.groupBetween start stop, OneLine title := by
  intro title htitle
  obtain ⟨text, htext, rfl⟩ := Option.map_eq_some_iff.1 htitle
  obtain ⟨lexeme, -, htext⟩ := List.mem_filterMap.1 (List.mem_of_getLast? htext)
  exact OneLine.ofList_iff.2 (notMem_of_groupTitle? htext)

theorem Comment.oneLine_shortDescription {dialect : Dialect} {raw : List Char} {parsed : Parsed}
    (h : dialect.reader.read raw = .ok parsed) :
    ∀ text ∈ parsed.comment.shortDescription, OneLine text := by
  obtain ⟨ls, hbody, rfl⟩ := exists_of_reader_eq_ok h
  intro text htext
  obtain ⟨first, hfirst, rfl⟩ := Option.map_eq_some_iff.1 htext
  exact OneLine.ofList_iff.2
    (not_mem_of_mem_saidUnder (not_mem_of_body hbody) (List.mem_of_head? hfirst))

end DeclDoc
