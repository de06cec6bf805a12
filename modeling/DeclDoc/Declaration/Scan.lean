import DeclDoc.Declaration.Container
import DeclDoc.Token.Lexer

/-! # Scanning a whole source

Declarations are recognised from the code tokens alone, without preprocessing. What is not
understood is skipped, so a malformed source has fewer declarations and no error.
-/

set_option autoImplicit false

namespace DeclDoc.Declaration

/-- What an `@`-keyword outside of all containers begins. -/
def readAtKeyword (keyword : CodeToken) (code : Code) : Scanned :=
  match keyword.word with
  | "@interface" | "@implementation" => readContainer keyword code
  | "@protocol" => readProtocol keyword code
  | "@class" | "@import" | "@compatibility_alias" => ⟨[], [], afterStatement code⟩
  | "@end" => ⟨[], [⟨keyword.start, .strayEnd⟩], code⟩
  | _ => ⟨[], [], code⟩

theorem readAtKeyword_suffix (keyword : CodeToken) (code : Code) :
    (readAtKeyword keyword code).rest <:+ code := by
  unfold readAtKeyword
  split
  · exact readContainer_suffix keyword code
  · exact readContainer_suffix keyword code
  · exact readProtocol_suffix keyword code
  · exact afterStatement_suffix code
  · exact afterStatement_suffix code
  · exact afterStatement_suffix code
  · exact List.suffix_rfl
  · exact List.suffix_rfl

/-- What a source declares at its top level, and the faults in it. -/
structure Outcome where
  cursors : List Cursor := []
  remarks : List Remark := []

/-- The same after further declarations in front. -/
def Outcome.after (outcome : Outcome) (cursors : List Cursor) (remarks : List Remark) : Outcome :=
  ⟨cursors ++ outcome.cursors, remarks ++ outcome.remarks⟩

def scan (code : Code) : Outcome :=
  match code with
  | [] => {}
  | t :: rest =>
    match t.token with
    | .directive => (scan rest).after (macroDefinition? t).toList []
    | .atKeyword =>
      let read := readAtKeyword t rest
      (scan read.rest).after read.cursors read.remarks
    | .semicolon | .closeBrace => scan rest
    | _ =>
      let plain := readPlain (t :: rest)
      (scan plain.2).after plain.1 []
termination_by code.length
decreasing_by
  · simp
  · have := (readAtKeyword_suffix t rest).length_le
    simp only [List.length_cons]
    omega
  · simp
  · exact readPlain_length (List.cons_ne_nil t rest)

/-! ### One turn of `scan` -/

section Turns

variable {t : CodeToken}

theorem scan_nil : scan [] = {} := by
  rw [scan]

theorem scan_directive (h : t.token = .directive) (rest : Code) :
    scan (t :: rest) = (scan rest).after (macroDefinition? t).toList [] := by
  rw [scan, h]

theorem scan_atKeyword (h : t.token = .atKeyword) (rest : Code) :
    scan (t :: rest) = (scan (readAtKeyword t rest).rest).after (readAtKeyword t rest).cursors
      (readAtKeyword t rest).remarks := by
  rw [scan, h]

theorem scan_separator (h : t.token = .semicolon ∨ t.token = .closeBrace) (rest : Code) :
    scan (t :: rest) = scan rest := by
  rcases h with h | h <;> rw [scan, h]

/-- A plain declaration is read where no other begins. -/
theorem scan_readPlain (h : t.token ∉ [Token.directive, .atKeyword, .semicolon, .closeBrace])
    (rest : Code) :
    scan (t :: rest) = (scan (readPlain (t :: rest)).2).after (readPlain (t :: rest)).1 [] := by
  simp only [List.mem_cons, List.not_mem_nil, or_false, not_or] at h
  obtain ⟨hdirective, hkeyword, hsemicolon, hclose⟩ := h
  rw [scan]
  split <;> first | contradiction | rfl

theorem scan_plain (h : t.token = .ident) (rest : Code) :
    scan (t :: rest) = (scan (readPlain (t :: rest)).2).after (readPlain (t :: rest)).1 [] :=
  scan_readPlain (by simp [h]) rest

/-- Induction on how a source is scanned. -/
@[elab_as_elim]
theorem scan_induction {motive : Code → Prop} (nil : motive [])
    (directive : ∀ (t : CodeToken) (rest : Code), t.token = .directive → motive rest →
      motive (t :: rest))
    (atKeyword : ∀ (t : CodeToken) (rest : Code), t.token = .atKeyword →
      motive (readAtKeyword t rest).rest → motive (t :: rest))
    (separator : ∀ (t : CodeToken) (rest : Code), t.token = .semicolon ∨ t.token = .closeBrace →
      motive rest → motive (t :: rest))
    (plain : ∀ (t : CodeToken) (rest : Code),
      t.token ∉ [Token.directive, .atKeyword, .semicolon, .closeBrace] →
      motive (readPlain (t :: rest)).2 → motive (t :: rest))
    (code : Code) : motive code := by
  induction code using scan.induct with
  | case1 => exact nil
  | case2 t rest ht ih => exact directive t rest ht ih
  | case3 t rest ht _ ih => exact atKeyword t rest ht ih
  | case4 t rest ht ih => exact separator t rest (.inl ht) ih
  | case5 t rest ht ih => exact separator t rest (.inr ht) ih
  | case6 t rest _ hdirective hkeyword hsemicolon hclose ih =>
    exact plain t rest (by simpa using ⟨hdirective, hkeyword, hsemicolon, hclose⟩) ih

end Turns

/-- The declarations of a source text. -/
def scanText (source : List Char) : Outcome := scan (Code.ofLexemes (lex source).1)

end DeclDoc.Declaration
