import DeclDoc.Declaration.Member
import DeclDoc.Declaration.Plain

/-! # Objective-C containers

A class, category or protocol is a head and the members up to `@end`. Plain declarations and macros
stand among the members. What one turn of `readMembers` does has an equation for each kind of member,
and `readMembers_induction` has a case for each. `readMembers_suffix`, `readContainer_suffix`,
`readProtocol_suffix`: reading leaves an end of the code.
-/

set_option autoImplicit false

namespace DeclDoc.Declaration

/-- A fault, and where the declaration begins that has it. -/
structure Remark where
  offset : Nat
  fault : Fault
deriving DecidableEq, Repr

/-- Declarations read from the start of some code, the faults found, and the code left. -/
structure Scanned where
  cursors : List Cursor
  remarks : List Remark
  rest : Code

namespace Scanned

/-- The same with further declarations in front. -/
def prepend (cursors : List Cursor) (scanned : Scanned) : Scanned :=
  { scanned with cursors := cursors ++ scanned.cursors }

def prependRemark (remark : Remark) (scanned : Scanned) : Scanned :=
  { scanned with remarks := remark :: scanned.remarks }

/-- The same after a member that begins at `start`, which may be faulty. -/
def prependMember (start : Nat) (member : Except Fault Cursor) (scanned : Scanned) : Scanned :=
  match member with
  | .ok cursor => scanned.prepend [cursor]
  | .error fault => scanned.prependRemark ⟨start, fault⟩

@[simp] theorem rest_prepend (cursors : List Cursor) (scanned : Scanned) :
    (scanned.prepend cursors).rest = scanned.rest := rfl

@[simp] theorem rest_prependMember (start : Nat) (member : Except Fault Cursor)
    (scanned : Scanned) : (scanned.prependMember start member).rest = scanned.rest := by
  cases member <;> rfl

end Scanned

/-! ## Macros -/

/-- The macro that a directive defines: `#`, `define` and a name, with blanks between. -/
def macroDefinition? (directive : CodeToken) : Option Cursor :=
  let isGap (c : Char) : Bool := c == ' ' || c == '\t'
  let isPart (c : Char) : Bool := c.isAlphanum || c == '_'
  match Text.afterPrefix? "define".toList ((directive.text.drop 1).dropWhile isGap) with
  | none => none
  | some rest =>
    let named := rest.dropWhile isGap
    let name := named.takeWhile isPart
    if rest.head?.any isGap && name.head?.any fun c => !c.isDigit then
      some
        { kind := .macroDefinition
          spelling := String.ofList name
          offset := directive.start + (directive.text.length - named.length)
          extent := directive.start }
    else none

/-! ## Heads -/

/-- The names one level deep in the angle brackets that `depth` of are open, and the code after
them. -/
def nameList (depth : Nat) : Code → List String × Code
  | [] => ([], [])
  | t :: rest =>
    match t.token with
    | .less => nameList (depth + 1) rest
    | .greater => if depth ≤ 1 then ([], rest) else nameList (depth - 1) rest
    | .semicolon | .openBrace | .atKeyword => ([], t :: rest)
    | .ident =>
      let more := nameList depth rest
      (if depth = 1 then t.word :: more.1 else more.1, more.2)
    | _ => nameList depth rest

/-- The names in angle brackets at the start of the code, if there are any. -/
def readNames (code : Code) : List String × Code :=
  if code.nextIs .less then nameList 0 code else ([], code)

/-- The superclass after a colon at the start of the code. -/
def readSuperclass (code : Code) : Option String × Code :=
  match code with
  | colon :: rest =>
    if colon.token = .colon then
      match rest with
      | t :: more => if t.token = .ident then (some t.word, more) else (none, t :: more)
      | [] => (none, [])
    else (none, colon :: rest)
  | [] => (none, [])

/-- What a category is called, and where; a class extension has no name and stands at its class. -/
structure CategoryName where
  spelling : String
  offset : Nat

/-- The category name in parentheses at the start of the code after the class name `owner`. -/
def readCategory (owner : CodeToken) (code : Code) : Option CategoryName × Code :=
  if code.nextIs .openParen then
    let name :=
      match code.tail.head?.filter (·.token == .ident) with
      | some t => ⟨t.word, t.start⟩
      | none => ⟨"", owner.start⟩
    (some name, (code.tail.dropWhile (·.token != .closeParen)).tail)
  else (none, code)

theorem nameList_suffix (depth : Nat) (code : Code) : (nameList depth code).2 <:+ code := by
  fun_induction nameList depth code with
  | case1 => simp
  | case2 depth t rest _ ih => exact ih.trans (List.suffix_cons t rest)
  | case3 => exact List.suffix_cons ..
  | case4 depth t rest _ _ ih => exact ih.trans (List.suffix_cons t rest)
  | case5 => exact List.suffix_rfl
  | case6 => exact List.suffix_rfl
  | case7 => exact List.suffix_rfl
  | case8 depth t rest _ more ih => exact ih.trans (List.suffix_cons t rest)
  | case9 depth t rest _ _ _ _ _ _ ih => exact ih.trans (List.suffix_cons t rest)

theorem readNames_suffix (code : Code) : (readNames code).2 <:+ code := by
  unfold readNames
  split
  · exact nameList_suffix 0 code
  · exact List.suffix_rfl

theorem readSuperclass_suffix (code : Code) : (readSuperclass code).2 <:+ code := by
  unfold readSuperclass
  split
  · next colon rest =>
    split
    · split
      · next t more =>
        split
        · exact (List.suffix_cons t more).trans (List.suffix_cons colon _)
        · exact List.suffix_cons colon _
      · exact List.nil_suffix
    · exact List.suffix_rfl
  · exact List.suffix_rfl

theorem readCategory_suffix (owner : CodeToken) (code : Code) :
    (readCategory owner code).2 <:+ code := by
  unfold readCategory
  split
  · exact (List.tail_suffix _).trans ((List.dropWhile_suffix _).trans (List.tail_suffix code))
  · exact List.suffix_rfl

/-- The code after an instance variable block at its start. -/
def afterVariables (code : Code) : Code :=
  if code.nextIs .openBrace then afterBraces code.tail else code

theorem afterVariables_suffix (code : Code) : afterVariables code <:+ code := by
  unfold afterVariables
  split
  · exact (Bracket.skip_suffix ..).trans (List.tail_suffix code)
  · exact List.suffix_rfl

/-- A container without its members, and the code after its head. -/
def readHead (isImplementation : Bool) (extent : Nat) (name : CodeToken) (code : Code) :
    Cursor × Code :=
  let generic := readNames code
  let category := readCategory name generic.2
  let superclass := readSuperclass category.2
  let protocols := readNames superclass.2
  let detail : CursorDetail :=
    { superclass := superclass.1
      protocols :=
        (if generic.2.nextIs .colon || generic.2.nextIs .openParen then [] else generic.1) ++
          protocols.1 }
  let cursor : Cursor :=
    match category.1 with
    | some category =>
      { kind := if isImplementation then .categoryImplementation else .category
        spelling := category.spelling
        offset := category.offset
        extent
        detail := { detail with baseClass := some name.word } }
    | none =>
      { kind := if isImplementation then .implementation else .interface
        spelling := name.word
        offset := name.start
        extent
        detail }
  (cursor, afterVariables protocols.2)

theorem readHead_suffix (isImplementation : Bool) (extent : Nat) (name : CodeToken) (code : Code) :
    (readHead isImplementation extent name code).2 <:+ code :=
  (afterVariables_suffix _).trans <| (readNames_suffix _).trans <|
    (readSuperclass_suffix _).trans <| (readCategory_suffix name _).trans <| readNames_suffix code

/-! ## Members -/

/-- The members of the container that begins at `opener`, up to its `@end`. -/
def readMembers (opener : Nat) (code : Code) : Scanned :=
  match code with
  | [] => ⟨[], [⟨opener, .endMissing⟩], []⟩
  | t :: rest =>
    match t.token with
    | .atKeyword =>
      if t.word = "@end" then ⟨[], [], rest⟩
      else if t.word = "@property" then
        let property := readProperty t rest
        (readMembers opener property.2).prependMember t.start property.1
      else if t.word ∈ ["@interface", "@implementation", "@protocol"] then
        ⟨[], [⟨opener, .endMissing⟩], t :: rest⟩
      else if t.word ∈ ["@synthesize", "@dynamic", "@class", "@import"] then
        readMembers opener (afterStatement rest)
      else readMembers opener rest
    | .minus | .plus =>
      let method := readMethod t rest
      (readMembers opener method.2).prependMember t.start method.1
    | .openBrace => readMembers opener (afterBraces rest)
    | .directive => (readMembers opener rest).prepend (macroDefinition? t).toList
    | .semicolon | .closeBrace => readMembers opener rest
    | _ =>
      let plain := readPlain (t :: rest)
      (readMembers opener plain.2).prepend plain.1
termination_by code.length
decreasing_by
  · have := (readProperty_suffix t rest).length_le
    simp only [List.length_cons]
    omega
  · have := (afterStatement_suffix rest).length_le
    simp only [List.length_cons]
    omega
  · simp
  · have := (readMethod_suffix t rest).length_le
    simp only [List.length_cons]
    omega
  · have := Bracket.length_skip_le .brace 1 rest
    simp only [List.length_cons, afterBraces]
    omega
  · simp
  · simp
  · exact readPlain_length (List.cons_ne_nil t rest)

/-! ### One turn of `readMembers` -/

section Turns

variable {t : CodeToken}

theorem readMembers_nil (opener : Nat) :
    readMembers opener [] = ⟨[], [⟨opener, .endMissing⟩], []⟩ := by
  rw [readMembers]

theorem readMembers_end (ht : t.token = .atKeyword) (hword : t.word = "@end") (opener : Nat)
    (rest : Code) : readMembers opener (t :: rest) = ⟨[], [], rest⟩ := by
  rw [readMembers, ht]
  dsimp only
  rw [if_pos hword]

theorem readMembers_property (ht : t.token = .atKeyword) (hword : t.word = "@property")
    (opener : Nat) (rest : Code) :
    readMembers opener (t :: rest) =
      (readMembers opener (readProperty t rest).2).prependMember t.start (readProperty t rest).1 := by
  rw [readMembers, ht]
  dsimp only
  rw [hword, if_neg (by decide), if_pos rfl]

/-- Another container breaks the members off. -/
theorem readMembers_opens (ht : t.token = .atKeyword)
    (hword : t.word ∈ ["@interface", "@implementation", "@protocol"]) (opener : Nat)
    (rest : Code) :
    readMembers opener (t :: rest) = ⟨[], [⟨opener, .endMissing⟩], t :: rest⟩ := by
  have hapart : ∀ word ∈ ["@interface", "@implementation", "@protocol"],
      word ≠ "@end" ∧ word ≠ "@property" := by decide
  obtain ⟨hend, hproperty⟩ := hapart t.word hword
  rw [readMembers, ht]
  dsimp only
  rw [if_neg hend, if_neg hproperty, if_pos hword]

theorem statement_apart {word : String}
    (h : word ∈ ["@synthesize", "@dynamic", "@class", "@import"]) :
    word ≠ "@end" ∧ word ≠ "@property" ∧
      word ∉ ["@interface", "@implementation", "@protocol"] := by
  revert word
  decide

theorem readMembers_statement (ht : t.token = .atKeyword)
    (hword : t.word ∈ ["@synthesize", "@dynamic", "@class", "@import"]) (opener : Nat)
    (rest : Code) :
    readMembers opener (t :: rest) = readMembers opener (afterStatement rest) := by
  obtain ⟨hend, hproperty, hopens⟩ := statement_apart hword
  rw [readMembers, ht]
  dsimp only
  rw [if_neg hend, if_neg hproperty, if_neg hopens, if_pos hword]

/-- The words after `@` that mean something among the members. -/
def memberWords : List String :=
  ["@end", "@property"] ++ ["@interface", "@implementation", "@protocol"] ++
    ["@synthesize", "@dynamic", "@class", "@import"]

theorem notMem_memberWords {word : String} (h : word ∉ memberWords) :
    word ≠ "@end" ∧ word ≠ "@property" ∧ word ∉ ["@interface", "@implementation", "@protocol"] ∧
      word ∉ ["@synthesize", "@dynamic", "@class", "@import"] := by
  simpa [memberWords, and_assoc] using h

theorem readMembers_keyword (ht : t.token = .atKeyword) (hword : t.word ∉ memberWords)
    (opener : Nat) (rest : Code) : readMembers opener (t :: rest) = readMembers opener rest := by
  obtain ⟨hend, hproperty, hopens, hstatement⟩ := notMem_memberWords hword
  rw [readMembers, ht]
  dsimp only
  rw [if_neg hend, if_neg hproperty, if_neg hopens, if_neg hstatement]

theorem readMembers_method (ht : t.token = .minus ∨ t.token = .plus) (opener : Nat)
    (rest : Code) :
    readMembers opener (t :: rest) =
      (readMembers opener (readMethod t rest).2).prependMember t.start (readMethod t rest).1 := by
  rcases ht with ht | ht <;> rw [readMembers, ht]

theorem readMembers_braces (ht : t.token = .openBrace) (opener : Nat) (rest : Code) :
    readMembers opener (t :: rest) = readMembers opener (afterBraces rest) := by
  rw [readMembers, ht]

theorem readMembers_directive (ht : t.token = .directive) (opener : Nat) (rest : Code) :
    readMembers opener (t :: rest) =
      (readMembers opener rest).prepend (macroDefinition? t).toList := by
  rw [readMembers, ht]

theorem readMembers_separator (ht : t.token = .semicolon ∨ t.token = .closeBrace) (opener : Nat)
    (rest : Code) : readMembers opener (t :: rest) = readMembers opener rest := by
  rcases ht with ht | ht <;> rw [readMembers, ht]

/-- The tokens that do not begin a plain declaration among the members. -/
def memberTokens : List Token :=
  [.atKeyword, .minus, .plus, .openBrace, .directive, .semicolon, .closeBrace]

/-- A plain declaration is read where no other member begins. -/
theorem readMembers_readPlain (ht : t.token ∉ memberTokens) (opener : Nat) (rest : Code) :
    readMembers opener (t :: rest) =
      (readMembers opener (readPlain (t :: rest)).2).prepend (readPlain (t :: rest)).1 := by
  simp only [memberTokens, List.mem_cons, List.not_mem_nil, or_false, not_or] at ht
  obtain ⟨hkeyword, hminus, hplus, hbrace, hdirective, hsemicolon, hclose⟩ := ht
  rw [readMembers]
  split <;> first | contradiction | rfl

/-- Induction on how the members of a container are read. -/
@[elab_as_elim]
theorem readMembers_induction {motive : Code → Prop} (nil : motive [])
    (close : ∀ (t : CodeToken) (rest : Code), t.token = .atKeyword → t.word = "@end" →
      motive (t :: rest))
    (property : ∀ (t : CodeToken) (rest : Code), t.token = .atKeyword → t.word = "@property" →
      motive (readProperty t rest).2 → motive (t :: rest))
    (opens : ∀ (t : CodeToken) (rest : Code), t.token = .atKeyword →
      t.word ∈ ["@interface", "@implementation", "@protocol"] → motive (t :: rest))
    (statement : ∀ (t : CodeToken) (rest : Code), t.token = .atKeyword →
      t.word ∈ ["@synthesize", "@dynamic", "@class", "@import"] → motive (afterStatement rest) →
      motive (t :: rest))
    (keyword : ∀ (t : CodeToken) (rest : Code), t.token = .atKeyword → t.word ∉ memberWords →
      motive rest → motive (t :: rest))
    (method : ∀ (t : CodeToken) (rest : Code), t.token = .minus ∨ t.token = .plus →
      motive (readMethod t rest).2 → motive (t :: rest))
    (braces : ∀ (t : CodeToken) (rest : Code), t.token = .openBrace → motive (afterBraces rest) →
      motive (t :: rest))
    (directive : ∀ (t : CodeToken) (rest : Code), t.token = .directive → motive rest →
      motive (t :: rest))
    (separator : ∀ (t : CodeToken) (rest : Code), t.token = .semicolon ∨ t.token = .closeBrace →
      motive rest → motive (t :: rest))
    (plain : ∀ (t : CodeToken) (rest : Code), t.token ∉ memberTokens →
      motive (readPlain (t :: rest)).2 → motive (t :: rest))
    (code : Code) : motive code := by
  induction code using readMembers.induct with
  | case1 => exact nil
  | case2 t rest ht hend => exact close t rest ht hend
  | case3 t rest ht _ hproperty _ ih => exact property t rest ht hproperty ih
  | case4 t rest ht _ _ hopens => exact opens t rest ht hopens
  | case5 t rest ht _ _ _ hstatement ih => exact statement t rest ht hstatement ih
  | case6 t rest ht hend hproperty hopens hstatement ih =>
    exact keyword t rest ht (by simp_all [memberWords]) ih
  | case7 t rest ht _ ih => exact method t rest (.inl ht) ih
  | case8 t rest ht _ ih => exact method t rest (.inr ht) ih
  | case9 t rest ht ih => exact braces t rest ht ih
  | case10 t rest ht ih => exact directive t rest ht ih
  | case11 t rest ht ih => exact separator t rest (.inl ht) ih
  | case12 t rest ht ih => exact separator t rest (.inr ht) ih
  | case13 t rest _ hkeyword hminus hplus hbrace hdirective hsemicolon hclose ih =>
    refine plain t rest ?_ ih
    simpa [memberTokens] using ⟨hkeyword, hminus, hplus, hbrace, hdirective, hsemicolon, hclose⟩

end Turns

theorem readMembers_suffix (opener : Nat) (code : Code) : (readMembers opener code).rest <:+ code := by
  fun_induction readMembers opener code with
  | case1 => simp
  | case2 => exact List.suffix_cons ..
  | case3 t rest _ _ _ property ih =>
    rw [Scanned.rest_prependMember]
    exact (ih.trans (readProperty_suffix t rest)).trans (List.suffix_cons t rest)
  | case4 => exact List.suffix_rfl
  | case5 t rest _ _ _ _ _ ih =>
    exact (ih.trans (afterStatement_suffix rest)).trans (List.suffix_cons t rest)
  | case6 t rest _ _ _ _ _ ih => exact ih.trans (List.suffix_cons t rest)
  | case7 t rest _ method ih | case8 t rest _ method ih =>
    rw [Scanned.rest_prependMember]
    exact (ih.trans (readMethod_suffix t rest)).trans (List.suffix_cons t rest)
  | case9 t rest _ ih =>
    exact (ih.trans (Bracket.skip_suffix .brace 1 rest)).trans (List.suffix_cons t rest)
  | case10 t rest _ ih | case11 t rest _ ih | case12 t rest _ ih =>
    exact ih.trans (List.suffix_cons t rest)
  | case13 t rest _ _ _ _ _ _ _ plain ih => exact ih.trans (readPlain_suffix (t :: rest))

/-! ## Containers -/

/-- A container of the members read after its head. -/
def withMembers (cursor : Cursor) (members : Scanned) : Scanned :=
  { members with cursors := [{ cursor with children := members.cursors }] }

/-- The class or category that `keyword` begins and the code continues. -/
def readContainer (keyword : CodeToken) (code : Code) : Scanned :=
  let missing : Scanned := ⟨[], [⟨keyword.start, .classNameMissing keyword.word⟩], code⟩
  match code with
  | name :: rest =>
    if name.token = .ident then
      let head := readHead (keyword.word == "@implementation") keyword.start name rest
      withMembers head.1 (readMembers keyword.start head.2)
    else missing
  | [] => missing

/-- The protocol that `keyword` begins and the code continues; a forward declaration declares
nothing. -/
def readProtocol (keyword : CodeToken) (code : Code) : Scanned :=
  let missing : Scanned := ⟨[], [⟨keyword.start, .protocolNameMissing⟩], code⟩
  match code with
  | name :: rest =>
    if name.token = .ident then
      if Code.nextIs rest .semicolon || Code.nextIs rest .comma then ⟨[], [], afterStatement rest⟩
      else
        let protocols := readNames rest
        withMembers
          { kind := .protocol
            spelling := name.word
            offset := name.start
            extent := keyword.start
            detail := { protocols := protocols.1 } }
          (readMembers keyword.start protocols.2)
    else missing
  | [] => missing

theorem readContainer_suffix (keyword : CodeToken) (code : Code) :
    (readContainer keyword code).rest <:+ code := by
  unfold readContainer
  dsimp only
  split
  · next name rest =>
    split
    · exact ((readMembers_suffix ..).trans (readHead_suffix ..)).trans (List.suffix_cons name rest)
    · exact List.suffix_rfl
  · exact List.suffix_rfl

theorem readProtocol_suffix (keyword : CodeToken) (code : Code) :
    (readProtocol keyword code).rest <:+ code := by
  unfold readProtocol
  dsimp only
  split
  · next name rest =>
    split
    · split
      · exact (afterStatement_suffix rest).trans (List.suffix_cons name rest)
      · exact ((readMembers_suffix ..).trans (readNames_suffix rest)).trans
          (List.suffix_cons name rest)
    · exact List.suffix_rfl
  · exact List.suffix_rfl

end DeclDoc.Declaration
