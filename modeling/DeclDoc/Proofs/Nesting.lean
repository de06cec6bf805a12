import DeclDoc.Declaration.Scan
import DeclDoc.Proofs.Located

/-!
# What a source nests

Containers stand at the top of a source and hold members and plain declarations; of those only
enumerations hold anything, their values. The readers of members, containers and whole sources read
cursors of these shapes (`reads_readMembers`, `reads_readContainer`, `reads_scan`), so the cursors
of a source are tidy and begin at its lexemes (`tidy_scanText`, `exists_lexeme_of_scanText`).
-/

set_option autoImplicit false

namespace DeclDoc

namespace Cursor

/-- A member of a class, category or protocol. -/
def isMember (cursor : Cursor) : Bool :=
  match cursor.kind with
  | .instanceMethod | .classMethod | .property => true
  | _ => false

def isCategoryKind : CursorKind → Bool
  | .category | .categoryImplementation => true
  | _ => false

def isContainerKind : CursorKind → Bool
  | .interface | .implementation | .category | .categoryImplementation | .protocol => true
  | _ => false

/-- What a container holds: a member or a plain declaration. -/
def IsHeld (cursor : Cursor) : Prop :=
  (cursor.isMember = true ∧ cursor.children = []) ∨ cursor.IsPlain

structure IsContainer (cursor : Cursor) : Prop where
  kind : isContainerKind cursor.kind = true
  baseClass : isCategoryKind cursor.kind = true → ∃ base, cursor.detail.baseClass = some base
  held : ∀ child ∈ cursor.children, child.IsHeld

/-- What stands at the top of a source. -/
def IsTop (cursor : Cursor) : Prop := cursor.IsContainer ∨ cursor.IsPlain

variable {held : List Cursor} {cursor : Cursor}

/-- Values hold nothing, so there are no others among them. -/
theorem IsValue.of_mem (h : ∀ value ∈ held, value.IsValue) (hc : cursor ∈ preorderAll held) :
    cursor.IsValue := by
  obtain ⟨value, hvalue, rfl | hbelow⟩ := exists_of_mem_preorderAll hc
  · exact h cursor hvalue
  · rw [(h value hvalue).children, preorderAll_nil] at hbelow
    cases hbelow

/-- A plain declaration holds values at most. -/
theorem IsPlain.of_mem {plain : Cursor} (h : plain.IsPlain)
    (hc : cursor ∈ preorderAll plain.children) : cursor.IsValue := by
  rcases h with ⟨-, hvalues⟩ | ⟨-, hnone⟩
  · exact IsValue.of_mem hvalues hc
  · rw [hnone, preorderAll_nil] at hc
    cases hc

/-- What stands in a container is held by it, or is a value. -/
theorem IsHeld.of_mem (h : ∀ child ∈ held, child.IsHeld) (hc : cursor ∈ preorderAll held) :
    cursor ∈ held ∨ cursor.IsValue := by
  obtain ⟨child, hchild, rfl | hbelow⟩ := exists_of_mem_preorderAll hc
  · exact .inl hchild
  · rcases h child hchild with ⟨-, hnone⟩ | hplain
    · rw [hnone, preorderAll_nil] at hbelow
      cases hbelow
    · exact .inr (hplain.of_mem hbelow)

/-- What a source declares stands at its top or in a container there, or is a value. -/
theorem IsTop.of_mem {cursors : List Cursor} (h : ∀ top ∈ cursors, top.IsTop)
    (hc : cursor ∈ preorderAll cursors) :
    cursor ∈ cursors ∨ (∃ top ∈ cursors, top.IsContainer ∧ cursor ∈ top.children) ∨
      cursor.IsValue := by
  obtain ⟨top, htop, rfl | hbelow⟩ := exists_of_mem_preorderAll hc
  · exact .inl htop
  · rcases h top htop with hcontainer | hplain
    · rcases IsHeld.of_mem hcontainer.held hbelow with hheld | hvalue
      · exact .inr (.inl ⟨top, htop, hcontainer, hheld⟩)
      · exact .inr (.inr hvalue)
    · exact .inr (.inr (hplain.of_mem hbelow))

theorem IsPlain.not_isContainerKind (h : cursor.IsPlain) : isContainerKind cursor.kind = false := by
  rcases h with ⟨hk, -⟩ | ⟨hk, -⟩
  · rw [hk]
    rfl
  · revert hk
    cases cursor.kind <;> decide

theorem IsPlain.values (h : cursor.IsPlain) (hkind : cursor.kind = .enumeration) :
    ∀ value ∈ cursor.children, value.IsValue := by
  rcases h with ⟨-, hvalues⟩ | ⟨hk, -⟩
  · exact hvalues
  · rw [hkind] at hk
    cases hk

theorem IsHeld.spec (h : cursor.IsHeld) :
    isContainerKind cursor.kind = false ∧ cursor.kind ≠ .enumerator := by
  rcases h with ⟨hmember, -⟩ | hplain
  · unfold isMember at hmember
    revert hmember
    cases cursor.kind <;> decide
  · refine ⟨hplain.not_isContainerKind, ?_⟩
    intro hkind
    rcases hplain with ⟨hk, -⟩ | ⟨hk, -⟩ <;> rw [hkind] at hk <;> cases hk

/-- Containers stand at the top of a source. -/
theorem IsTop.container_of_mem {cursors : List Cursor} (h : ∀ top ∈ cursors, top.IsTop)
    (hc : cursor ∈ preorderAll cursors) (hkind : isContainerKind cursor.kind = true) :
    cursor ∈ cursors ∧ cursor.IsContainer := by
  rcases IsTop.of_mem h hc with htop | ⟨top, htop, hcontainer, hheld⟩ | hvalue
  · rcases h cursor htop with hcontainer | hplain
    · exact ⟨htop, hcontainer⟩
    · rw [hplain.not_isContainerKind] at hkind
      cases hkind
  · rw [(hcontainer.held cursor hheld).spec.1] at hkind
    cases hkind
  · rw [hvalue.kind] at hkind
    cases hkind

end Cursor

namespace Declaration

open Cursor (preorderAll MayBeUnnamed Within IsPlain IsHeld IsContainer IsTop)

/-! ## Macros -/

theorem located_macroDefinition? (t : CodeToken) :
    Located IsPlain [t] (macroDefinition? t).toList := by
  unfold macroDefinition?
  extract_lets isGap isPart
  split
  · exact .nil IsPlain [t]
  · next rest hrest =>
    extract_lets named name
    split
    · next h =>
      have hname : name ≠ [] := by
        intro hnil
        simp [hnil] at h
      have hnamed : 0 < named.length :=
        List.length_pos_iff.2 fun hnil => hname (by unfold name; rw [hnil]; rfl)
      have hlen : named.length ≤ t.text.length := by
        have hdrop := ((List.dropWhile_suffix isGap).trans
          (List.drop_suffix 1 t.text) : (t.text.drop 1).dropWhile isGap <:+ t.text).length_le
        have hrest := congrArg List.length (Text.afterPrefix?_eq_some_iff.1 hrest)
        have hnamed : named.length ≤ rest.length := (List.dropWhile_suffix isGap).length_le
        rw [List.length_append] at hrest
        omega
      have := Text.length_le_byteLength t.text
      refine .leaf ⟨⟨t, List.mem_cons_self, ?_, ?_⟩, ⟨t, List.mem_cons_self, rfl⟩, ?_, ?_, rfl⟩ rfl
        (.leaf rfl rfl)
      · exact Nat.le_add_right ..
      · dsimp only
        omega
      · exact Nat.le_add_right ..
      · intro hempty
        rw [← String.ofList_nil] at hempty
        exact absurd (String.ofList_inj.1 hempty) hname
    · exact .nil IsPlain [t]

/-! ## Methods and properties -/

theorem SelectorPart.start_read (keyword : Option String) (start : Nat) (code : Code) :
    (read keyword start code).1.start = start := by
  unfold read
  dsimp only
  split
  · split <;> rfl
  · rfl

/-- A selector with parts has a colon in it. -/
theorem join_spelling_ne (part : SelectorPart) (parts : List SelectorPart) :
    String.join ((part :: parts).map SelectorPart.spelling) ≠ "" := by
  intro hempty
  have h := congrArg String.toList hempty
  simp [SelectorPart.spelling, String.toList_join] at h

/-- A selector's parts begin at the first token, and what is left begins behind it. -/
theorem selectorParts_cons {code : Code} {first : SelectorPart} {parts : List SelectorPart}
    (h : (selectorParts code).1 = first :: parts) :
    ∃ t more, code = t :: more ∧ t.start = first.start ∧ (selectorParts code).2 <:+ more := by
  revert h
  fun_cases selectorParts code with
  | case1 t rest _ part others =>
    intro h
    cases h
    exact ⟨t, rest, rfl, (SelectorPart.start_read ..).symm,
      (selectorParts_suffix _).trans (SelectorPart.read_suffix ..)⟩
  | case2 t rest _ _ part others =>
    intro h
    cases h
    exact ⟨t, rest, rfl, (SelectorPart.start_read ..).symm, ((selectorParts_suffix _).trans
      (SelectorPart.read_suffix ..)).trans (List.tail_suffix rest)⟩
  | case3 =>
    intro h
    cases h
  | case4 =>
    intro h
    cases h

theorem selectorParts_nil {code : Code} (h : (selectorParts code).1 = []) :
    (selectorParts code).2 = code := by
  revert h
  fun_cases selectorParts code with
  | case1 =>
    intro h
    cases h
  | case2 =>
    intro h
    cases h
  | case3 => exact fun _ => rfl
  | case4 => exact fun _ => rfl

/-- A selector begins at the first token and is spelled from it on. -/
theorem readSelector_spec {code : Code} {selector : Selector}
    (h : (readSelector code).1 = some selector) :
    ∃ t more, code = t :: more ∧ t.start = selector.start ∧ (readSelector code).2 <:+ more ∧
      (t.text ≠ [] → selector.spelling ≠ "") := by
  cases hparts : (selectorParts code).1 with
  | cons first parts =>
    obtain ⟨t, more, hcode, hstart, hrest⟩ := selectorParts_cons hparts
    simp only [readSelector, hparts, Option.some.injEq] at h ⊢
    subst h
    exact ⟨t, more, hcode, hstart, hrest, fun _ => join_spelling_ne first parts⟩
  | nil =>
    have hrest := selectorParts_nil hparts
    cases code with
    | nil => simp only [readSelector, hparts, hrest] at h; cases h
    | cons t more =>
      simp only [readSelector, hparts, hrest] at h ⊢
      split at h
      · next hident =>
        cases h
        rw [if_pos hident]
        exact ⟨t, more, rfl, rfl, List.suffix_rfl, CodeToken.word_ne⟩
      · cases h

theorem reads_readMethod {sign : CodeToken} {code : Code} {cursor : Cursor}
    (h : (readMethod sign code).1 = .ok cursor) :
    Reads IsHeld (sign :: code) [cursor] (readMethod sign code).2 := by
  obtain ⟨before, hbefore⟩ := readType_suffix code
  unfold readMethod at h ⊢
  dsimp only at h ⊢
  split at h
  · cases h
  · next selector hselector =>
    cases h
    obtain ⟨t, more, hmore, hstart, hrest, hspelling⟩ := readSelector_spec hselector
    have hcode : sign :: code = (sign :: before ++ [t]) ++ more := by
      rw [← hbefore, hmore]
      simp
    have ht : t ∈ sign :: before ++ [t] := List.mem_append_right _ (List.mem_singleton.2 rfl)
    have hafter := ((afterMethod_suffix _).trans (readVariadic_suffix _)).trans hrest
    rw [hcode]
    refine .before (.ofLocated fun hcode => .leaf (.ofName hcode.left ht List.mem_cons_self
      hstart.symm rfl (hcode.left.start_le ht) (fun h => ?_) rfl) rfl (.inl ⟨?_, rfl⟩)) hafter
    · exact absurd h (hspelling (hcode.left.nonempty t ht))
    · by_cases hsign : sign.token = .plus <;> simp [Cursor.isMember, hsign]

theorem reads_readProperty {keyword : CodeToken} {code : Code} {cursor : Cursor}
    (h : (readProperty keyword code).1 = .ok cursor) :
    Reads IsHeld (keyword :: code) [cursor] (readProperty keyword code).2 := by
  unfold readProperty at h ⊢
  dsimp only at h ⊢
  have hsuffix := readAttributes_suffix code
  generalize readAttributes code = attributes at h hsuffix ⊢
  have hspan := spanTop_append .arguments endsProperty 0 attributes.2
  generalize spanTop .arguments endsProperty 0 attributes.2 = span at h hspan ⊢
  obtain ⟨before, hbefore⟩ := hsuffix
  split at h
  · cases h
  · next declarator hd =>
    cases h
    have hcode : keyword :: code = (keyword :: before ++ span.1) ++ span.2 := by
      rw [← hbefore, ← hspan]
      simp
    have hname : declarator.name ∈ keyword :: before ++ span.1 :=
      List.mem_append_right _ (Declarator.name_mem hd)
    rw [hcode]
    refine .before (.ofLocated fun hcode => .leaf
      (.ofName hcode.left hname List.mem_cons_self rfl rfl (hcode.left.start_le hname)
        (fun h => ?_) rfl) rfl
      (.inl ⟨rfl, rfl⟩)) (dropSemicolon_suffix _)
    exact absurd h (CodeToken.word_ne (hcode.left.nonempty _ hname))

theorem Reads.prependMember {code mid : Code} {start : Nat} {member : Except Fault Cursor}
    {scanned : Scanned} (hskip : mid <:+ code)
    (hmember : ∀ cursor, member = .ok cursor → Reads IsHeld code [cursor] mid)
    (h : Reads IsHeld mid scanned.cursors scanned.rest) :
    Reads IsHeld code (scanned.prependMember start member).cursors
      (scanned.prependMember start member).rest := by
  cases member with
  | ok cursor => exact (hmember cursor rfl).append h
  | error fault => exact h.behind hskip

theorem reads_readMembers (opener : Nat) (code : Code) :
    Reads IsHeld code (readMembers opener code).cursors (readMembers opener code).rest := by
  fun_induction readMembers opener code with
  | case1 => exact .skip List.suffix_rfl
  | case2 t rest => exact .skip (List.suffix_cons t rest)
  | case3 t rest _ _ _ property ih =>
    exact .prependMember ((readProperty_suffix t rest).trans (List.suffix_cons t rest))
      (fun cursor hc => reads_readProperty hc) ih
  | case4 => exact .skip List.suffix_rfl
  | case5 t rest _ _ _ _ _ ih =>
    exact ih.behind ((afterStatement_suffix rest).trans (List.suffix_cons t rest))
  | case6 t rest _ _ _ _ _ ih => exact ih.behind (List.suffix_cons t rest)
  | case7 t rest _ method ih | case8 t rest _ method ih =>
    exact .prependMember ((readMethod_suffix t rest).trans (List.suffix_cons t rest))
      (fun cursor hc => reads_readMethod hc) ih
  | case9 t rest _ ih =>
    exact ih.behind ((Bracket.skip_suffix .brace 1 rest).trans (List.suffix_cons t rest))
  | case10 t rest _ ih =>
    have hmacro : Reads IsHeld ([t] ++ rest) (macroDefinition? t).toList rest :=
      .imp (.ofLocated fun _ => located_macroDefinition? t) fun _ => .inr
    exact hmacro.append ih
  | case11 t rest _ ih | case12 t rest _ ih => exact ih.behind (List.suffix_cons t rest)
  | case13 t rest _ _ _ _ _ _ _ plain ih =>
    exact ((reads_readPlain (t :: rest)).imp fun _ => .inr).append ih

/-! ## Containers -/

/-- A category is located at its class or at a token in the parentheses. -/
theorem readCategory_spec {owner : CodeToken} {code : Code} {name : CategoryName}
    (h : (readCategory owner code).1 = some name) :
    name.offset = owner.start ∨
      ∃ paren t more, code = paren :: t :: more ∧ name.offset = t.start ∧
        (readCategory owner code).2 <:+ more := by
  unfold readCategory at h ⊢
  split at h
  · next hopen =>
    rw [if_pos hopen]
    cases h
    cases code with
    | nil => cases hopen
    | cons paren inside =>
      cases inside with
      | nil => exact .inl rfl
      | cons t more =>
        by_cases ht : t.token = .ident
        · have hident : (some t).filter (·.token == .ident) = some t := by simp [ht]
          have hdrop : (t :: more).dropWhile (·.token != .closeParen) =
              more.dropWhile (·.token != .closeParen) :=
            List.dropWhile_cons_of_pos (by rw [ht]; rfl)
          dsimp only [List.tail_cons, List.head?_cons]
          rw [hident, hdrop]
          exact .inr ⟨paren, t, more, rfl, rfl, (List.tail_suffix _).trans (List.dropWhile_suffix _)⟩
        · have hident : (some t).filter (·.token == .ident) = none := by simp [ht]
          dsimp only [List.tail_cons, List.head?_cons]
          rw [hident]
          exact .inl rfl
  · cases h

/-- A container's head holds the name that the container is located at. -/
theorem readHead_spec (isImplementation : Bool) (extent : Nat) (name : CodeToken) (code : Code) :
    ∃ before, before ++ (readHead isImplementation extent name code).2 = code ∧
      ∃ t ∈ name :: before, (readHead isImplementation extent name code).1.offset = t.start := by
  have hsuffix := readHead_suffix isImplementation extent name code
  unfold readHead at hsuffix ⊢
  dsimp only at hsuffix ⊢
  cases hc : (readCategory name (readNames code).2).1 with
  | none =>
    obtain ⟨before, hbefore⟩ := hsuffix
    exact ⟨before, hbefore, name, List.mem_cons_self, rfl⟩
  | some category =>
    rcases readCategory_spec hc with hname | ⟨paren, t, more, hgeneric, hoffset, hrest⟩
    · obtain ⟨before, hbefore⟩ := hsuffix
      exact ⟨before, hbefore, name, List.mem_cons_self, hname⟩
    · obtain ⟨front, hfront⟩ := readNames_suffix code
      obtain ⟨inside, hinside⟩ := (afterVariables_suffix _).trans <| (readNames_suffix _).trans <|
        (readSuperclass_suffix _).trans hrest
      refine ⟨front ++ paren :: t :: inside, ?_, t, by simp, hoffset⟩
      rw [hgeneric, ← hinside] at hfront
      simpa using hfront

theorem shape_readHead (isImplementation : Bool) (extent : Nat) (name : CodeToken) (code : Code)
    {children : List Cursor} (hheld : ∀ child ∈ children, IsHeld child) :
    IsContainer { (readHead isImplementation extent name code).1 with children } := by
  unfold readHead
  dsimp only
  split
  · exact ⟨by dsimp only; split <;> rfl, fun _ => ⟨name.word, rfl⟩, hheld⟩
  · refine ⟨by dsimp only; split <;> rfl, ?_, hheld⟩
    intro h
    cases isImplementation <;> cases h

/-- A container is read with the members behind its head. -/
theorem reads_withMembers (keyword : CodeToken) (before code : Code) (cursor : Cursor)
    {t : CodeToken} (ht : t ∈ before) (hoffset : cursor.offset = t.start)
    (hextent : cursor.extent = keyword.start)
    (hplace : cursor.location = none)
    (hnamed : Code.Ascending (keyword :: before) → cursor.spelling = "" → MayBeUnnamed cursor.kind)
    (hshape : ∀ children, (∀ child ∈ children, IsHeld child) →
      IsContainer { cursor with children }) :
    Reads IsTop (keyword :: (before ++ code))
      (withMembers cursor (readMembers keyword.start code)).cursors
      (withMembers cursor (readMembers keyword.start code)).rest := by
  have hmembers := reads_readMembers keyword.start code
  rw [← List.cons_append]
  refine .node ?_ hmembers fun hheld => .inl (hshape _ hheld)
  intro hcode
  have hmem := List.mem_cons_of_mem keyword ht
  have hbegins : cursor.extent ≤ t.start := Nat.le_trans (Nat.le_of_eq hextent) (hcode.left.start_le hmem)
  exact .ofName hcode.left hmem List.mem_cons_self hoffset hextent hbegins (hnamed hcode.left) hplace

theorem named_readHead (isImplementation : Bool) (extent : Nat) {name : CodeToken} (code : Code)
    (hname : name.text ≠ [])
    (h : (readHead isImplementation extent name code).1.spelling = "") :
    MayBeUnnamed (readHead isImplementation extent name code).1.kind := by
  unfold readHead at h ⊢
  dsimp only at h ⊢
  split
  · cases isImplementation
    · exact .inr (.inl rfl)
    · exact .inr (.inr rfl)
  · next hc =>
    rw [hc] at h
    exact absurd h (CodeToken.word_ne hname)

theorem fixed_readHead (isImplementation : Bool) (extent : Nat) (name : CodeToken) (code : Code) :
    (readHead isImplementation extent name code).1.extent = extent ∧
      (readHead isImplementation extent name code).1.location = none := by
  unfold readHead
  dsimp only
  split <;> exact ⟨rfl, rfl⟩

theorem reads_readContainer (keyword : CodeToken) (code : Code) :
    Reads IsTop (keyword :: code) (readContainer keyword code).cursors
      (readContainer keyword code).rest := by
  unfold readContainer
  dsimp only
  split
  · next name rest =>
    split
    · generalize (keyword.word == "@implementation") = isImplementation
      obtain ⟨before, hbefore, t, ht, hoffset⟩ :=
        readHead_spec isImplementation keyword.start name rest
      obtain ⟨hextent, hplace⟩ := fixed_readHead isImplementation keyword.start name rest
      have hread := reads_withMembers keyword (name :: before)
        (readHead isImplementation keyword.start name rest).2 _ ht hoffset hextent hplace
        (fun hcode => named_readHead _ _ _ (hcode.nonempty name (by simp)))
        fun children hheld => shape_readHead _ _ _ _ hheld
      rwa [List.cons_append, hbefore] at hread
    · exact .skip (List.suffix_cons keyword _)
  · exact .skip (List.suffix_cons keyword [])

theorem reads_readProtocol (keyword : CodeToken) (code : Code) :
    Reads IsTop (keyword :: code) (readProtocol keyword code).cursors
      (readProtocol keyword code).rest := by
  unfold readProtocol
  dsimp only
  split
  · next name rest =>
    split
    · split
      · exact .skip ((afterStatement_suffix rest).trans
          ((List.suffix_cons name rest).trans (List.suffix_cons keyword _)))
      · obtain ⟨before, hbefore⟩ := readNames_suffix rest
        let protocol : Cursor :=
          { kind := .protocol
            spelling := name.word
            offset := name.start
            extent := keyword.start
            detail := { protocols := (readNames rest).1 } }
        have hread := reads_withMembers keyword (name :: before) (readNames rest).2 protocol
          List.mem_cons_self rfl rfl rfl
          (fun hcode h => absurd h (CodeToken.word_ne (hcode.nonempty name (by simp))))
          fun children hheld => ⟨rfl, (fun h => by cases h), hheld⟩
        rwa [List.cons_append, hbefore] at hread
    · exact .skip (List.suffix_cons keyword _)
  · exact .skip (List.suffix_cons keyword [])

theorem reads_readAtKeyword (keyword : CodeToken) (code : Code) :
    Reads IsTop (keyword :: code) (readAtKeyword keyword code).cursors
      (readAtKeyword keyword code).rest := by
  have hstatement : afterStatement code <:+ keyword :: code :=
    (afterStatement_suffix code).trans (List.suffix_cons keyword code)
  unfold readAtKeyword
  split
  · exact reads_readContainer keyword code
  · exact reads_readContainer keyword code
  · exact reads_readProtocol keyword code
  · exact .skip hstatement
  · exact .skip hstatement
  · exact .skip hstatement
  · exact .skip (List.suffix_cons keyword code)
  · exact .skip (List.suffix_cons keyword code)

/-! ## Sources -/

theorem reads_scan (code : Code) : Reads IsTop code (scan code).cursors [] := by
  fun_induction scan code with
  | case1 => exact .skip List.suffix_rfl
  | case2 t rest _ ih =>
    have hmacro : Reads IsTop ([t] ++ rest) (macroDefinition? t).toList rest :=
      .imp (.ofLocated fun _ => located_macroDefinition? t) fun _ => .inr
    exact hmacro.append ih
  | case3 t rest _ read ih => exact (reads_readAtKeyword t rest).append ih
  | case4 t rest _ ih | case5 t rest _ ih => exact ih.behind (List.suffix_cons t rest)
  | case6 t rest _ _ _ _ plain ih =>
    exact ((reads_readPlain (t :: rest)).imp fun _ => .inr).append ih

theorem located_scanText (source : List Char) :
    Located IsTop (Code.ofLexemes (lex source).1) (scanText source).cursors := by
  obtain ⟨front, hfront, hlocated⟩ := reads_scan (Code.ofLexemes (lex source).1)
  rw [List.append_nil] at hfront
  subst hfront
  exact hlocated (.ofLexemes source)

/-- The cursors of a source are tidy. -/
theorem tidy_scanText (source : List Char) : Cursor.Tidy (scanText source).cursors where
  ascending := (located_scanText source).ascending.imp_of_mem fun _ hb hlt =>
    Nat.le_trans (Nat.le_of_lt hlt) ((located_scanText source).within _ hb).begins
  named cursor hc := ((located_scanText source).within cursor hc).named

/-- The cursors of a source begin where lexemes do that are no comments. -/
theorem exists_lexeme_of_scanText {source : List Char} {cursor : Cursor}
    (h : cursor ∈ preorderAll (scanText source).cursors) :
    ∃ x ∈ (lex source).1, x.isComment = false ∧ x.start = cursor.extent := by
  obtain ⟨t, ht, hstart⟩ := ((located_scanText source).within cursor h).extent
  obtain ⟨x, hx, hcode, -, hxt, -⟩ := Code.exists_lexeme ht
  exact ⟨x, hx, hcode, hxt.trans hstart⟩

end Declaration

end DeclDoc
