import DeclDoc.Proofs.Located
import DeclDoc.Proofs.OneLine

/-!
# Names in scanned declarations

The scanner takes names from identifiers of the code and puts types on one line. `Code.Legible`: the
identifiers of the code stand on one line each. Then so do the names and types of all cursors that are
read from it (`Cursor.AllOneLine`), one lemma for each reader up to `oneLine_scanText`.
-/

set_option autoImplicit false

namespace DeclDoc

/-! ## Legible code -/

/-- The identifiers of the code stand on one line each. -/
def Code.Legible (code : Code) : Prop := ∀ t ∈ code, t.token = .ident → OneLine t.word

theorem Code.Legible.of_subset {code rest : Code} (h : code.Legible) (hs : rest ⊆ code) :
    rest.Legible := fun t ht => h t (hs ht)

theorem Code.Legible.of_suffix {code rest : Code} (h : code.Legible) (hs : rest <:+ code) :
    rest.Legible := h.of_subset hs.subset

theorem Code.Legible.tail {t : CodeToken} {rest : Code} (h : Code.Legible (t :: rest)) :
    Code.Legible rest := h.of_suffix (List.suffix_cons t rest)

theorem Code.Legible.head {t : CodeToken} {rest : Code} (h : Code.Legible (t :: rest))
    (ht : t.token = .ident) : OneLine t.word := h t List.mem_cons_self ht

theorem Code.legible_ofLexemes (source : List Char) : Code.Legible (ofLexemes (lex source).1) := by
  intro t ht htoken
  obtain ⟨lexeme, hlexeme, -, hsame, -, htext⟩ := exists_lexeme ht
  rw [CodeToken.word, OneLine.ofList_iff, ← htext]
  exact Lexeme.oneLine_of_ident hlexeme (htoken ▸ hsame)

/-! ## Cursors of one line -/

namespace Cursor

/-- What an outline shows of a cursor stands on one line. -/
structure OneLine (cursor : Cursor) : Prop where
  spelling : DeclDoc.OneLine cursor.spelling
  superclass : ∀ name ∈ cursor.detail.superclass, DeclDoc.OneLine name
  protocols : ∀ name ∈ cursor.detail.protocols, DeclDoc.OneLine name
  baseClass : ∀ name ∈ cursor.detail.baseClass, DeclDoc.OneLine name
  typeName : ∀ name ∈ cursor.detail.typeName, DeclDoc.OneLine name

/-- A cursor that has a name and perhaps a type, and belongs to no class. -/
theorem OneLine.named {cursor : Cursor} (hspelling : DeclDoc.OneLine cursor.spelling)
    (htype : ∀ name ∈ cursor.detail.typeName, DeclDoc.OneLine name)
    (hdetail : cursor.detail.superclass = none ∧ cursor.detail.protocols = [] ∧
      cursor.detail.baseClass = none) : cursor.OneLine := by
  obtain ⟨hsuperclass, hprotocols, hbase⟩ := hdetail
  refine ⟨hspelling, ?_, ?_, ?_, htype⟩
  · rw [hsuperclass]
    exact forall_mem_none
  · rw [hprotocols]
    exact List.forall_mem_nil _
  · rw [hbase]
    exact forall_mem_none

/-- So it does for all cursors of some trees. -/
def AllOneLine (cursors : List Cursor) : Prop := ∀ cursor ∈ preorderAll cursors, cursor.OneLine

namespace AllOneLine

variable {cursor : Cursor} {xs ys : List Cursor}

theorem nil : AllOneLine [] := by
  intro cursor hc
  rw [preorderAll_nil] at hc
  cases hc

theorem append (hx : AllOneLine xs) (hy : AllOneLine ys) : AllOneLine (xs ++ ys) := by
  intro cursor hc
  rw [preorderAll_append] at hc
  exact (List.mem_append.1 hc).elim (hx cursor) (hy cursor)

theorem node (h : cursor.OneLine) (hchildren : AllOneLine cursor.children) :
    AllOneLine [cursor] := by
  intro c hc
  rw [preorderAll_cons, List.append_nil] at hc
  rcases List.mem_cons.1 hc with rfl | hc
  · exact h
  · exact hchildren c hc

theorem leaf (h : cursor.OneLine) (hchildren : cursor.children = []) : AllOneLine [cursor] :=
  node h (hchildren ▸ nil)

theorem toList {found : Option Cursor}
    (h : ∀ cursor ∈ found, cursor.OneLine ∧ cursor.children = []) : AllOneLine found.toList := by
  cases found with
  | none => exact nil
  | some cursor => exact leaf (h cursor rfl).1 (h cursor rfl).2

theorem filterMap {α : Type} {declare : α → Option Cursor} {parts : List α}
    (h : ∀ part ∈ parts, AllOneLine (declare part).toList) :
    AllOneLine (parts.filterMap declare) := by
  induction parts with
  | nil => exact nil
  | cons part parts ih =>
    have hrest := ih fun p hp => h p (List.mem_cons_of_mem _ hp)
    have hpart := h part List.mem_cons_self
    rw [List.filterMap_cons]
    cases hd : declare part with
    | none => exact hrest
    | some cursor =>
      rw [hd] at hpart
      exact hpart.append hrest

end AllOneLine

end Cursor

namespace Declaration

open Cursor (AllOneLine)

variable {code head : Code}

/-! ## Declarators and variables -/

namespace Declarator

theorem name_token_of_findWrapped? {declarator : Declarator}
    (h : findWrapped? code = some declarator) : declarator.name.token = .ident := by
  fun_induction findWrapped? code generalizing declarator with
  | case1 p mark name rest hname =>
    cases h
    exact hname.2.2
  | case2 p mark name rest _ ih =>
    obtain ⟨found, hfound, rfl⟩ := Option.map_eq_some_iff.1 h
    have hname := ih hfound
    exact hname
  | case3 => cases h

theorem name_token_of_findLast? {depth : Nat} {after reversed : Code} {declarator : Declarator}
    (h : findLast? depth after reversed = some declarator) : declarator.name.token = .ident := by
  induction reversed generalizing depth after with
  | nil => cases h
  | cons t more ih =>
    rw [findLast?] at h
    split at h
    · next hname =>
      cases h
      have := hname.2
      simp only [isName, Bool.and_eq_true, beq_iff_eq] at this
      exact this.1.1.1
    · exact ih h

/-- A declared name is an identifier. -/
theorem name_token {declarator : Declarator} (h : find? code = some declarator) :
    declarator.name.token = .ident := by
  rw [find?, Option.or_eq_some_iff] at h
  rcases h with h | ⟨-, h⟩
  · exact name_token_of_findWrapped? h
  · exact name_token_of_findLast? h

theorem oneLine_name {declarator : Declarator} (hcode : code.Legible)
    (h : find? code = some declarator) : OneLine declarator.name.word :=
  hcode _ (name_mem h) (name_token h)

theorem oneLine_toVariable {declarator : Declarator} (hcode : code.Legible)
    (h : find? code = some declarator) (extent : Nat) {typeName : String}
    (htype : OneLine typeName) : (declarator.toVariable extent typeName).OneLine :=
  .named (oneLine_name hcode h) (fun name hname => by cases hname; exact htype) ⟨rfl, rfl, rfl⟩

end Declarator

theorem legible_withoutInitializer (h : code.Legible) : (withoutInitializer code).Legible :=
  h.of_subset (withoutInitializer_sublist code).subset

theorem oneLine_variableOf? (h : code.Legible) : AllOneLine (variableOf? code).toList := by
  refine .toList fun cursor hc => ?_
  obtain ⟨declarator, hd, rfl⟩ := Option.map_eq_some_iff.1 hc
  have hfind := (Option.filter_eq_some_iff.1 hd).1
  exact ⟨declarator.oneLine_toVariable h hfind _ declarator.oneLine_typeName, rfl⟩

theorem oneLine_laterVariable? (shared : String) (h : code.Legible) :
    AllOneLine (laterVariable? shared code).toList := by
  refine .toList fun cursor hc => ?_
  obtain ⟨declarator, hd, rfl⟩ := Option.map_eq_some_iff.1 hc
  exact ⟨declarator.oneLine_toVariable (legible_withoutInitializer h) hd _
    (OneLine.ofList_iff.2 (Text.notMem_tidy _)), rfl⟩

/-- What stands between commas stands in the code. -/
theorem subset_of_mem_splitCommas {nesting : Nesting} {part : Code}
    (h : part ∈ splitCommas nesting code) : part ⊆ code := by
  induction hlen : code.length using Nat.strongRecOn generalizing code with
  | ind n ih =>
    rcases splitCommas_cases nesting code with hsplit | ⟨first, comma, rest, rfl, hsplit⟩
    · rw [hsplit] at h
      rw [List.mem_singleton.1 h]
      exact List.Subset.refl code
    · rw [hsplit] at h
      rcases List.mem_cons.1 h with rfl | h
      · exact List.subset_append_left _ _
      · have hshorter : rest.length < n := by
          rw [← hlen, List.length_append, List.length_cons]
          omega
        have hrest : rest <:+ first ++ comma :: rest :=
          (List.suffix_cons comma rest).trans (List.suffix_append ..)
        exact List.Subset.trans (ih _ hshorter h rfl) hrest.subset

theorem oneLine_variablesOf (h : head.Legible) : AllOneLine (variablesOf head) := by
  have hparts : ∀ part ∈ splitCommas .initializers head, part.Legible := fun part hpart =>
    h.of_subset (subset_of_mem_splitCommas hpart)
  unfold variablesOf
  split
  · exact .nil
  · next first more hsplit =>
    rw [hsplit] at hparts
    split
    · exact .nil
    · next declarator hd =>
      have hfind := (Option.filter_eq_some_iff.1 hd).1
      have hfirst := legible_withoutInitializer (hparts first List.mem_cons_self)
      exact (AllOneLine.leaf
        (declarator.oneLine_toVariable hfirst hfind _ declarator.oneLine_typeName) rfl).append
          (.filterMap fun part hpart =>
            oneLine_laterVariable? _ (hparts part (List.mem_cons_of_mem _ hpart)))

theorem oneLine_typedef? {first : CodeToken} (h : code.Legible) :
    AllOneLine (typedef? first code).toList := by
  refine .toList fun cursor hc => ?_
  obtain ⟨declarator, hd, rfl⟩ := Option.map_eq_some_iff.1 hc
  refine ⟨.named (declarator.oneLine_name h hd) (fun name hname => ?_) ⟨rfl, rfl, rfl⟩, rfl⟩
  cases hname
  exact (declarator.prepend first).oneLine_typeName

/-! ## Functions -/

theorem oneLine_function? (h : head.Legible) : AllOneLine (function? head).toList := by
  refine .toList fun cursor hc => ?_
  unfold function? at hc
  split at hc
  · next name reversed after hsplit =>
    dsimp only at hc
    split at hc
    · next hfunction =>
      obtain ⟨group, -, rfl⟩ := Option.map_eq_some_iff.1 hc
      exact ⟨.named (h name (splitArguments?_name hsplit) hfunction.1) forall_mem_none
        ⟨rfl, rfl, rfl⟩, rfl⟩
    · cases hc
  · cases hc

/-! ## Enumerations and records -/

theorem oneLine_enumerators (h : code.Legible) : AllOneLine (enumerators code).1 := by
  fun_induction enumerators code with
  | case1 | case2 => exact .nil
  | case3 t rest htoken more ih =>
    have hmore := ih (h.tail.of_suffix (afterEnumerator_suffix rest))
    dsimp only
    split
    · exact hmore
    · have hvalue : AllOneLine [enumerator t] :=
        .leaf (.named (h.head htoken) forall_mem_none ⟨rfl, rfl, rfl⟩) rfl
      exact hvalue.append hmore
  | case4 t rest _ _ ih => exact ih h.tail

/-- What a head says of an enumeration stands on one line. -/
structure EnumHead.OneLine (head : EnumHead) : Prop where
  name : ∀ t ∈ head.name, DeclDoc.OneLine t.word
  typeName : ∀ type ∈ head.typeName, DeclDoc.OneLine type

theorem EnumHead.oneLine_ofMacro (keyword : CodeToken) (h : code.Legible) :
    (ofMacro keyword code).OneLine := by
  unfold ofMacro
  split
  · next p args =>
    split
    · split
      · next group hgroup =>
        constructor
        · intro t ht
          have hmem := List.mem_reverse.1 (List.mem_of_find?_eq_some ht)
          have hargs : t ∈ args := by
            rw [Bracket.close?_append hgroup]
            exact List.mem_append_left _ hmem
          have htoken := List.find?_some (Option.mem_def.1 ht)
          exact h t (List.mem_cons_of_mem p hargs) (eq_of_beq htoken)
        · intro type htype
          dsimp only at htype
          split at htype
          · cases htype
            exact oneLine_line _
          · cases htype
      · exact ⟨forall_mem_none, forall_mem_none⟩
    · exact ⟨forall_mem_none, forall_mem_none⟩
  · exact ⟨forall_mem_none, forall_mem_none⟩

theorem EnumHead.oneLine_typeAfterColon? (code : Code) :
    ∀ type ∈ typeAfterColon? code, DeclDoc.OneLine type := by
  intro type htype
  unfold typeAfterColon? at htype
  split at htype
  · split at htype
    · cases htype
      exact oneLine_line _
    · cases htype
  · cases htype

theorem EnumHead.oneLine_ofKeyword (keyword : CodeToken) (h : code.Legible) :
    (ofKeyword keyword code).OneLine := by
  unfold ofKeyword
  extract_lets after
  have hafter : Code.Legible after := by
    unfold after
    split
    · exact h.of_suffix (List.tail_suffix code)
    · exact h
  clear_value after
  cases after with
  | nil => exact ⟨forall_mem_none, forall_mem_none⟩
  | cons t rest =>
    dsimp only
    split
    · next htoken =>
      refine ⟨fun name hname => ?_, oneLine_typeAfterColon? rest⟩
      cases hname
      exact hafter.head htoken
    · exact ⟨forall_mem_none, oneLine_typeAfterColon? (t :: rest)⟩

theorem oneLine_readTail (isTypedef : Bool) (h : code.Legible) :
    ∀ t ∈ (readTail isTypedef code).1, OneLine t.word := by
  intro t ht
  have hhead : (spanHead code).1.Legible :=
    h.of_subset fun u hu => spanTop_append .arguments endsHead 0 code ▸ List.mem_append_left _ hu
  unfold readTail at ht
  dsimp only at ht
  split at ht
  · obtain ⟨declarator, hd, rfl⟩ := Option.map_eq_some_iff.1 ht
    exact declarator.oneLine_name hhead hd
  · cases ht

theorem oneLine_readEnumeration {enumHead : EnumHead} (hhead : enumHead.OneLine) (isTypedef : Bool)
    (extent : Nat) (h : code.Legible) :
    AllOneLine (readEnumeration enumHead isTypedef extent code).1 := by
  refine .node (.named ?_ hhead.typeName ⟨rfl, rfl, rfl⟩) (oneLine_enumerators h)
  have htail := oneLine_readTail isTypedef (h.of_suffix (enumerators_suffix code))
  show OneLine ((((readTail isTypedef (enumerators code).2).1.or enumHead.name).map
    CodeToken.word).getD "")
  cases hname : (readTail isTypedef (enumerators code).2).1.or enumHead.name with
  | none => decide
  | some name =>
    rcases Option.or_eq_some_iff.1 hname with hname | ⟨-, hname⟩
    · exact htail name hname
    · exact hhead.name name hname

theorem oneLine_recordTag? (h : code.Legible) : ∀ t ∈ recordTag? code, OneLine t.word := by
  intro t ht
  fun_induction recordTag? code with
  | case1 => cases ht
  | case2 u rest _ _ ih => exact ih h.tail ht
  | case3 u rest htoken =>
    cases ht
    exact h.head htoken
  | case4 u rest _ group hgroup ih =>
    have hafter : group.after <:+ rest :=
      ⟨group.inside ++ [group.close], by simpa using (Bracket.close?_append hgroup).symm⟩
    exact ih (h.tail.of_suffix hafter) ht
  | case5 => cases ht
  | case6 => cases ht

theorem oneLine_readRecord (keyword : CodeToken) {after : Code} (hafter : after.Legible)
    (isTypedef : Bool) (extent : Nat) (h : code.Legible) :
    AllOneLine (readRecord keyword after isTypedef extent code).1 := by
  refine .toList fun cursor hc => ?_
  obtain ⟨name, hname, rfl⟩ := Option.map_eq_some_iff.1 hc
  have htail := oneLine_readTail isTypedef
    (h.of_suffix (Bracket.skip_suffix .brace 1 code))
  refine ⟨.named ?_ forall_mem_none ⟨rfl, rfl, rfl⟩, rfl⟩
  rcases Option.or_eq_some_iff.1 hname with hname | ⟨-, hname⟩
  · exact htail name hname
  · exact oneLine_recordTag? hafter name hname

/-! ## Plain declarations -/

theorem oneLine_terminated (h : head.Legible) : AllOneLine (terminated head) := by
  unfold terminated
  split
  · exact .nil
  · next first more =>
    split
    · exact oneLine_typedef? h.tail
    split
    · exact .nil
    have hfunction := oneLine_function? h
    split
    · next cursor hc => rwa [hc] at hfunction
    · exact oneLine_variablesOf h

theorem oneLine_braced (hhead : head.Legible) (h : code.Legible) :
    AllOneLine (braced head code).1 := by
  have hafter : ∀ {words : List String} {keyword : CodeToken} {after : Code},
      findWord? words head = some (keyword, after) → after.Legible := fun hfind =>
    hhead.of_subset (findWord?_mem hfind).2.1
  unfold braced
  dsimp only
  split
  · exact oneLine_variableOf? (legible_withoutInitializer hhead)
  split
  · next keyword after hfind =>
    exact oneLine_readEnumeration (EnumHead.oneLine_ofMacro keyword (hafter hfind)) _ _ h
  split
  · next cursor hfunction =>
    have := oneLine_function? hhead
    rwa [hfunction] at this
  split
  · next keyword after hfind =>
    exact oneLine_readEnumeration (EnumHead.oneLine_ofKeyword keyword (hafter hfind)) _ _ h
  split
  · next keyword after hfind => exact oneLine_readRecord keyword (hafter hfind) _ _ h
  · exact .nil

theorem oneLine_readPlain (h : code.Legible) : AllOneLine (readPlain code).1 := by
  have happ : (spanHead code).1 ++ (spanHead code).2 = code := spanTop_append ..
  have hhead : (restart (spanHead code).1).Legible := by
    refine Code.Legible.of_suffix ?_ (restart_suffix _)
    exact h.of_subset fun u hu => happ ▸ List.mem_append_left _ hu
  have hrest : (spanHead code).2.Legible := h.of_suffix ⟨_, happ⟩
  unfold readPlain
  dsimp only
  split
  · exact .nil
  · next t rest ht =>
    rw [ht] at hrest
    split
    · exact oneLine_terminated hhead
    · exact oneLine_braced hhead hrest.tail
    · exact .nil

/-! ## Macros -/

theorem oneLine_macroDefinition? (directive : CodeToken) :
    AllOneLine (macroDefinition? directive).toList := by
  refine .toList fun cursor hc => ?_
  unfold macroDefinition? at hc
  extract_lets isGap isPart at hc
  split at hc
  · cases hc
  · dsimp only at hc
    split at hc
    · cases hc
      refine ⟨.named (OneLine.ofList_iff.2 fun hbreak => ?_) forall_mem_none ⟨rfl, rfl, rfl⟩, rfl⟩
      have := List.mem_takeWhile_imp hbreak
      exact absurd this (by decide)
    · cases hc

/-! ## Members -/

theorem oneLine_selectorPart (keyword : Option String) (hkeyword : ∀ word ∈ keyword, OneLine word)
    (start : Nat) (code : Code) : OneLine (SelectorPart.read keyword start code).1.spelling := by
  have hread : (SelectorPart.read keyword start code).1.keyword = keyword := by
    unfold SelectorPart.read
    dsimp only
    split
    · split <;> rfl
    · rfl
  rw [SelectorPart.spelling, hread]
  refine OneLine.append ?_ (by decide)
  cases keyword with
  | none => decide
  | some word => exact hkeyword word rfl

theorem oneLine_selectorParts (h : code.Legible) :
    ∀ part ∈ (selectorParts code).1, OneLine part.spelling := by
  fun_induction selectorParts code with
  | case1 t rest htoken part more ih =>
    have hrest := h.tail.of_suffix (SelectorPart.read_suffix none t.start rest)
    intro p hp
    rcases List.mem_cons.1 hp with rfl | hp
    · exact oneLine_selectorPart none forall_mem_none t.start rest
    · exact ih hrest p hp
  | case2 t rest _ htoken part more ih =>
    have hrest := h.tail.of_suffix
      ((SelectorPart.read_suffix (some t.word) t.start rest.tail).trans (List.tail_suffix rest))
    intro p hp
    rcases List.mem_cons.1 hp with rfl | hp
    · refine oneLine_selectorPart _ (fun word hword => ?_) t.start rest.tail
      cases hword
      exact h.head htoken.1
    · exact ih hrest p hp
  | case3 => exact List.forall_mem_nil _
  | case4 => exact List.forall_mem_nil _

theorem oneLine_readSelector (h : code.Legible) :
    ∀ selector ∈ (readSelector code).1, OneLine selector.spelling := by
  have hparts := oneLine_selectorParts h
  have hrest : (selectorParts code).2.Legible := h.of_suffix (selectorParts_suffix code)
  intro selector hselector
  unfold readSelector at hselector
  dsimp only at hselector
  split at hselector
  · next first more hfirst =>
    cases hselector
    refine OneLine.join fun text htext => ?_
    obtain ⟨part, hpart, rfl⟩ := List.mem_map.1 htext
    exact hparts part (hfirst ▸ hpart)
  · next t rest _ ht =>
    rw [ht] at hrest
    split at hselector
    · next htoken =>
      cases hselector
      exact hrest.head htoken
    · cases hselector
  · cases hselector

/-- A member that could be read stands on one line. -/
def OneLineMember (member : Except Fault Cursor) : Prop :=
  ∀ cursor, member = .ok cursor → cursor.OneLine ∧ cursor.children = []

theorem oneLine_readMethod (sign : CodeToken) (h : code.Legible) :
    OneLineMember (readMethod sign code).1 := by
  have hselector := oneLine_readSelector (h.of_suffix (readType_suffix code))
  intro cursor hc
  unfold readMethod at hc
  dsimp only at hc
  split at hc
  · cases hc
  · next selector hread =>
    cases hc
    exact ⟨.named (hselector selector hread) forall_mem_none ⟨rfl, rfl, rfl⟩, rfl⟩

theorem oneLine_readProperty (keyword : CodeToken) (h : code.Legible) :
    OneLineMember (readProperty keyword code).1 := by
  have hrest : (readAttributes code).2.Legible := h.of_suffix (readAttributes_suffix code)
  intro cursor hc
  unfold readProperty at hc
  dsimp only at hc
  split at hc
  · cases hc
  · next declarator hd =>
    cases hc
    have hspan : (spanTop .arguments endsProperty 0 (readAttributes code).2).1.Legible :=
      hrest.of_subset fun u hu =>
        spanTop_append .arguments endsProperty 0 (readAttributes code).2 ▸
          List.mem_append_left _ hu
    refine ⟨.named (declarator.oneLine_name hspan hd) (fun name hname => ?_) ⟨rfl, rfl, rfl⟩, rfl⟩
    cases hname
    exact declarator.oneLine_typeName

theorem oneLine_prependMember {member : Except Fault Cursor} {scanned : Scanned}
    (hmember : OneLineMember member) (hscanned : AllOneLine scanned.cursors) (start : Nat) :
    AllOneLine (scanned.prependMember start member).cursors := by
  cases member with
  | error fault => exact hscanned
  | ok cursor =>
    obtain ⟨hcursor, hchildren⟩ := hmember cursor rfl
    exact (AllOneLine.leaf hcursor hchildren).append hscanned

theorem oneLine_readMembers (opener : Nat) (h : code.Legible) :
    AllOneLine (readMembers opener code).cursors := by
  fun_induction readMembers opener code with
  | case1 | case2 | case4 => exact .nil
  | case3 t rest _ _ _ property ih =>
    exact oneLine_prependMember (oneLine_readProperty t h.tail)
      (ih (h.tail.of_suffix (readProperty_suffix t rest))) t.start
  | case5 t rest _ _ _ _ _ ih => exact ih (h.tail.of_suffix (afterStatement_suffix rest))
  | case6 t rest _ _ _ _ _ ih => exact ih h.tail
  | case7 t rest _ method ih | case8 t rest _ method ih =>
    exact oneLine_prependMember (oneLine_readMethod t h.tail)
      (ih (h.tail.of_suffix (readMethod_suffix t rest))) t.start
  | case9 t rest _ ih => exact ih (h.tail.of_suffix (Bracket.skip_suffix .brace 1 rest))
  | case10 t rest _ ih => exact (oneLine_macroDefinition? t).append (ih h.tail)
  | case11 t rest _ ih | case12 t rest _ ih => exact ih h.tail
  | case13 t rest _ _ _ _ _ _ _ plain ih =>
    exact (oneLine_readPlain h).append (ih (h.of_suffix (readPlain_suffix (t :: rest))))

/-! ## Containers -/

theorem oneLine_nameList (depth : Nat) (h : code.Legible) :
    ∀ name ∈ (nameList depth code).1, OneLine name := by
  fun_induction nameList depth code with
  | case1 => exact List.forall_mem_nil _
  | case2 depth t rest _ ih => exact ih h.tail
  | case3 => exact List.forall_mem_nil _
  | case4 depth t rest _ _ ih => exact ih h.tail
  | case5 | case6 | case7 => exact List.forall_mem_nil _
  | case8 depth t rest htoken more ih =>
    intro name hname
    dsimp only at hname
    split at hname
    · rcases List.mem_cons.1 hname with rfl | hname
      · exact h.head htoken
      · exact ih h.tail name hname
    · exact ih h.tail name hname
  | case9 depth t rest _ _ _ _ _ _ ih => exact ih h.tail

theorem oneLine_readNames (h : code.Legible) : ∀ name ∈ (readNames code).1, OneLine name := by
  unfold readNames
  split
  · exact oneLine_nameList 0 h
  · exact List.forall_mem_nil _

theorem oneLine_readSuperclass (h : code.Legible) :
    ∀ name ∈ (readSuperclass code).1, OneLine name := by
  intro name hname
  unfold readSuperclass at hname
  split at hname
  · split at hname
    · split at hname
      · split at hname
        · next htoken =>
          cases hname
          exact h.tail.head htoken
        · cases hname
      · cases hname
    · cases hname
  · cases hname

theorem oneLine_readCategory (owner : CodeToken) (h : code.Legible) :
    ∀ category ∈ (readCategory owner code).1, OneLine category.spelling := by
  intro category hcategory
  unfold readCategory at hcategory
  split at hcategory
  · cases hcategory
    split
    · next t ht =>
      obtain ⟨hhead, htoken⟩ := Option.filter_eq_some_iff.1 ht
      exact h t (List.mem_of_mem_tail (List.mem_of_head? hhead)) (eq_of_beq htoken)
    · show OneLine ""
      decide
  · cases hcategory

theorem oneLine_readHead (isImplementation : Bool) (extent : Nat) {name : CodeToken}
    (hname : OneLine name.word) (h : code.Legible) :
    (readHead isImplementation extent name code).1.OneLine := by
  have hgeneric := oneLine_readNames h
  have hrest := h.of_suffix (readNames_suffix code)
  have hcategory := oneLine_readCategory name hrest
  have hrest := hrest.of_suffix (readCategory_suffix name _)
  have hsuperclass := oneLine_readSuperclass hrest
  have hprotocols := oneLine_readNames (hrest.of_suffix (readSuperclass_suffix _))
  have hlisted : ∀ isOther : Bool, ∀ protocol ∈ (if isOther then [] else (readNames code).1) ++
      (readNames (readSuperclass (readCategory name (readNames code).2).2).2).1,
        OneLine protocol := by
    intro isOther protocol hprotocol
    rcases List.mem_append.1 hprotocol with hprotocol | hprotocol
    · cases isOther with
      | true => cases hprotocol
      | false => exact hgeneric protocol hprotocol
    · exact hprotocols protocol hprotocol
  unfold readHead
  dsimp only
  split
  · next category hread =>
    exact ⟨hcategory category hread, hsuperclass, hlisted _,
      (fun base hbase => by cases hbase; exact hname), forall_mem_none⟩
  · exact ⟨hname, hsuperclass, hlisted _, forall_mem_none, forall_mem_none⟩

theorem oneLine_readContainer (keyword : CodeToken) (h : code.Legible) :
    AllOneLine (readContainer keyword code).cursors := by
  unfold readContainer
  dsimp only
  split
  · next name rest =>
    split
    · next htoken =>
      have hhead := oneLine_readHead (keyword.word == "@implementation") keyword.start
        (h.head htoken) h.tail
      exact .node ⟨hhead.spelling, hhead.superclass, hhead.protocols, hhead.baseClass, hhead.typeName⟩
        (oneLine_readMembers keyword.start (h.tail.of_suffix (readHead_suffix ..)))
    · exact .nil
  · exact .nil

theorem oneLine_readProtocol (keyword : CodeToken) (h : code.Legible) :
    AllOneLine (readProtocol keyword code).cursors := by
  unfold readProtocol
  dsimp only
  split
  · next name rest =>
    split
    · next htoken =>
      split
      · exact .nil
      · exact .node ⟨h.head htoken, forall_mem_none, oneLine_readNames h.tail, forall_mem_none,
          forall_mem_none⟩
          (oneLine_readMembers keyword.start (h.tail.of_suffix (readNames_suffix rest)))
    · exact .nil
  · exact .nil

/-! ## Sources -/

theorem oneLine_readAtKeyword (keyword : CodeToken) (h : code.Legible) :
    AllOneLine (readAtKeyword keyword code).cursors := by
  unfold readAtKeyword
  split
  · exact oneLine_readContainer keyword h
  · exact oneLine_readContainer keyword h
  · exact oneLine_readProtocol keyword h
  all_goals exact .nil

theorem oneLine_scan (h : code.Legible) : AllOneLine (scan code).cursors := by
  fun_induction scan code with
  | case1 => exact .nil
  | case2 t rest _ ih => exact (oneLine_macroDefinition? t).append (ih h.tail)
  | case3 t rest _ read ih =>
    exact (oneLine_readAtKeyword t h.tail).append
      (ih (h.tail.of_suffix (readAtKeyword_suffix t rest)))
  | case4 t rest _ ih | case5 t rest _ ih => exact ih h.tail
  | case6 t rest _ _ _ _ plain ih =>
    exact (oneLine_readPlain h).append (ih (h.of_suffix (readPlain_suffix (t :: rest))))

/-- Names and types of all declarations of a source stand on one line each. -/
theorem oneLine_scanText (source : List Char) : AllOneLine (scanText source).cursors :=
  oneLine_scan (Code.legible_ofLexemes source)

end Declaration

end DeclDoc
