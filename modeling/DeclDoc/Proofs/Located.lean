import DeclDoc.Declaration.Plain
import DeclDoc.Proofs.Lexemes
import DeclDoc.Proofs.Preorder

/-!
# Where plain declarations are located

`Located P code cursors`: the cursors begin at tokens of the code and are named inside tokens of it,
each before the next one begins, and `P` holds of each root. `Reads P code cursors rest`: what is taken
off the front of the code declares such cursors. Readings are put together by `Reads.append`, and each
reader of plain declarations is one, up to `reads_readPlain`.
-/

set_option autoImplicit false

namespace DeclDoc

theorem CodeToken.word_ne {t : CodeToken} (h : t.text ≠ []) : t.word ≠ "" := by
  rw [word, ← String.ofList_nil, Ne, String.ofList_inj]
  exact h

/-! ## Shapes -/

namespace Cursor

/-- A value of an enumeration. -/
structure IsValue (cursor : Cursor) : Prop where
  kind : cursor.kind = .enumerator
  children : cursor.children = []

/-- Kinds of plain declarations that hold nothing. -/
def isPlainKind : CursorKind → Bool
  | .function | .typedef | .variable | .struct | .union | .classDeclaration | .macroDefinition =>
    true
  | _ => false

/-- A plain declaration: an enumeration of values, or one that holds nothing. -/
def IsPlain (cursor : Cursor) : Prop :=
  (cursor.kind = .enumeration ∧ ∀ value ∈ cursor.children, value.IsValue) ∨
    (isPlainKind cursor.kind = true ∧ cursor.children = [])

theorem IsPlain.leaf {cursor : Cursor} (h : isPlainKind cursor.kind = true)
    (hchildren : cursor.children = []) : cursor.IsPlain := .inr ⟨h, hchildren⟩

/-- A cursor stands in the code, in no file other than it, and has a name if it needs one. Its name
stands where it begins or behind. -/
structure Within (code : Code) (cursor : Cursor) : Prop where
  inside : ∃ t ∈ code,
    t.start ≤ cursor.offset ∧ cursor.offset < t.start + Text.byteLength t.text
  extent : ∃ t ∈ code, t.start = cursor.extent
  begins : cursor.extent ≤ cursor.offset
  named : cursor.spelling = "" → MayBeUnnamed cursor.kind
  unplaced : cursor.location = none

theorem Within.mono {front code : Code} {cursor : Cursor} (h : Within front cursor)
    (hs : ∀ t ∈ front, t ∈ code) : Within code cursor where
  inside := by
    obtain ⟨t, ht, hin⟩ := h.inside
    exact ⟨t, hs t ht, hin⟩
  extent := by
    obtain ⟨t, ht, heq⟩ := h.extent
    exact ⟨t, hs t ht, heq⟩
  begins := h.begins
  named := h.named
  unplaced := h.unplaced

/-- A cursor under the name of a token. -/
theorem Within.ofName {code : Code} {cursor : Cursor} {name first : CodeToken}
    (hcode : code.Ascending) (hname : name ∈ code) (hfirst : first ∈ code)
    (hoffset : cursor.offset = name.start) (hextent : cursor.extent = first.start)
    (hbegins : cursor.extent ≤ name.start)
    (hnamed : cursor.spelling = "" → MayBeUnnamed cursor.kind) (hplace : cursor.location = none) :
    Within code cursor where
  inside := by
    have := Text.byteLength_pos (hcode.nonempty name hname)
    exact ⟨name, hname, by omega, by omega⟩
  extent := ⟨first, hfirst, hextent.symm⟩
  begins := hoffset ▸ hbegins
  named := hnamed
  unplaced := hplace

end Cursor

namespace Declaration

open Cursor (preorderAll MayBeUnnamed Within IsValue IsPlain)

variable {P Q : Cursor → Prop}

/-! ## Located cursors -/

/-- The cursors begin at tokens of the code and are named inside tokens of it, each before the next one
begins, and `P` holds of each root. -/
structure Located (P : Cursor → Prop) (code : Code) (cursors : List Cursor) : Prop where
  ascending : (preorderAll cursors).Pairwise fun a b => a.offset < b.extent
  within : ∀ cursor ∈ preorderAll cursors, Within code cursor
  shape : ∀ cursor ∈ cursors, P cursor

namespace Located

variable {code front back : Code} {xs ys : List Cursor}

theorem nil (P : Cursor → Prop) (code : Code) : Located P code [] := by
  constructor <;> simp

theorem mono (h : Located P front xs) (hs : ∀ t ∈ front, t ∈ code) : Located P code xs where
  ascending := h.ascending
  within cursor hc := (h.within cursor hc).mono hs
  shape := h.shape

theorem imp (h : Located P code xs) (hpq : ∀ cursor, P cursor → Q cursor) : Located Q code xs where
  ascending := h.ascending
  within := h.within
  shape cursor hc := hpq cursor (h.shape cursor hc)

/-- Cursors of the front are named before those of the back begin. -/
theorem offset_lt (hcode : (front ++ back).Ascending) {a b : Cursor} (ha : Within front a)
    (hb : Within back b) : a.offset < b.extent := by
  obtain ⟨t, ht, -, hlt⟩ := ha.inside
  obtain ⟨u, hu, hstart⟩ := hb.extent
  have := (List.pairwise_append.1 hcode.apart).2.2 t ht u hu
  omega

theorem append (hcode : (front ++ back).Ascending) (h : Located P front xs)
    (h' : Located P back ys) : Located P (front ++ back) (xs ++ ys) where
  ascending := by
    rw [Cursor.preorderAll_append]
    exact List.pairwise_append.2 ⟨h.ascending, h'.ascending,
      fun a ha b hb => offset_lt hcode (h.within a ha) (h'.within b hb)⟩
  within cursor hc := by
    rw [Cursor.preorderAll_append] at hc
    rcases List.mem_append.1 hc with hc | hc
    · exact (h.within cursor hc).mono fun t ht => List.mem_append_left _ ht
    · exact (h'.within cursor hc).mono fun t ht => List.mem_append_right _ ht
  shape cursor hc := (List.mem_append.1 hc).elim (h.shape cursor) (h'.shape cursor)

/-- A cursor located in front of what it holds. -/
theorem node (hcode : (front ++ back).Ascending) {cursor : Cursor} (hcursor : Within front cursor)
    (hchildren : Located Q back cursor.children)
    (hshape : (∀ child ∈ cursor.children, Q child) → P cursor) :
    Located P (front ++ back) [cursor] := by
  have hpre : preorderAll [cursor] = cursor :: preorderAll cursor.children := by
    rw [Cursor.preorderAll_cons, List.append_nil]
  constructor
  · rw [hpre]
    exact List.pairwise_cons.2
      ⟨fun b hb => offset_lt hcode hcursor (hchildren.within b hb), hchildren.ascending⟩
  · rw [hpre]
    intro b hb
    rcases List.mem_cons.1 hb with rfl | hb
    · exact hcursor.mono fun t ht => List.mem_append_left _ ht
    · exact (hchildren.within b hb).mono fun t ht => List.mem_append_right _ ht
  · intro b hb
    rw [List.mem_singleton.1 hb]
    exact hshape hchildren.shape

/-- A cursor that holds nothing. -/
theorem leaf {cursor : Cursor} (hcursor : Within code cursor) (hchildren : cursor.children = [])
    (hshape : P cursor) : Located P code [cursor] := by
  have hpre : preorderAll [cursor] = [cursor] := by
    rw [Cursor.preorderAll_cons, hchildren]
    simp
  constructor
  · rw [hpre]
    exact List.pairwise_singleton _ _
  · rw [hpre]
    intro b hb
    rwa [List.mem_singleton.1 hb]
  · intro b hb
    rwa [List.mem_singleton.1 hb]

end Located

/-! ## Readings -/

/-- What is taken off the front of the code to leave `rest` declares the cursors, if its tokens stand in
order. -/
def Reads (P : Cursor → Prop) (code : Code) (cursors : List Cursor) (rest : Code) : Prop :=
  ∃ front, front ++ rest = code ∧ (code.Ascending → Located P front cursors)

namespace Reads

variable {code mid rest front : Code} {xs ys : List Cursor}

/-- What declares nothing may be passed over. -/
theorem skip (h : rest <:+ code) : Reads P code [] rest := by
  obtain ⟨front, hfront⟩ := h
  exact ⟨front, hfront, fun _ => .nil P front⟩

theorem append (h : Reads P code xs mid) (h' : Reads P mid ys rest) :
    Reads P code (xs ++ ys) rest := by
  obtain ⟨front, rfl, hfront⟩ := h
  obtain ⟨more, rfl, hmore⟩ := h'
  refine ⟨front ++ more, List.append_assoc .., ?_⟩
  intro hcode
  have hboth : (front ++ more).Ascending := by
    rw [← List.append_assoc] at hcode
    exact hcode.left
  exact (hfront hcode).append hboth (hmore hcode.right)

theorem behind (h : mid <:+ code) (h' : Reads P mid xs rest) : Reads P code xs rest :=
  (skip h).append h'

theorem before (h : Reads P code xs mid) (h' : rest <:+ mid) : Reads P code xs rest := by
  have := h.append (skip h')
  rwa [List.append_nil] at this

theorem imp (h : Reads P code xs rest) (hpq : ∀ cursor, P cursor → Q cursor) :
    Reads Q code xs rest := by
  obtain ⟨front, hcode, hfront⟩ := h
  exact ⟨front, hcode, fun h => (hfront h).imp hpq⟩

/-- What is located in the front is read off it. -/
theorem ofLocated (h : (front ++ rest).Ascending → Located P front xs) :
    Reads P (front ++ rest) xs rest := ⟨front, rfl, h⟩

/-- A token that is not looked at may stand in between. -/
theorem insert (h : Reads P (front ++ code) xs rest) (t : CodeToken) (hrest : rest <:+ code) :
    Reads P (front ++ t :: code) xs rest := by
  obtain ⟨taken, htaken, hlocated⟩ := h
  obtain ⟨more, rfl⟩ := hrest
  rw [← List.append_assoc] at htaken
  cases List.append_cancel_right htaken
  have hfront : (front ++ more).Sublist (front ++ t :: more) :=
    (List.Sublist.refl front).append (List.sublist_cons_self t more)
  have hcode : (front ++ (more ++ rest)).Sublist (front ++ t :: (more ++ rest)) :=
    (List.Sublist.refl front).append (List.sublist_cons_self t _)
  refine ⟨front ++ t :: more, by simp, ?_⟩
  intro h
  exact (hlocated (h.sublist hcode)).mono fun u hu => hfront.subset hu

/-- A cursor read in front of what it holds. -/
theorem node {cursor : Cursor} (hcursor : (front ++ code).Ascending → Within front cursor)
    (hchildren : Reads Q code cursor.children rest)
    (hshape : (∀ child ∈ cursor.children, Q child) → P cursor) :
    Reads P (front ++ code) [cursor] rest := by
  obtain ⟨held, rfl, hheld⟩ := hchildren
  refine ⟨front ++ held, List.append_assoc .., ?_⟩
  intro hcode
  have hboth : (front ++ held).Ascending := by
    rw [← List.append_assoc] at hcode
    exact hcode.left
  exact .node hboth (hcursor hcode) (hheld hcode.right) hshape

end Reads

/-! ## Enumerations and records -/

theorem reads_enumerators (code : Code) :
    Reads IsValue code (enumerators code).1 (enumerators code).2 := by
  fun_induction enumerators code with
  | case1 => exact .skip List.suffix_rfl
  | case2 t rest => exact .skip (List.suffix_cons t rest)
  | case3 t rest _ more ih =>
    have hmore : Reads IsValue rest more.1 more.2 := ih.behind (afterEnumerator_suffix rest)
    dsimp only
    split
    · exact hmore.behind (List.suffix_cons t rest)
    · have hvalue : Reads IsValue ([t] ++ rest) [enumerator t] rest :=
        .ofLocated fun hcode => .leaf
          (.ofName hcode.left List.mem_cons_self List.mem_cons_self rfl rfl (Nat.le_refl _)
            (fun h => absurd h (CodeToken.word_ne (hcode.nonempty t List.mem_cons_self))) rfl)
          rfl ⟨rfl, rfl⟩
      exact hvalue.append hmore
  | case4 t rest _ _ ih => exact ih.behind (List.suffix_cons t rest)

/-! ### Heads -/

/-- The token that code with a token in it begins with. -/
theorem exists_start {code : Code} {name : CodeToken} (h : name ∈ code) :
    ∃ first ∈ code, code.start = first.start := by
  cases code with
  | nil => cases h
  | cons first rest => exact ⟨first, List.mem_cons_self, rfl⟩

theorem findWord?_append {words : List String} {code after : Code} {keyword : CodeToken}
    (h : findWord? words code = some (keyword, after)) :
    ∃ before, before ++ keyword :: after = code := by
  induction code with
  | nil => cases h
  | cons t rest ih =>
    rw [findWord?] at h
    split at h
    · cases h; exact ⟨[], rfl⟩
    · obtain ⟨before, hbefore⟩ := ih h
      exact ⟨t :: before, by rw [List.cons_append, hbefore]⟩

/-- A keyword stands in its head, what is found after it as well, and the head begins at a token. -/
theorem findWord?_mem {words : List String} {head after : Code} {keyword : CodeToken}
    (h : findWord? words head = some (keyword, after)) :
    keyword ∈ head ∧ (∀ t ∈ after, t ∈ head) ∧ ∃ first ∈ head, head.start = first.start := by
  obtain ⟨before, rfl⟩ := findWord?_append h
  have hkeyword : keyword ∈ before ++ keyword :: after :=
    List.mem_append_right _ List.mem_cons_self
  exact ⟨hkeyword, fun t ht => List.mem_append_right _ (List.mem_cons_of_mem _ ht),
    exists_start hkeyword⟩

namespace EnumHead

theorem ofMacro_spec (keyword : CodeToken) (after : Code) :
    (ofMacro keyword after).keyword = keyword ∧
      ∀ name, (ofMacro keyword after).name = some name → name ∈ after := by
  unfold ofMacro
  split
  · next p args =>
    split
    · split
      · next group hgroup =>
        refine ⟨rfl, ?_⟩
        intro name hname
        have hinside : name ∈ group.inside :=
          List.mem_reverse.1 (List.mem_of_find?_eq_some hname)
        rw [Bracket.close?_append hgroup]
        simp [hinside]
      · exact ⟨rfl, fun _ h => by cases h⟩
    · exact ⟨rfl, fun _ h => by cases h⟩
  · exact ⟨rfl, fun _ h => by cases h⟩

theorem ofKeyword_spec (keyword : CodeToken) (after : Code) :
    (ofKeyword keyword after).keyword = keyword ∧
      ∀ name, (ofKeyword keyword after).name = some name → name ∈ after := by
  unfold ofKeyword
  extract_lets code
  have hsub : code <:+ after := by
    unfold code
    split
    · exact List.tail_suffix after
    · exact List.suffix_rfl
  clear_value code
  cases code with
  | nil => exact ⟨rfl, fun _ h => by cases h⟩
  | cons t rest =>
    dsimp only
    split
    · exact ⟨rfl, fun name hname => by cases hname; exact hsub.subset List.mem_cons_self⟩
    · exact ⟨rfl, fun _ h => by cases h⟩

end EnumHead

/-! ### Bodies -/

/-- The enumeration of a head in front of the code. -/
theorem reads_enumeration {words : List String} {head after : Code} {enumHead : EnumHead}
    (isTypedef : Bool) (code : Code) (hfind : findWord? words head = some (enumHead.keyword, after))
    (hname : ∀ name, enumHead.name = some name → name ∈ after) :
    Reads IsPlain (head ++ code) (readEnumeration enumHead isTypedef head.start code).1
      (readEnumeration enumHead isTypedef head.start code).2 := by
  obtain ⟨hkeyword, hafter, first, hfirst, hstart⟩ := findWord?_mem hfind
  refine .before (.node (fun hcode => ?_) (reads_enumerators code) fun hvalues => .inl ⟨rfl, hvalues⟩)
    (readTail_suffix isTypedef _)
  have hunnamed : MayBeUnnamed (enumeration enumHead isTypedef head.start code).1.kind := .inl rfl
  cases htail : (readTail isTypedef (enumerators code).2).1 with
  | some name =>
    exact .ofName hcode.left hkeyword hfirst (by simp [enumeration, htail]) hstart
      (hcode.left.start_le hkeyword) (fun _ => hunnamed) rfl
  | none =>
    cases hn : enumHead.name with
    | some name =>
      have hmem := hafter name (hname name hn)
      exact .ofName hcode.left hmem hfirst (by simp [enumeration, htail, hn]) hstart
        (hcode.left.start_le hmem) (fun _ => hunnamed) rfl
    | none =>
      exact .ofName hcode.left hkeyword hfirst (by simp [enumeration, htail, hn]) hstart
        (hcode.left.start_le hkeyword) (fun _ => hunnamed) rfl

/-- The tag is one of the tokens after the keyword. -/
theorem mem_of_recordTag? {after : Code} {tag : CodeToken} (h : recordTag? after = some tag) :
    tag ∈ after := by
  fun_induction recordTag? after with
  | case1 => cases h
  | case2 t rest _ _ ih => exact List.mem_cons_of_mem _ (ih h)
  | case3 t rest => cases h; exact List.mem_cons_self
  | case4 t rest _ group hgroup ih =>
    rw [Bracket.close?_append hgroup]
    simp [ih h]
  | case5 => cases h
  | case6 => cases h

/-- The name behind a closing brace is one of the tokens there. -/
theorem mem_of_readTail {isTypedef : Bool} {code : Code} {name : CodeToken}
    (h : (readTail isTypedef code).1 = some name) : name ∈ code := by
  have hfind : ((Declarator.find? (spanHead code).1).map Declarator.name) = some name := by
    unfold readTail at h
    dsimp only at h
    split at h
    · exact h
    · cases h
  obtain ⟨declarator, hd, rfl⟩ := Option.map_eq_some_iff.1 hfind
  have hhead : declarator.name ∈ (spanHead code).1 := by
    rw [← Declarator.find?_append hd]
    exact List.mem_append_right _ List.mem_cons_self
  have happ : (spanHead code).1 ++ (spanHead code).2 = code := spanTop_append ..
  rw [← happ]
  exact List.mem_append_left _ hhead

theorem isPlainKind_recordKind (keyword : CodeToken) :
    Cursor.isPlainKind (recordKind keyword) = true := by
  unfold recordKind
  split
  · rfl
  · split <;> rfl

/-- The record of a head in front of the code. -/
theorem reads_record {words : List String} {head after : Code} {keyword : CodeToken}
    (isTypedef : Bool) (code : Code) (hfind : findWord? words head = some (keyword, after)) :
    Reads IsPlain (head ++ code) (readRecord keyword after isTypedef head.start code).1
      (readRecord keyword after isTypedef head.start code).2 := by
  obtain ⟨hkeyword, hafter, first, hfirst, hstart⟩ := findWord?_mem hfind
  refine .before (.ofLocated fun hcode => ?_)
    (readRecord_suffix keyword after isTypedef head.start code)
  have hinside : ∀ t ∈ afterBraces code, t ∈ head ++ code := fun t ht =>
    List.mem_append_right _ ((Bracket.skip_suffix .brace 1 code).subset ht)
  unfold readRecord record
  dsimp only
  cases htail : (readTail isTypedef (afterBraces code)).1 with
  | some name =>
    have hname := hcode.nonempty name (hinside name (mem_of_readTail htail))
    exact .leaf
      (.ofName hcode.left hkeyword hfirst rfl hstart (hcode.left.start_le hkeyword)
        (fun h => absurd h (CodeToken.word_ne hname)) rfl)
      rfl (.leaf (isPlainKind_recordKind keyword) rfl)
  | none =>
    cases htag : recordTag? after with
    | none => exact .nil IsPlain head
    | some tag =>
      have hmem := hafter tag (mem_of_recordTag? htag)
      have hname := hcode.nonempty tag (List.mem_append_left _ hmem)
      exact .leaf
        (.ofName hcode.left hmem hfirst rfl hstart (hcode.left.start_le hmem)
          (fun h => absurd h (CodeToken.word_ne hname)) rfl)
        rfl (.leaf (isPlainKind_recordKind keyword) rfl)

/-! ## Variables, type names and functions -/

/-- What a declarator in the code declares. -/
theorem located_of_declarator {code : Code} {declarator : Declarator} {cursor : Cursor}
    {first : CodeToken} (hcode : code.Ascending) (hname : declarator.name ∈ code)
    (hfirst : first ∈ code) (hspelling : cursor.spelling = declarator.name.word)
    (hoffset : cursor.offset = declarator.name.start) (hextent : cursor.extent = first.start)
    (hbegins : cursor.extent ≤ declarator.name.start)
    (hplace : cursor.location = none) (hkind : Cursor.isPlainKind cursor.kind = true)
    (hchildren : cursor.children = []) : Located IsPlain code [cursor] := by
  refine .leaf (.ofName hcode hname hfirst hoffset hextent hbegins (fun h => ?_) hplace) hchildren
    (.leaf hkind hchildren)
  rw [hspelling] at h
  exact absurd h (CodeToken.word_ne (hcode.nonempty _ hname))

theorem Declarator.name_mem {code : Code} {declarator : Declarator}
    (h : find? code = some declarator) : declarator.name ∈ code := by
  rw [← find?_append h]
  exact List.mem_append_right _ List.mem_cons_self

theorem withoutInitializer_sublist (code : Code) : (withoutInitializer code).Sublist code :=
  List.takeWhile_sublist _

theorem located_toVariable {code : Code} {declarator : Declarator} (hcode : code.Ascending)
    (h : Declarator.find? (withoutInitializer code) = some declarator) (typeName : String) :
    Located IsPlain code [declarator.toVariable code.start typeName] := by
  have hname : declarator.name ∈ code :=
    (withoutInitializer_sublist code).subset (Declarator.name_mem h)
  obtain ⟨first, hfirst, hstart⟩ := exists_start hname
  exact located_of_declarator hcode hname hfirst rfl rfl hstart (hcode.start_le hname) rfl rfl rfl

/-- The first part of a list and those behind the comma after it. -/
theorem splitCommas_cases (nesting : Nesting) (code : Code) :
    splitCommas nesting code = [code] ∨
      ∃ first comma rest, code = first ++ comma :: rest ∧
        splitCommas nesting code = first :: splitCommas nesting rest := by
  have happ := spanTop_append nesting (· == .comma) 0 code
  rw [splitCommas]
  split
  · next hrest =>
    rw [hrest, List.append_nil] at happ
    exact .inl (by rw [happ])
  · next comma more hmore =>
    rw [hmore] at happ
    exact .inr ⟨_, comma, more, happ.symm, rfl⟩

/-- Where each part of a list declares something, the list does. -/
theorem located_splitCommas {nesting : Nesting} {declare : Code → Option Cursor}
    (hpart : ∀ part, part.Ascending → Located P part (declare part).toList) {code : Code}
    (hcode : code.Ascending) : Located P code ((splitCommas nesting code).filterMap declare) := by
  induction hlen : code.length using Nat.strongRecOn generalizing code with
  | ind n ih =>
  rcases splitCommas_cases nesting code with hsplit | ⟨first, comma, rest, rfl, hsplit⟩
  · rw [hsplit, List.filterMap_cons]
    have := hpart code hcode
    cases hd : declare code <;> simpa [hd] using this
  · have hrest : Located P (comma :: rest) ((splitCommas nesting rest).filterMap declare) := by
      refine .mono (ih rest.length ?_ (hcode.right.sublist (List.sublist_cons_self ..)) rfl)
        fun t ht => List.mem_cons_of_mem _ ht
      rw [← hlen, List.length_append, List.length_cons]
      omega
    have happ := (hpart first hcode.left).append hcode hrest
    rw [hsplit, List.filterMap_cons]
    cases hd : declare first <;> simpa [hd] using happ

theorem located_laterVariable? (shared : String) {part : Code} (hpart : part.Ascending) :
    Located IsPlain part (laterVariable? shared part).toList := by
  unfold laterVariable?
  cases hd : Declarator.find? (withoutInitializer part) with
  | none => exact .nil IsPlain part
  | some declarator => exact located_toVariable hpart hd _

theorem located_variablesOf {head : Code} (hhead : head.Ascending) :
    Located IsPlain head (variablesOf head) := by
  have hfirst : ∀ {first : Code} {declarator : Declarator}, first.Ascending →
      variableDeclarator? (withoutInitializer first) = some declarator →
      Located IsPlain first [declarator.toVariable first.start declarator.typeName] :=
    fun ha hd => located_toVariable ha (Option.filter_eq_some_iff.1 hd).1 _
  unfold variablesOf
  rcases splitCommas_cases .initializers head with hsplit | ⟨first, comma, rest, rfl, hsplit⟩
  · rw [hsplit]
    dsimp only
    split
    · exact .nil IsPlain head
    · next declarator hd => exact hfirst hhead hd
  · rw [hsplit]
    dsimp only
    split
    · exact .nil IsPlain _
    · next declarator hd =>
      have hmore : Located IsPlain (comma :: rest)
          ((splitCommas .initializers rest).filterMap (laterVariable? (sharedType declarator))) :=
        (located_splitCommas (fun part => located_laterVariable? _)
          (hhead.right.sublist (List.sublist_cons_self ..))).mono
            fun t ht => List.mem_cons_of_mem _ ht
      exact (hfirst hhead.left hd).append hhead hmore

theorem located_typedef? {first : CodeToken} {more : Code} (hcode : Code.Ascending (first :: more)) :
    Located IsPlain (first :: more) (typedef? first more).toList := by
  unfold typedef?
  cases hd : Declarator.find? more with
  | none => exact .nil IsPlain _
  | some declarator =>
    have hname := List.mem_cons_of_mem first (Declarator.name_mem hd)
    exact located_of_declarator hcode hname List.mem_cons_self rfl rfl rfl (hcode.start_le hname) rfl
      rfl rfl

/-- A parenthesis opens arguments behind what was passed and what stands before them. -/
theorem splitArguments?_append {reversed code before after : Code}
    (h : splitArguments? reversed code = some (before, after)) :
    ∃ paren, paren.token = .openParen ∧
      before.reverse ++ paren :: after = reversed.reverse ++ code := by
  fun_induction splitArguments? reversed code with
  | case1 => cases h
  | case2 reversed t rest _ _ group hgroup ih =>
    obtain ⟨paren, hopen, hparen⟩ := ih h
    refine ⟨paren, hopen, hparen.trans ?_⟩
    rw [Bracket.close?_append hgroup]
    simp
  | case3 => cases h
  | case4 reversed t rest ht =>
    cases h
    exact ⟨t, ht, rfl⟩
  | case5 reversed t rest _ ih =>
    obtain ⟨paren, hopen, hparen⟩ := ih h
    exact ⟨paren, hopen, hparen.trans (by simp)⟩

theorem splitArguments?_eq {head before after : Code}
    (h : splitArguments? [] head = some (before, after)) :
    ∃ paren, paren.token = .openParen ∧ head = before.reverse ++ paren :: after := by
  obtain ⟨paren, hopen, happend⟩ := splitArguments?_append h
  exact ⟨paren, hopen, by simpa using happend.symm⟩

/-- What stands right before the arguments stands in the head. -/
theorem splitArguments?_name {head reversed after : Code} {name : CodeToken}
    (h : splitArguments? [] head = some (name :: reversed, after)) : name ∈ head := by
  obtain ⟨paren, -, rfl⟩ := splitArguments?_eq h
  simp

theorem located_function? {head : Code} (hhead : head.Ascending) :
    Located IsPlain head (function? head).toList := by
  unfold function?
  split
  · next name reversed after hsplit =>
    have hname : name ∈ head := splitArguments?_name hsplit
    obtain ⟨first, hfirst, hstart⟩ := exists_start hname
    dsimp only
    split
    · cases Bracket.paren.close? 1 after with
      | none => exact .nil IsPlain head
      | some group =>
        refine .leaf (.ofName hhead hname hfirst rfl hstart (hhead.start_le hname) ?_ rfl) rfl
          (.leaf rfl rfl)
        intro h
        exact absurd h (CodeToken.word_ne (hhead.nonempty name hname))
    · exact .nil IsPlain head
  · exact .nil IsPlain head

/-! ## Plain declarations -/

theorem located_terminated {head : Code} (hhead : head.Ascending) :
    Located IsPlain head (terminated head) := by
  unfold terminated
  split
  · exact .nil IsPlain []
  · next first more =>
    split
    · exact located_typedef? hhead
    · split
      · exact .nil IsPlain _
      · have hfunction := located_function? hhead
        split
        · next cursor hc => rwa [hc] at hfunction
        · exact located_variablesOf hhead

theorem located_variableOf? {code : Code} (hcode : code.Ascending) :
    Located IsPlain code (variableOf? (withoutInitializer code)).toList := by
  unfold variableOf?
  cases hd : variableDeclarator? (withoutInitializer code) with
  | none => exact .nil IsPlain code
  | some declarator =>
    have hfind := (Option.filter_eq_some_iff.1 hd).1
    have hsub := withoutInitializer_sublist code
    have hname := Declarator.name_mem hfind
    obtain ⟨first, hfirst, hstart⟩ := exists_start hname
    exact located_of_declarator hcode (hsub.subset hname) (hsub.subset hfirst) rfl rfl hstart
      ((hcode.sublist hsub).start_le hname) rfl rfl rfl

theorem reads_braced (head code : Code) :
    Reads IsPlain (head ++ code) (braced head code).1 (braced head code).2 := by
  have hskip : afterBraces code <:+ code := Bracket.skip_suffix ..
  unfold braced
  dsimp only
  split
  · exact .before (.ofLocated fun hcode => located_variableOf? hcode.left)
      ((afterStatement_suffix _).trans hskip)
  split
  · next keyword after hfind =>
    obtain ⟨hkeyword, hname⟩ := EnumHead.ofMacro_spec keyword after
    exact reads_enumeration _ code (hkeyword ▸ hfind) hname
  split
  · next cursor hfunction =>
    refine .before (.ofLocated ?_) hskip
    intro hcode
    have := located_function? hcode.left
    rwa [hfunction] at this
  split
  · next keyword after hfind =>
    obtain ⟨hkeyword, hname⟩ := EnumHead.ofKeyword_spec keyword after
    exact reads_enumeration _ code (hkeyword ▸ hfind) hname
  split
  · next keyword after hfind => exact reads_record _ code hfind
  · refine .skip ?_
    split
    · exact List.suffix_append ..
    · exact hskip.trans (List.suffix_append ..)

theorem lastRestart?_suffix {head rest : Code} (h : lastRestart? head = some rest) :
    rest <:+ head := by
  induction head generalizing rest with
  | nil => cases h
  | cons t more ih =>
    rw [lastRestart?] at h
    split at h
    · cases h
    · rcases Option.or_eq_some_iff.1 h with h | ⟨-, h⟩
      · exact (ih h).trans (List.suffix_cons t more)
      · split at h
        · cases h; exact List.suffix_rfl
        · cases h

theorem restart_suffix (head : Code) : restart head <:+ head := by
  unfold restart
  cases h : lastRestart? head.tail with
  | none => exact List.suffix_rfl
  | some rest => exact (lastRestart?_suffix h).trans (List.tail_suffix head)

theorem reads_readPlain (code : Code) :
    Reads IsPlain code (readPlain code).1 (readPlain code).2 := by
  have happ : (spanHead code).1 ++ (spanHead code).2 = code := spanTop_append ..
  have hsuffix : (spanHead code).2 <:+ code := ⟨_, happ⟩
  obtain ⟨passed, hpassed⟩ := restart_suffix (spanHead code).1
  unfold readPlain
  dsimp only
  split
  · exact .skip List.nil_suffix
  · next t rest ht =>
    rw [ht] at hsuffix happ
    rw [← hpassed, List.append_assoc] at happ
    have hhead : restart (spanHead code).1 ++ t :: rest <:+ code := ⟨passed, happ⟩
    split
    · exact .behind hhead <| .before (.ofLocated fun hcode => located_terminated hcode.left)
        (List.suffix_cons t rest)
    · exact .behind hhead <| (reads_braced _ rest).insert t (braced_suffix _ rest)
    · refine .skip ?_
      split
      · exact (List.suffix_cons t rest).trans hsuffix
      · exact hsuffix

end Declaration

end DeclDoc
