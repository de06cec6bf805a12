import DeclDoc.Proofs.Relabel

/-!
# What readers do not look at

A `Recast` changes what stands before code tokens and the marks that comments leave on them, nothing
else. The readers of declarations find the same tokens in recast code, and what they read there
differs in its details only (`Cursor.bare`).
-/

set_option autoImplicit false

namespace DeclDoc

/-- A change of what stands before code tokens and of their marks. -/
structure Recast extends Relabel where
  start : ∀ t, (apply t).start = t.start

attribute [simp] Recast.start

variable {e : Recast}

@[simp] theorem Code.start_map (code : Code) : start (code.map e.apply) = code.start := by
  cases code <;> simp [start]

/-! ## Cursors without their details -/

namespace Cursor

mutual

/-- The cursor without what is known of it beside its kind, name and place. -/
def bare : Cursor → Cursor
  | ⟨kind, spelling, offset, extent, location, _, children⟩ =>
    ⟨kind, spelling, offset, extent, location, {}, bares children⟩

def bares : List Cursor → List Cursor
  | [] => []
  | cursor :: rest => cursor.bare :: bares rest

end

@[simp] theorem bares_nil : bares [] = [] := by rw [bares]

@[simp] theorem bares_cons (cursor : Cursor) (rest : List Cursor) :
    bares (cursor :: rest) = cursor.bare :: bares rest := by
  rw [bares]

@[simp] theorem bares_append (xs ys : List Cursor) : bares (xs ++ ys) = bares xs ++ bares ys := by
  induction xs with
  | nil => simp
  | cons x xs ih => simp [ih]

theorem bares_toList (found : Option Cursor) : bares found.toList = (found.map bare).toList := by
  cases found <;> simp

/-- A cursor is known by its kind, its name, its place and what it holds. -/
theorem bare_eq_iff {a b : Cursor} :
    a.bare = b.bare ↔ a.kind = b.kind ∧ a.spelling = b.spelling ∧ a.offset = b.offset ∧
      a.extent = b.extent ∧ a.location = b.location ∧ bares a.children = bares b.children := by
  cases a
  cases b
  simp [bare]

end Cursor

namespace Declaration

open Cursor (bares)

/-! ## Variables and functions -/

theorem bare_toVariable (declarator : Declarator) (extent : Nat) (typeName other : String) :
    ((declarator.relabel e.toRelabel).toVariable extent typeName).bare =
      (declarator.toVariable extent other).bare := by
  simp [Cursor.bare_eq_iff, Declarator.toVariable, Declarator.relabel]

theorem bare_variableOf? (code : Code) :
    (variableOf? (code.map e.apply)).map Cursor.bare = (variableOf? code).map Cursor.bare := by
  rw [variableOf?, variableOf?, variableDeclarator?_map, Code.start_map]
  cases variableDeclarator? code with
  | none => rfl
  | some declarator => simpa using bare_toVariable declarator _ _ _

theorem bare_laterVariable? (shared other : String) (part : Code) :
    (laterVariable? shared (part.map e.apply)).map Cursor.bare =
      (laterVariable? other part).map Cursor.bare := by
  rw [laterVariable?, laterVariable?, withoutInitializer_map, Declarator.find?_map, Code.start_map]
  cases Declarator.find? (withoutInitializer part) with
  | none => rfl
  | some declarator => simpa using bare_toVariable declarator _ _ _

/-- The variables after the first one. -/
theorem bares_laterVariables (shared other : String) (parts : List Code) :
    bares ((parts.map (List.map e.apply)).filterMap (laterVariable? shared)) =
      bares (parts.filterMap (laterVariable? other)) := by
  induction parts with
  | nil => rfl
  | cons part parts ih =>
    have hcons : ∀ (text : String) (p : Code) (ps : List Code),
        (p :: ps).filterMap (laterVariable? text) =
          (laterVariable? text p).toList ++ ps.filterMap (laterVariable? text) := by
      intro text p ps
      rw [List.filterMap_cons]
      cases laterVariable? text p <;> rfl
    rw [List.map_cons, hcons, hcons, Cursor.bares_append, Cursor.bares_append, Cursor.bares_toList,
      Cursor.bares_toList, bare_laterVariable? shared other part, ih]

theorem bares_variablesOf (head : Code) :
    bares (variablesOf (head.map e.apply)) = bares (variablesOf head) := by
  rw [variablesOf, variablesOf, splitCommas_map]
  cases splitCommas .initializers head with
  | nil => rfl
  | cons first more =>
    simp only [List.map_cons, withoutInitializer_map, variableDeclarator?_map, Code.start_map]
    cases variableDeclarator? (withoutInitializer first) with
    | none => rfl
    | some declarator =>
      simp only [Option.map_some, Cursor.bares_cons]
      rw [bare_toVariable declarator _ _ declarator.typeName,
        bares_laterVariables _ (sharedType declarator)]

theorem bare_typedef? (first : CodeToken) (more : Code) :
    (typedef? (e.apply first) (more.map e.apply)).map Cursor.bare =
      (typedef? first more).map Cursor.bare := by
  rw [typedef?, typedef?, Declarator.find?_map]
  cases Declarator.find? more with
  | none => rfl
  | some declarator => simp [Cursor.bare_eq_iff, Declarator.relabel]

theorem bare_function? (head : Code) :
    (function? (head.map e.apply)).map Cursor.bare = (function? head).map Cursor.bare := by
  have hsplit := splitArguments?_map (e := e.toRelabel) [] head
  rw [List.map_nil] at hsplit
  rw [function?, function?, hsplit]
  match splitArguments? [] head with
  | none => rfl
  | some ([], after) => rfl
  | some (name :: reversed, after) =>
    simp only [Option.map_some, List.map_cons, ← List.map_reverse, dropStorage_map, Relabel.token,
      Relabel.isReserved, isPointerMark_head?_map, List.isEmpty_map, Bracket.close?_map,
      Code.start_map, Relabel.word, Recast.start]
    split
    · cases Bracket.paren.close? 1 after with
      | none => rfl
      | some group => simp [Cursor.bare_eq_iff]
    · rfl

/-! ## Enumerations and records -/

@[simp] theorem enumerators_map (code : Code) :
    enumerators (code.map e.apply) = ((enumerators code).1, (enumerators code).2.map e.apply) := by
  fun_induction enumerators code with
  | case1 => simp [enumerators]
  | case2 t rest ht => simp [enumerators, ht]
  | case3 t rest ht more ih =>
    have henumerator : enumerator (e.apply t) = enumerator t := by simp [enumerator]
    rw [List.map_cons, enumerators]
    simp only [Relabel.token, ht, afterEnumerator_map, ih, Relabel.isAttribute, henumerator]
    rfl
  | case4 t rest hclose hident ih =>
    rw [List.map_cons, enumerators]
    simpa using ih

/-- Heads of an enumeration that differ in the text of its type only. -/
def EnumHead.IsRecast (e : Recast) (head other : EnumHead) : Prop :=
  other.keyword = e.apply head.keyword ∧ other.name = head.name.map e.apply

theorem EnumHead.isRecast_ofMacro (keyword : CodeToken) (after : Code) :
    (ofMacro keyword after).IsRecast e (ofMacro (e.apply keyword) (after.map e.apply)) := by
  cases after with
  | nil => exact ⟨rfl, rfl⟩
  | cons p args =>
    simp only [List.map_cons, ofMacro, Relabel.token, Bracket.close?_map]
    split
    · cases Bracket.paren.close? 1 args with
      | none => exact ⟨rfl, rfl⟩
      | some group =>
        refine ⟨rfl, ?_⟩
        simp only [Option.map_some, Group.relabel, ← List.map_reverse, List.find?_map,
          Function.comp_def, Relabel.token]
    · exact ⟨rfl, rfl⟩

theorem EnumHead.isRecast_ofKeyword (keyword : CodeToken) (after : Code) :
    (ofKeyword keyword after).IsRecast e (ofKeyword (e.apply keyword) (after.map e.apply)) := by
  rw [ofKeyword, ofKeyword, dropClass_map]
  cases if after.head?.any (·.isWordOf ["class", "struct"]) then after.tail else after with
  | nil => exact ⟨rfl, rfl⟩
  | cons t rest =>
    simp only [List.map_cons, Relabel.token]
    split <;> exact ⟨rfl, rfl⟩

/-- An enumeration behind recast code. -/
theorem enumeration_recast {head other : EnumHead} (h : head.IsRecast e other) (isTypedef : Bool)
    (extent : Nat) (code : Code) :
    (enumeration other isTypedef extent (code.map e.apply)).1.bare =
        (enumeration head isTypedef extent code).1.bare ∧
      (enumeration other isTypedef extent (code.map e.apply)).2 =
        (enumeration head isTypedef extent code).2.map e.apply := by
  obtain ⟨hkeyword, hname⟩ := h
  simp only [enumeration, enumerators_map, readTail_map, hname, hkeyword, and_true]
  rw [Cursor.bare_eq_iff]
  cases (readTail isTypedef (enumerators code).2).1 with
  | none => cases head.name <;> simp
  | some name => simp

@[simp] theorem record_map (keyword : CodeToken) (after : Code) (isTypedef : Bool) (extent : Nat)
    (code : Code) :
    record (e.apply keyword) (after.map e.apply) isTypedef extent (code.map e.apply) =
      ((record keyword after isTypedef extent code).1,
        (record keyword after isTypedef extent code).2.map e.apply) := by
  simp only [record, afterBraces_map, readTail_map, recordTag?_map, recordKind_apply, Recast.start]
  cases (readTail isTypedef (afterBraces code)).1 with
  | none => cases recordTag? after <;> simp
  | some name => simp

end Declaration

end DeclDoc
