import DeclDoc.Cursor
import DeclDoc.Declaration.Bracket
import DeclDoc.Declaration.Word

/-! # Declarators

A declarator is code around the name it declares. Its type is what stands before the name, without
storage and attribute words; where the name is wrapped in parentheses, also what stands after it.
`find?_append`: a declarator taken apart is the code it was found in.
-/

set_option autoImplicit false

namespace DeclDoc.Declaration

/-- The code from the first token that belongs to the type: storage words and attribute words with
their arguments are dropped. -/
def dropStorage : Code → Code
  | [] => []
  | t :: rest =>
    if isStorage t then dropStorage rest
    else if isAttribute t then
      match rest with
      | [] => []
      | p :: args =>
        if p.token = .openParen then
          match _group : Bracket.paren.close? 1 args with
          | some group => dropStorage group.after
          | none => p :: args
        else dropStorage (p :: args)
    else t :: rest
termination_by code => code.length
decreasing_by
  · simp
  · have := Bracket.length_after_lt _group
    simp only [List.length_cons]
    omega
  · simp

theorem dropStorage_suffix (code : Code) : dropStorage code <:+ code := by
  fun_induction dropStorage code with
  | case1 => exact List.suffix_rfl
  | case2 t rest _ ih => exact ih.trans (List.suffix_cons t rest)
  | case3 => exact List.nil_suffix
  | case4 t _ _ p args _ group hclose ih =>
    have hafter : group.after <:+ args :=
      ⟨group.inside ++ [group.close], by simpa using (Bracket.close?_append hclose).symm⟩
    exact ((ih.trans hafter).trans (List.suffix_cons p args)).trans (List.suffix_cons t _)
  | case5 t => exact List.suffix_cons t _
  | case6 t _ _ p args _ ih => exact ih.trans (List.suffix_cons t _)
  | case7 => exact List.suffix_rfl

structure Declarator where
  before : Code
  name : CodeToken
  after : Code
deriving DecidableEq, Repr

namespace Declarator

/-- The declarator with one more token in front. -/
def prepend (t : CodeToken) (declarator : Declarator) : Declarator :=
  { declarator with before := t :: declarator.before }

/-- The name in the first `(*name` or `(^name`. -/
def findWrapped? : Code → Option Declarator
  | p :: mark :: name :: rest =>
    if p.token = .openParen ∧ isPointerMark mark ∧ name.token = .ident then
      some ⟨[p, mark], name, rest⟩
    else (findWrapped? (mark :: name :: rest)).map (prepend p)
  | _ => none

/-- An identifier that can be a declared name where `after` follows it: neither a word with another
meaning nor one with arguments. -/
def isName (t : CodeToken) (after : Code) : Bool :=
  t.token == .ident && !isAttribute t && !isReserved t && !after.nextIs .openParen

/-- The last name at depth zero, searched backwards through `reversed` with `after` behind it. -/
def findLast? (depth : Nat) (after : Code) : (reversed : Code) → Option Declarator
  | [] => none
  | t :: more =>
    if depth = 0 ∧ isName t after then some ⟨more.reverse, t, after⟩
    else
      let depth :=
        match t.token with
        | .closeParen | .closeBracket => depth + 1
        | .openParen | .openBracket => depth - 1
        | _ => depth
      findLast? depth (t :: after) more

/-- The declarator that a piece of code is. -/
def find? (code : Code) : Option Declarator :=
  (findWrapped? code).or (findLast? 0 [] code.reverse)

theorem findWrapped?_append {code : Code} {declarator : Declarator}
    (h : findWrapped? code = some declarator) :
    declarator.before ++ declarator.name :: declarator.after = code := by
  fun_induction findWrapped? code generalizing declarator with
  | case1 => cases h; simp
  | case2 p mark name rest hn ih =>
    obtain ⟨d, hd, rfl⟩ := Option.map_eq_some_iff.1 h
    simp [prepend, ih hd]
  | case3 => simp at h

theorem findLast?_append {depth : Nat} {after reversed : Code} {declarator : Declarator}
    (h : findLast? depth after reversed = some declarator) :
    declarator.before ++ declarator.name :: declarator.after = reversed.reverse ++ after := by
  induction reversed generalizing depth after with
  | nil => simp [findLast?] at h
  | cons t more ih =>
    simp only [findLast?] at h
    split at h
    · cases h; simp
    · simpa using ih h

theorem find?_append {code : Code} {declarator : Declarator} (h : find? code = some declarator) :
    declarator.before ++ declarator.name :: declarator.after = code := by
  rw [find?, Option.or_eq_some_iff] at h
  rcases h with h | ⟨_, h⟩
  · exact findWrapped?_append h
  · simpa using findLast?_append h

/-- The name stands right behind `(*` or `(^`. -/
def isWrapped (declarator : Declarator) : Bool :=
  match declarator.before.reverse with
  | mark :: p :: _ => isPointerMark mark && p.token == .openParen
  | _ => false

/-- The part of `before` that belongs to the type. -/
def typeTokens (declarator : Declarator) : Code := dropStorage declarator.before

/-- The declared type on one line. -/
def typeName (declarator : Declarator) : String :=
  let tokens := declarator.typeTokens
  let front := if tokens.isEmpty then [] else tokens.text ++ declarator.name.lead
  let back := if declarator.isWrapped then declarator.after.trail else []
  String.ofList (Text.tidy (front ++ back))

end Declarator

end DeclDoc.Declaration
