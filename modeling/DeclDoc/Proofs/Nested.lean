import DeclDoc.Proofs.Phrases

/-!
# Nested brackets

Code is nested when each bracket in it has the one of its form that belongs to it, and nothing is
between the two but nested code (`IsNested`). What counts for a reader of spans are the tokens outside
of all brackets; what stands inside is passed over, whatever it is.

* `skip_paired`: a group is skipped up to its own closing bracket.
* `spanTop_append_of_nested`: a span goes on over nested code with nothing in it to stop at.
* `splitCommas_append`: code is cut at the commas in it, one piece of it behind the other.
* `IsListed.splitCommas_eq`: a list is cut as each of its parts is.
* `afterStatement_append_of_nested`: a statement goes on over nested code.
* `Declarator.findLast?_append_of_nested`: no declared name is searched for inside of brackets.
-/

set_option autoImplicit false

namespace DeclDoc.Declaration

/-- The token is no bracket of any form. -/
def IsNoBracket (token : Token) : Prop :=
  Nesting.initializers.opens token = false ∧ Nesting.initializers.closes token = false

instance (token : Token) : Decidable (IsNoBracket token) := inferInstanceAs (Decidable (_ ∧ _))

/-- Code whose brackets are nested. All tokens outside of brackets are among `outside`, and so are the
opening brackets there. -/
inductive IsNested : (outside : Token → Prop) → Code → Prop where
  | nil {outside : Token → Prop} : IsNested outside []
  | token {outside : Token → Prop} {t : CodeToken} {code : Code} : IsNoBracket t.token →
      outside t.token → IsNested outside code → IsNested outside (t :: code)
  | group {outside : Token → Prop} {bracket : Bracket} {p q : CodeToken} {inside code : Code} :
      p.token = bracket.opening → outside p.token → IsNested (fun _ => True) inside →
      q.token = bracket.closing → IsNested outside code →
      IsNested outside (p :: inside ++ q :: code)

/-- Nested code in which none of these tokens stands outside of brackets. -/
def IsNestedWithout (tokens : List Token) (code : Code) : Prop := IsNested (· ∉ tokens) code

/-- Code in which each bracket of one form has the one that belongs to it. -/
inductive IsPaired (bracket : Bracket) : Code → Prop where
  | nil : IsPaired bracket []
  | token {t : CodeToken} {code : Code} : t.token ≠ bracket.opening → t.token ≠ bracket.closing →
      IsPaired bracket code → IsPaired bracket (t :: code)
  | group {p q : CodeToken} {inside code : Code} : p.token = bracket.opening →
      IsPaired bracket inside → q.token = bracket.closing → IsPaired bracket code →
      IsPaired bracket (p :: inside ++ q :: code)

variable {outside outside' : Token → Prop} {bracket : Bracket} {nesting : Nesting}
  {stop : Token → Bool} {t p q comma : CodeToken} {code front inside rest : Code}

/-- A token with this text, behind `lead`, with no comment above it. -/
def looseToken (token : Token) (text : String) (lead : String := "") : CodeToken :=
  ⟨token, text.toList, 0, lead.toList, false⟩

/-! ## Paired brackets -/

theorem Bracket.closing_ne_opening (bracket bracket' : Bracket) :
    bracket.closing ≠ bracket'.opening := by
  cases bracket <;> cases bracket' <;> decide

theorem Bracket.opening_inj {bracket bracket' : Bracket}
    (h : bracket.opening = bracket'.opening) : bracket = bracket' := by
  cases bracket <;> cases bracket' <;> first | rfl | cases h

theorem Bracket.closing_inj {bracket bracket' : Bracket}
    (h : bracket.closing = bracket'.closing) : bracket = bracket' := by
  cases bracket <;> cases bracket' <;> first | rfl | cases h

theorem IsNoBracket.ne (h : IsNoBracket t.token) (bracket : Bracket) :
    t.token ≠ bracket.opening ∧ t.token ≠ bracket.closing := by
  constructor
  · intro heq
    rw [heq] at h
    cases bracket <;> exact absurd h (by decide)
  · intro heq
    rw [heq] at h
    cases bracket <;> exact absurd h (by decide)

theorem IsPaired.append (h : IsPaired bracket front) (hcode : IsPaired bracket code) :
    IsPaired bracket (front ++ code) := by
  induction h with
  | nil => exact hcode
  | token hopen hclose _ ih => exact .token hopen hclose ih
  | group hp hinside hq _ _ ih =>
    rw [List.append_assoc]
    exact .group hp hinside hq ih

theorem IsPaired.isBalanced (h : IsPaired .paren code) : IsBalanced code := by
  induction h with
  | nil => exact .nil
  | token hopen hclose _ ih => exact .token hopen hclose ih
  | group hp _ hq _ ihInside ih => exact .group hp ihInside hq ih

/-- Paired code is inside of any open group. -/
theorem skip_append_of_paired (h : IsPaired bracket code) (depth : Nat) (rest : Code) :
    bracket.skip (depth + 1) (code ++ rest) = bracket.skip (depth + 1) rest := by
  induction h generalizing depth rest with
  | nil => rfl
  | token hopen hclose _ ih => rw [List.cons_append, Bracket.skip, if_neg hopen, if_neg hclose, ih]
  | @group p q inside code hp _ hq _ ihInside ih =>
    have hne : ¬q.token = bracket.opening := by
      rw [hq]
      exact bracket.closing_ne_opening bracket
    have hdeep : ¬depth + 1 + 1 ≤ 1 := by omega
    rw [List.append_assoc, List.cons_append, Bracket.skip, if_pos hp, ihInside, List.cons_append,
      Bracket.skip, if_neg hne, if_pos hq, if_neg hdeep, Nat.add_sub_cancel, ih]

theorem skip_paired (h : IsPaired bracket inside) (hq : q.token = bracket.closing) (rest : Code) :
    bracket.skip 1 (inside ++ q :: rest) = rest := by
  have hne : ¬q.token = bracket.opening := by
    rw [hq]
    exact bracket.closing_ne_opening bracket
  rw [skip_append_of_paired h 0, Bracket.skip, if_neg hne, if_pos hq, if_pos (Nat.le_refl 1)]

/-! ## Nested brackets -/

namespace IsNested

theorem mono (h : IsNested outside code) (hle : ∀ token, outside token → outside' token) :
    IsNested outside' code := by
  induction h with
  | nil => exact .nil
  | token hplain hout _ ih => exact .token hplain (hle _ hout) (ih hle)
  | group hp hout hinside hq _ _ ih => exact .group hp (hle _ hout) hinside hq (ih hle)

theorem append (h : IsNested outside front) (hcode : IsNested outside code) :
    IsNested outside (front ++ code) := by
  induction h with
  | nil => exact hcode
  | token hplain hout _ ih => exact .token hplain hout (ih hcode)
  | group hp hout hinside hq _ _ ih =>
    rw [List.append_assoc]
    exact .group hp hout hinside hq (ih hcode)

theorem of_flat (h : ∀ u ∈ code, IsNoBracket u.token ∧ outside u.token) :
    IsNested outside code := by
  induction code with
  | nil => exact .nil
  | cons u code ih =>
    obtain ⟨hu, hcode⟩ := List.forall_mem_cons.1 h
    exact .token hu.1 hu.2 (ih hcode)

/-- No closing bracket stands outside of brackets. -/
theorem not_closing (h : IsNested outside code) :
    IsNested (fun token => outside token ∧ ∀ bracket : Bracket, token ≠ bracket.closing) code := by
  induction h with
  | nil => exact .nil
  | token hplain hout _ ih => exact .token hplain ⟨hout, fun form => (hplain.ne form).2⟩ ih
  | @group outside bracket p q inside code hp hout hinside hq _ _ ih =>
    refine .group hp ⟨hout, fun form heq => ?_⟩ hinside hq ih
    exact form.closing_ne_opening bracket (heq.symm.trans hp)

/-- The first token stands outside of brackets. -/
theorem cons_inv (h : IsNested outside (t :: code)) :
    outside t.token ∧ (IsNoBracket t.token → IsNested outside code) := by
  generalize hwhole : t :: code = whole at h
  cases h with
  | nil => cases hwhole
  | token hplain hout hcode =>
    cases hwhole
    exact ⟨hout, fun _ => hcode⟩
  | @group _ bracket p q inside code hp hout _ _ _ =>
    obtain ⟨rfl, -⟩ := List.cons.inj hwhole
    exact ⟨hout, fun hplain => absurd hp (hplain.ne bracket).1⟩

/-- Of nested code the brackets of each form are paired. -/
theorem isPaired (h : IsNested outside code) (bracket : Bracket) : IsPaired bracket code := by
  induction h with
  | nil => exact .nil
  | token hplain _ _ ih => exact .token (hplain.ne bracket).1 (hplain.ne bracket).2 ih
  | @group _ form p q inside code hp _ _ hq _ ihInside ih =>
    by_cases hform : form = bracket
    · subst hform
      exact .group hp ihInside hq ih
    · -- brackets of another form are tokens like any other
      have hopen : p.token ≠ bracket.opening := fun h =>
        hform (Bracket.opening_inj (hp.symm.trans h))
      have hopen' : p.token ≠ bracket.closing := fun h =>
        bracket.closing_ne_opening form (h.symm.trans hp)
      have hclose : q.token ≠ bracket.opening := fun h =>
        form.closing_ne_opening bracket (hq.symm.trans h)
      have hclose' : q.token ≠ bracket.closing := fun h =>
        hform (Bracket.closing_inj (hq.symm.trans h))
      exact .token hopen hopen' (ihInside.append (.token hclose hclose' ih))

theorem isBalanced (h : IsNested outside code) : IsBalanced code := (h.isPaired .paren).isBalanced

/-- Either all tokens outside of brackets satisfy a further condition, or one of them is the first
that does not. -/
theorem split (h : IsNested outside code) (more : Token → Prop) :
    IsNested (fun token => outside token ∧ more token) code ∨
      ∃ front t back, code = front ++ t :: back ∧
        IsNested (fun token => outside token ∧ more token) front ∧ ¬more t.token ∧
        (IsNoBracket t.token ∧ IsNested outside back ∨
          ∃ (bracket : Bracket) (inside : Code) (q : CodeToken) (rest : Code),
            t.token = bracket.opening ∧ back = inside ++ q :: rest ∧
            IsNested (fun _ => True) inside ∧ q.token = bracket.closing ∧
            IsNested outside rest) := by
  induction h with
  | nil => exact .inl .nil
  | @token outside t code hplain hout hcode ih =>
    by_cases hmore : more t.token
    · rcases ih with hall | ⟨front, u, back, rfl, hfront, hu, hback⟩
      · exact .inl (.token hplain ⟨hout, hmore⟩ hall)
      · exact .inr ⟨t :: front, u, back, rfl, .token hplain ⟨hout, hmore⟩ hfront, hu, hback⟩
    · exact .inr ⟨[], t, code, rfl, .nil, hmore, .inl ⟨hplain, hcode⟩⟩
  | @group outside bracket p q inside code hp hout hinside hq hcode _ ih =>
    by_cases hmore : more p.token
    · rcases ih with hall | ⟨front, u, back, rfl, hfront, hu, hback⟩
      · exact .inl (.group hp ⟨hout, hmore⟩ hinside hq hall)
      · refine .inr ⟨p :: inside ++ q :: front, u, back, by simp, ?_, hu, hback⟩
        exact .group hp ⟨hout, hmore⟩ hinside hq hfront
    · exact .inr ⟨[], p, inside ++ q :: code, rfl, .nil, hmore,
        .inr ⟨bracket, inside, q, code, hp, rfl, hinside, hq, hcode⟩⟩

end IsNested

/-! ## Spans -/

/-- Parentheses and square brackets, or all brackets. -/
def Nesting.IsUsual (nesting : Nesting) : Prop := nesting = .arguments ∨ nesting = .initializers

theorem depthAfter_of_isNoBracket (hnesting : nesting.IsUsual) {token : Token}
    (h : IsNoBracket token) (depth : Nat) : nesting.depthAfter depth token = depth := by
  rcases hnesting with rfl | rfl
  · cases token <;> first | rfl | exact absurd h (by decide)
  · cases token <;> first | rfl | exact absurd h (by decide)

/-- The two brackets of one form are counted both, or none of them is. -/
theorem depthAfter_pair (hnesting : nesting.IsUsual) (bracket : Bracket) :
    (∀ depth, nesting.depthAfter depth bracket.opening = depth + 1 ∧
        nesting.depthAfter (depth + 1) bracket.closing = depth) ∨
      nesting.opens bracket.opening = false ∧
        ∀ depth, nesting.depthAfter depth bracket.opening = depth ∧
          nesting.depthAfter depth bracket.closing = depth := by
  rcases hnesting with rfl | rfl
  · cases bracket
    · exact .inl fun _ => ⟨rfl, rfl⟩
    · exact .inl fun _ => ⟨rfl, rfl⟩
    · exact .inr ⟨rfl, fun _ => ⟨rfl, rfl⟩⟩
  · cases bracket <;> exact .inl fun _ => ⟨rfl, rfl⟩

/-- A span stops at none of the tokens, and counts the brackets among them. -/
structure Nesting.PassesOver (nesting : Nesting) (stop : Token → Bool) (outside : Token → Prop) :
    Prop where
  stops : ∀ token, outside token → stop token = false
  counts : ∀ bracket : Bracket, outside bracket.opening → nesting.opens bracket.opening = true

/-- Parentheses and square brackets are counted where no braces are among the tokens. -/
theorem arguments_counts {tokens : List Token} (h : .openBrace ∈ tokens) (bracket : Bracket)
    (hout : bracket.opening ∉ tokens) : Nesting.arguments.opens bracket.opening = true := by
  cases bracket with
  | paren | square => rfl
  | brace => exact absurd h hout

/-- A span goes on over nested code: to its end where it is inside of brackets already, and else where
nothing outside of brackets stops it. -/
theorem spanTop_append_of_nested (hnesting : nesting.IsUsual) (h : IsNested outside code)
    {depth : Nat} (hpass : depth = 0 → nesting.PassesOver stop outside) (rest : Code) :
    spanTop nesting stop depth (code ++ rest) =
      (code ++ (spanTop nesting stop depth rest).1, (spanTop nesting stop depth rest).2) := by
  induction h generalizing depth rest with
  | nil => rfl
  | token hplain hout _ ih =>
    rw [List.cons_append, spanTop_cons (fun hzero => (hpass hzero).stops _ hout)
      (depthAfter_of_isNoBracket hnesting hplain depth), ih hpass]
    rfl
  | @group outside bracket p q inside code hp hout _ hq _ ihInside ih =>
    have hgroup : p :: inside ++ q :: code ++ rest = p :: (inside ++ q :: (code ++ rest)) := by simp
    have hopen (hzero : depth = 0) : stop p.token = false := (hpass hzero).stops _ hout
    rw [hgroup]
    rcases depthAfter_pair hnesting bracket with hcounted | ⟨huncounted, hdepth⟩
    · obtain ⟨hdown, hup⟩ := hcounted depth
      rw [← hp] at hdown
      rw [← hq] at hup
      rw [spanTop_cons hopen hdown, ihInside (fun hzero => absurd hzero (Nat.succ_ne_zero depth)),
        spanTop_cons (fun hzero => absurd hzero (Nat.succ_ne_zero depth)) hup, ih hpass]
      simp
    · -- brackets that are not counted stand inside of others that are
      have hdeep : depth ≠ 0 := fun hzero => by
        have := (hpass hzero).counts bracket (hp ▸ hout)
        rw [huncounted] at this
        cases this
      obtain ⟨hdown, hup⟩ := hdepth depth
      rw [← hp] at hdown
      rw [← hq] at hup
      rw [spanTop_cons hopen hdown, ihInside (fun hzero => absurd hzero hdeep),
        spanTop_cons (fun hzero => absurd hzero hdeep) hup, ih hpass]
      simp

/-! ## Commas -/

theorem splitCommas_of_spanTop_nil (h : spanTop nesting (· == .comma) 0 code = (front, [])) :
    splitCommas nesting code = [front] := by
  unfold splitCommas
  split
  · rw [h]
  · next heq =>
    rw [h] at heq
    cases heq

theorem splitCommas_of_spanTop_cons
    (h : spanTop nesting (· == .comma) 0 code = (front, comma :: rest)) :
    splitCommas nesting code = front :: splitCommas nesting rest := by
  conv_lhs => unfold splitCommas
  split
  · next heq =>
    rw [h] at heq
    cases heq
  · next heq =>
    rw [h] at heq
    cases heq
    rw [h]

/-- Code without a comma outside of brackets is one piece. -/
theorem splitCommas_of_nested (hnesting : nesting.IsUsual) (h : IsNested outside code)
    (hpass : nesting.PassesOver (· == .comma) outside) : splitCommas nesting code = [code] := by
  have hspan := spanTop_append_of_nested hnesting h (fun _ : 0 = 0 => hpass) []
  rw [List.append_nil] at hspan
  exact splitCommas_of_spanTop_nil (by rw [hspan]; simp [spanTop])

/-- Code is cut at the first comma outside of brackets. -/
theorem splitCommas_comma (hnesting : nesting.IsUsual) (h : IsNested outside code)
    (hpass : nesting.PassesOver (· == .comma) outside) (hcomma : comma.token = .comma)
    (rest : Code) :
    splitCommas nesting (code ++ comma :: rest) = code :: splitCommas nesting rest := by
  have hspan : spanTop nesting (· == .comma) 0 (code ++ comma :: rest) = (code, comma :: rest) := by
    rw [spanTop_append_of_nested hnesting h (fun _ => hpass), spanTop_stop (by rw [hcomma]; rfl),
      List.append_nil]
  exact splitCommas_of_spanTop_cons hspan

/-- The pieces of nested code stand in front of those of the code behind the next comma. -/
theorem splitCommas_append (hnesting : nesting.IsUsual) (h : IsNested outside code)
    (hcounts : ∀ bracket : Bracket, outside bracket.opening → nesting.opens bracket.opening = true)
    (hcomma : comma.token = .comma) (rest : Code) :
    splitCommas nesting (code ++ comma :: rest) =
      splitCommas nesting code ++ splitCommas nesting rest := by
  have hpass : nesting.PassesOver (· == .comma) fun token => outside token ∧ token ≠ .comma :=
    ⟨fun token hout => by simpa using hout.2, fun bracket hout => hcounts bracket hout.1⟩
  induction hlength : code.length using Nat.strong_induction_on generalizing code with
  | _ length ih =>
    rcases h.split (· ≠ .comma) with hall | ⟨front, u, back, rfl, hfront, hu, hback⟩
    · rw [splitCommas_comma hnesting hall hpass hcomma, splitCommas_of_nested hnesting hall hpass]
      rfl
    · have hu : u.token = .comma := not_not.1 hu
      have hback : IsNested outside back := by
        rcases hback with ⟨-, hback⟩ | ⟨bracket, inside, q, rest, hopen, -⟩
        · exact hback
        · rw [hu] at hopen
          cases bracket <;> cases hopen
      have hshorter : back.length < length := by
        rw [← hlength, List.length_append, List.length_cons]
        omega
      rw [List.append_assoc, List.cons_append, splitCommas_comma hnesting hfront hpass hu,
        splitCommas_comma hnesting hfront hpass hu, ih _ hshorter hback rfl]
      rfl

/-! ## Lists -/

/-- The code of parts with a comma between each two. -/
inductive IsListed {α : Type} (write : α → Code) : List α → Code → Prop where
  | one (part : α) : IsListed write [part] (write part)
  | more (part : α) {comma : CodeToken} {parts : List α} {code : Code} : comma.token = .comma →
      IsListed write parts code → IsListed write (part :: parts) (write part ++ comma :: code)

namespace IsListed

variable {α : Type} {write : α → Code} {parts : List α}

/-- What holds of the tokens of each part, and of commas, holds of all tokens. -/
theorem forall_token (h : IsListed write parts code) {P : CodeToken → Prop}
    (hparts : ∀ part ∈ parts, ∀ u ∈ write part, P u)
    (hcomma : ∀ u : CodeToken, u.token = .comma → P u) : ∀ u ∈ code, P u := by
  induction h with
  | one part => exact hparts part (by simp)
  | more part htoken _ ih =>
    obtain ⟨hfirst, hmore⟩ := List.forall_mem_cons.1 hparts
    exact List.forall_mem_append.2 ⟨hfirst, List.forall_mem_cons.2 ⟨hcomma _ htoken, ih hmore⟩⟩

/-- The list begins as its first part does. -/
theorem exists_first (h : IsListed write parts code) :
    ∃ first more rest, parts = first :: more ∧ code = write first ++ rest := by
  cases h with
  | one part => exact ⟨part, [], [], rfl, (List.append_nil _).symm⟩
  | more part => exact ⟨part, _, _, rfl, rfl⟩

/-- The list ends as its last part does. -/
theorem exists_last (h : IsListed write parts code) :
    ∃ front, ∃ last ∈ parts, code = front ++ write last := by
  induction h with
  | one part => exact ⟨[], part, by simp, rfl⟩
  | @more part comma parts code _ _ ih =>
    obtain ⟨front, last, hlast, rfl⟩ := ih
    exact ⟨write part ++ comma :: front, last, List.mem_cons_of_mem _ hlast, by simp⟩

/-- A list is nested where each of its parts is. -/
theorem isNested (h : IsListed write parts code) (hcomma : outside .comma)
    (hparts : ∀ part ∈ parts, IsNested outside (write part)) : IsNested outside code := by
  induction h with
  | one part => exact hparts part (by simp)
  | more part htoken _ ih =>
    obtain ⟨hfirst, hmore⟩ := List.forall_mem_cons.1 hparts
    exact hfirst.append (.token (by rw [htoken]; decide) (by rwa [htoken]) (ih hmore))

/-- The pieces of a list are those of its parts, one part behind the other. -/
theorem splitCommas_eq (hnesting : nesting.IsUsual) (h : IsListed write parts code)
    (hparts : ∀ part ∈ parts, IsNested outside (write part))
    (hcounts : ∀ bracket : Bracket, outside bracket.opening →
      nesting.opens bracket.opening = true) :
    splitCommas nesting code = parts.flatMap fun part => splitCommas nesting (write part) := by
  induction h with
  | one part => simp
  | more part hcomma _ ih =>
    obtain ⟨hfirst, hmore⟩ := List.forall_mem_cons.1 hparts
    rw [splitCommas_append hnesting hfirst hcounts hcomma, ih hmore, List.flatMap_cons]

end IsListed

/-! ## Statements -/

/-- A statement goes on over nested code that neither ends nor interrupts it. -/
theorem afterStatement_append_of_nested (h : IsNested outside code)
    (hout : ∀ token, outside token → token ≠ .semicolon ∧ token ≠ .atKeyword ∧ token ≠ .directive)
    (rest : Code) : afterStatement (code ++ rest) = afterStatement rest := by
  induction h generalizing rest with
  | nil => rfl
  | @token outside t code hplain houtside _ ih =>
    obtain ⟨hsemicolon, hkeyword, hdirective⟩ := hout _ houtside
    have hnone : Bracket.ofOpening? t.token = none := by
      cases htoken : t.token <;> first | rfl | exact absurd (htoken ▸ hplain) (by decide)
    have hclose : t.token ≠ .closeBrace := (hplain.ne .brace).2
    rw [List.cons_append, afterStatement]
    split
    · contradiction
    · contradiction
    · contradiction
    · contradiction
    · rw [hnone]
      exact ih hout rest
  | @group outside bracket p q inside code hp _ hinside hq _ _ ih =>
    have hsome : Bracket.ofOpening? p.token = some bracket := by
      rw [hp]
      cases bracket <;> rfl
    have hgroup : p :: inside ++ q :: code ++ rest = p :: (inside ++ q :: (code ++ rest)) := by simp
    rw [hgroup, afterStatement]
    split
    · next heq => rw [heq] at hsome; cases hsome
    · next heq => rw [heq] at hsome; cases hsome
    · next heq => rw [heq] at hsome; cases hsome
    · next heq => rw [heq] at hsome; cases hsome
    · rw [hsome]
      dsimp only
      rw [skip_paired (hinside.isPaired bracket) hq, ih hout]

/-! ## Declared names -/

/-- The search for a name that comes from behind a closing bracket passes nested code over. -/
theorem Declarator.findLast?_append_of_nested (h : IsNested outside code) {depth : Nat}
    (hdepth : 0 < depth) (after reversed : Code) :
    Declarator.findLast? depth after (code.reverse ++ reversed) =
      Declarator.findLast? depth (code ++ after) reversed := by
  -- inside of brackets no token is taken for the name
  have hinner {depth' : Nat} (hdeep : 0 < depth') (p : Prop) : ¬(depth' = 0 ∧ p) :=
    fun hname => hdeep.ne' hname.1
  induction h generalizing depth after reversed with
  | nil => rfl
  | @token outside t code hplain _ _ ih =>
    rw [List.reverse_cons, List.append_assoc, ih hdepth, List.singleton_append,
      Declarator.findLast?, if_neg (hinner hdepth _)]
    cases htoken : t.token <;> first | rfl | exact absurd (htoken ▸ hplain) (by decide)
  | @group outside bracket p q inside code hp _ _ hq _ ihInside ih =>
    have hgroup : (p :: inside ++ q :: code).reverse ++ reversed =
        code.reverse ++ (q :: (inside.reverse ++ p :: reversed)) := by simp
    have hafter : p :: inside ++ q :: code ++ after = p :: (inside ++ q :: (code ++ after)) := by
      simp
    rw [hgroup, hafter, ih hdepth, Declarator.findLast?, if_neg (hinner hdepth _), hq]
    cases bracket with
    | paren | square =>
      dsimp only [Bracket.closing]
      rw [ihInside (Nat.succ_pos depth), Declarator.findLast?, if_neg (hinner (Nat.succ_pos depth) _),
        hp]
      rfl
    | brace =>
      dsimp only [Bracket.closing]
      rw [ihInside hdepth, Declarator.findLast?, if_neg (hinner hdepth _), hp]
      rfl

end DeclDoc.Declaration
