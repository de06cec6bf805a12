import DeclDoc.Proofs.Positional.Group

/-!
# Declarators by position

The name that a range declares is looked for forwards behind `(*` and `(^` and then backwards, and
its type is cut out of the source. A range may be empty, and the token behind it is looked at where
an attribute word stands last. `skipStorage_pos`, `declaratorName_pos` and `typeText_pos`: they come
to the type tokens, the name and the type that the range has as a declarator.
-/

set_option autoImplicit false

namespace DeclDoc

open Declaration

namespace Positional.Scanner

variable (s : Scanner)

/-! ## Operations -/

/-- There is an attribute word at a position. -/
def isAttributeAt (i : Nat) : Except Crash Bool :=
  if s.token? i = some .ident then do
    let text ← s.text i
    pure (isAttributeText text)
  else pure false

/-- Goes on behind an attribute word, and behind its arguments if they close below `limit`. -/
def argumentsTurn (limit i : Nat) : Except Crash (Turn Unit Nat) :=
  if s.token? i = some .openParen then do
    match ← s.matchingClose i limit with
    | some close => pure (.again () (close + 1))
    | none => pure (.leave i)
  else pure (.again () i)

/-- Goes on behind a storage word or an attribute word with its arguments. -/
def storageTurn (limit : Nat) (t : Tok) (i : Nat) : Except Crash (Turn Unit Nat) :=
  if t.token = .ident then do
    let text ← s.text i
    if storageWords.contains (String.ofList text) then pure (.again () (i + 1))
    else if isAttributeText text then s.argumentsTurn limit (i + 1)
    else pure (.leave i)
  else .ok (.leave i)

/-- Past storage words and attribute words with their arguments. -/
def skipStorage (start limit : Nat) : Except Crash Nat :=
  s.each limit (fun _ i => i) (fun _ t i => s.storageTurn limit t i) () start

/-- The name in the first `(*name` or `(^name` of a range. -/
def wrappedName (start stop : Nat) : Except Crash (Option Nat) :=
  s.each (stop - 2) (fun _ _ => none)
    (fun _ t i =>
      if t.token = .openParen then do
        let mark ← s.tok (i + 1)
        if mark.token = .star ∨ mark.token = .caret then do
          let name ← s.tok (i + 2)
          pure (if name.token = .ident then .leave (some (i + 2)) else .again () (i + 1))
        else pure (.again () (i + 1))
      else .ok (.again () (i + 1)))
    () start

/-- An identifier of a range that can be its name: neither a word with another meaning nor one with
arguments. -/
def isNameAt (stop i : Nat) : Except Crash Bool := do
  let text ← s.text i
  let hasGroup ← s.isTokenBelow stop (i + 1) .openParen
  pure (!isAttributeText text && !hasGroup && !reservedWords.contains (String.ofList text))

/-- Looks for a name outside of brackets, going backwards. -/
def nameBackTurn (stop depth : Nat) (t : Tok) (i : Nat) : Except Crash (Nat ⊕ Option Nat) :=
  match t.token with
  | .closeParen | .closeBracket => .ok (.inl (depth + 1))
  | .openParen | .openBracket => .ok (.inl (depth - 1))
  | .ident =>
    if depth = 0 then do
      pure (if ← s.isNameAt stop i then .inr (some i) else .inl depth)
    else .ok (.inl depth)
  | _ => .ok (.inl depth)

/-- The last name outside of brackets in a range. -/
def lastName (start stop : Nat) : Except Crash (Option Nat) :=
  s.eachBack start (fun _ _ => none) (s.nameBackTurn stop) 0 stop

/-- The name that a range declares. -/
def declaratorName (start stop : Nat) : Except Crash (Option Nat) := do
  match ← s.wrappedName start stop with
  | some name => pure (some name)
  | none => s.lastName start stop

/-- The text from one token up to the start of another. -/
def textUpTo (first name : Nat) : Except Crash (List Char) :=
  if first < name then do
    let begun ← s.tok first
    let named ← s.tok name
    slice begun.start named.start s.source
  else pure []

/-- The name stands right behind `(*` or `(^` in a range. -/
def isWrapped (start name : Nat) : Except Crash Bool :=
  if start + 2 ≤ name then do
    let mark ← s.tok (← minus name 1)
    if mark.token = .star ∨ mark.token = .caret then do
      let paren ← s.tok (← minus name 2)
      pure (paren.token == .openParen)
    else pure false
  else pure false

/-- The text behind a token up to the end of a range. -/
def textBehind (name stop : Nat) : Except Crash (List Char) :=
  if name + 1 < stop then do
    let named ← s.tok name
    let last ← s.tok (← minus stop 1)
    slice named.stop last.stop s.source
  else pure []

/-- The type that a range declares its name with. -/
def typeText (start stop name : Nat) : Except Crash String := do
  let first ← s.skipStorage start name
  let front ← s.textUpTo first name
  let back ← if ← s.isWrapped start name then s.textBehind name stop else pure []
  pure (String.ofList (Text.tidy (front ++ back)))

/-! ## Laws -/

/-- Behind an attribute word at the end of the range: the arguments would stand behind the range, and
nothing closes there. -/
theorem argumentsTurn_limit (limit : Nat) :
    s.argumentsTurn limit limit = .ok (.leave limit) ∨
      s.argumentsTurn limit limit = .ok (.again () limit) := by
  rw [argumentsTurn, matchingClose_limit (Nat.le_refl _)]
  by_cases hp : s.token? limit = some .openParen
  · exact .inl (if_pos hp)
  · exact .inr (if_neg hp)

namespace Has

variable {s} {full : Code} (h : s.Has full) {t : CodeToken} {code rest : Code}

include h

theorem isAttributeAt_pos (hcode : code <:+ full) :
    s.isAttributeAt (s.pos code) = .ok (code.head?.any isAttribute) := by
  unfold isAttributeAt
  rw [h.token?_pos hcode]
  cases code with
  | nil => rfl
  | cons t rest =>
    rw [h.text_pos hcode]
    by_cases ht : t.token = .ident <;> simp [Code.next?, isAttribute, ht]

theorem storageTurn_pos {limit : Nat} (hcode : t :: code <:+ full) :
    s.storageTurn limit (.ofCode t) (s.pos (t :: code)) =
      if isStorage t then .ok (.again () (s.pos code))
      else if isAttribute t then s.argumentsTurn limit (s.pos code)
      else .ok (.leave (s.pos (t :: code))) := by
  by_cases ht : t.token = .ident
  · have hstorage : isStorage t = storageWords.contains t.word := by
      simp [isStorage, CodeToken.isWordOf, ht]
    have hattribute : isAttribute t = isAttributeText t.text := by simp [isAttribute, ht]
    rw [storageTurn, Tok.token_ofCode, if_pos ht, h.text_pos hcode, ok_bind, h.pos_cons hcode,
      hstorage, hattribute]
    rfl
  · have hstorage : ¬ isStorage t := by simp [isStorage, CodeToken.isWordOf, ht]
    have hattribute : ¬ isAttribute t := by simp [isAttribute, ht]
    rw [storageTurn, Tok.token_ofCode, if_neg ht, if_neg hstorage, if_neg hattribute]

theorem argumentsTurn_pos {p : CodeToken} {args : Code} (hcode : p :: (args ++ rest) <:+ full) :
    s.argumentsTurn (s.pos rest) (s.pos (p :: (args ++ rest))) =
      .ok (if p.token = .openParen then
        match Bracket.paren.close? 1 args with
        | some group => .again () (s.pos (group.after ++ rest))
        | none => .leave (s.pos (p :: (args ++ rest)))
      else .again () (s.pos (p :: (args ++ rest)))) := by
  have hnext : Code.next? (p :: (args ++ rest)) = some p.token := rfl
  rw [argumentsTurn, h.token?_pos hcode, hnext]
  by_cases hp : p.token = .openParen
  · rw [if_pos (congrArg some hp), if_pos hp, h.matchingClose_pos .paren hcode hp]
    cases hclose : Bracket.paren.close? 1 args with
    | none => rfl
    | some group =>
      have hclosed := (Bracket.close_suffix hclose rest).trans ((List.suffix_cons p _).trans hcode)
      simp [h.pos_cons hclosed]
  · rw [if_neg (by simpa using hp), if_neg hp]
    rfl

theorem skipStorage_pos {mid : Code} (hmid : mid ++ rest <:+ full) :
    s.skipStorage (s.pos (mid ++ rest)) (s.pos rest) = .ok (s.pos (dropStorage mid ++ rest)) := by
  unfold skipStorage
  fun_induction dropStorage mid with
  | case1 => exact each_limit (Nat.le_refl _)
  | case2 t mid hstorage ih =>
    rw [List.cons_append] at hmid ⊢
    refine (h.each_again () hmid (h.pos_lt_append hmid) List.suffix_rfl ?_).trans
      (ih ((List.suffix_cons t _).trans hmid))
    rw [h.storageTurn_pos hmid, if_pos hstorage]
  | case3 t hstorage hattr =>
    have hlimit : s.pos (t :: rest) < s.pos rest := h.pos_lt hmid List.suffix_rfl
    have hturn : s.storageTurn (s.pos rest) (.ofCode t) (s.pos (t :: rest)) = _ :=
      h.storageTurn_pos hmid
    rw [if_neg hstorage, if_pos hattr] at hturn
    rcases s.argumentsTurn_limit (s.pos rest) with hend | hend
    · exact h.each_leave hmid hlimit (hturn.trans hend)
    · exact (h.each_again () hmid hlimit List.suffix_rfl (hturn.trans hend)).trans
        (each_limit (Nat.le_refl _))
  | case4 t hstorage hattr p args hp group hclose ih =>
    rw [List.cons_append] at hmid ⊢
    have hmore : p :: (args ++ rest) <:+ full := (List.suffix_cons t _).trans hmid
    have hafter := ((List.suffix_cons group.close _).trans (Bracket.close_suffix hclose rest)).trans
      (List.suffix_cons p _)
    refine (h.each_again () hmid (h.pos_lt_append hmid) hafter ?_).trans (ih (hafter.trans hmore))
    rw [h.storageTurn_pos hmid, if_neg hstorage, if_pos hattr]
    refine (h.argumentsTurn_pos hmore).trans ?_
    rw [if_pos hp, hclose]
  | case5 t hstorage hattr p args hp hclose =>
    rw [List.cons_append] at hmid ⊢
    have hmore : p :: (args ++ rest) <:+ full := (List.suffix_cons t _).trans hmid
    refine h.each_leave hmid (h.pos_lt_append hmid) ?_
    rw [h.storageTurn_pos hmid, if_neg hstorage, if_pos hattr]
    refine (h.argumentsTurn_pos hmore).trans ?_
    rw [if_pos hp, hclose]
    rfl
  | case6 t hstorage hattr p args hp ih =>
    rw [List.cons_append] at hmid ⊢
    have hmore : p :: (args ++ rest) <:+ full := (List.suffix_cons t _).trans hmid
    refine (h.each_again () hmid (h.pos_lt_append hmid) List.suffix_rfl ?_).trans (ih hmore)
    rw [h.storageTurn_pos hmid, if_neg hstorage, if_pos hattr]
    refine (h.argumentsTurn_pos hmore).trans ?_
    rw [if_neg hp]
    rfl
  | case7 t mid hstorage hattr =>
    rw [List.cons_append] at hmid ⊢
    refine h.each_leave hmid (h.pos_lt_append hmid) ?_
    rw [h.storageTurn_pos hmid, if_neg hstorage, if_neg hattr]

theorem wrappedName_pos {mid : Code} (hmid : mid ++ rest <:+ full) :
    s.wrappedName (s.pos (mid ++ rest)) (s.pos rest) =
      .ok ((Declarator.findWrapped? mid).map fun d => s.pos (d.name :: (d.after ++ rest))) := by
  unfold wrappedName
  fun_induction Declarator.findWrapped? mid with
  | case1 p mark name mid hmatch =>
    simp only [List.cons_append] at hmid ⊢
    have hmark := (List.suffix_cons p _).trans hmid
    have hname := (List.suffix_cons mark _).trans hmark
    have hpos := h.pos_cons hmid
    have hpos' := h.pos_cons hmark
    have hlt := h.pos_lt_append hname
    refine h.each_leave hmid (by omega) ?_
    have htwo : s.pos (p :: mark :: name :: (mid ++ rest)) + 2 = s.pos (name :: (mid ++ rest)) := by
      omega
    have hstar := hmatch.2.1
    simp only [isPointerMark, Bool.or_eq_true, beq_iff_eq] at hstar
    simp [hmatch.1, hpos, htwo, h.tok_pos hmark, h.tok_pos hname, hstar, hmatch.2.2]
  | case2 p mark name mid hmatch ih =>
    simp only [List.cons_append] at hmid ih ⊢
    have hmark := (List.suffix_cons p _).trans hmid
    have hname := (List.suffix_cons mark _).trans hmark
    have hpos := h.pos_cons hmid
    have hpos' := h.pos_cons hmark
    have hlt := h.pos_lt_append hname
    refine (h.each_again () hmid (by omega) List.suffix_rfl ?_).trans ((ih hmark).trans ?_)
    · have htwo : s.pos (p :: mark :: name :: (mid ++ rest)) + 2 = s.pos (name :: (mid ++ rest)) := by
        omega
      simp only [isPointerMark, Bool.or_eq_true, beq_iff_eq] at hmatch
      by_cases hp : p.token = .openParen
      · by_cases hstar : mark.token = .star ∨ mark.token = .caret
        · have hident : name.token ≠ .ident := fun hident => hmatch ⟨hp, hstar, hident⟩
          simp [hp, hpos, htwo, h.tok_pos hmark, h.tok_pos hname, hident]
        · simp [hp, hpos, h.tok_pos hmark, hstar]
      · simp [hp, hpos]
    · rw [Option.map_map]
      rfl
  | case3 mid hshort =>
    have hlength : mid.length ≤ 2 := by
      rcases mid with _ | ⟨p, _ | ⟨mark, _ | ⟨name, mid⟩⟩⟩
      · exact Nat.zero_le _
      · exact Nat.le_succ _
      · exact Nat.le_refl _
      · exact (hshort p mark name mid rfl).elim
    have := h.pos_append hmid
    exact each_limit (by omega)

theorem isNameAt_pos {after : Code} (hcode : t :: (after ++ rest) <:+ full) (ht : t.token = .ident) :
    s.isNameAt (s.pos rest) (s.pos (t :: (after ++ rest))) = .ok (Declarator.isName t after) := by
  rw [isNameAt, h.text_pos hcode, ok_bind, h.pos_cons hcode,
    h.isTokenBelow_pos .openParen ((List.suffix_cons t _).trans hcode), ok_bind]
  simp only [Declarator.isName, isAttribute, isReserved, CodeToken.isWordOf, CodeToken.word, ht]
  cases isAttributeText t.text <;> cases after.nextIs .openParen <;>
    cases reservedWords.contains (String.ofList t.text) <;> rfl

theorem nameBackTurn_pos {after : Code} (hcode : t :: (after ++ rest) <:+ full) (depth : Nat) :
    s.nameBackTurn (s.pos rest) depth (.ofCode t) (s.pos (t :: (after ++ rest))) =
      .ok (if depth = 0 ∧ Declarator.isName t after then .inr (some (s.pos (t :: (after ++ rest))))
        else .inl (match t.token with
          | .closeParen | .closeBracket => depth + 1
          | .openParen | .openBracket => depth - 1
          | _ => depth)) := by
  by_cases ht : t.token = .ident
  · have hname := h.isNameAt_pos hcode ht
    by_cases hdepth : depth = 0 <;> by_cases hisName : Declarator.isName t after <;>
      simp [nameBackTurn, ht, hname, hdepth, hisName]
  · have hisName : Declarator.isName t after = false := by simp [Declarator.isName, ht]
    simp only [nameBackTurn, Tok.token_ofCode, hisName]
    cases htoken : t.token <;> simp_all

theorem lastNames_pos (depth : Nat) (after reversed : Code)
    (hcode : reversed.reverse ++ (after ++ rest) <:+ full) :
    s.eachBack (s.pos (reversed.reverse ++ (after ++ rest))) (fun _ _ => none)
      (s.nameBackTurn (s.pos rest)) depth (s.pos (after ++ rest)) =
        .ok ((Declarator.findLast? depth after reversed).map fun d =>
          s.pos (d.name :: (d.after ++ rest))) := by
  induction reversed generalizing depth after with
  | nil => exact eachBack_first (Nat.le_refl _)
  | cons t more ih =>
    have hmove : (t :: more).reverse ++ (after ++ rest) = more.reverse ++ (t :: after ++ rest) := by
      simp
    rw [hmove] at hcode ⊢
    have hsuffix := List.suffix_append more.reverse (t :: after ++ rest)
    have hback := h.nameBackTurn_pos (hsuffix.trans hcode) depth
    rw [Declarator.findLast?]
    by_cases hname : depth = 0 ∧ Declarator.isName t after
    · rw [if_pos hname] at hback ⊢
      exact h.eachBack_leave (hsuffix.trans hcode) (s.pos_le hsuffix) hback
    · rw [if_neg hname] at hback ⊢
      exact (h.eachBack_again _ (hsuffix.trans hcode) (s.pos_le hsuffix) hback).trans (ih _ _ hcode)

theorem lastName_pos {mid : Code} (hmid : mid ++ rest <:+ full) :
    s.lastName (s.pos (mid ++ rest)) (s.pos rest) =
      .ok ((Declarator.findLast? 0 [] mid.reverse).map fun d =>
        s.pos (d.name :: (d.after ++ rest))) := by
  have hnames := h.lastNames_pos 0 [] mid.reverse (by rwa [List.reverse_reverse])
  rwa [List.reverse_reverse] at hnames

theorem declaratorName_pos {mid : Code} (hmid : mid ++ rest <:+ full) :
    s.declaratorName (s.pos (mid ++ rest)) (s.pos rest) =
      .ok ((Declarator.find? mid).map fun d => s.pos (d.name :: (d.after ++ rest))) := by
  rw [declaratorName, h.wrappedName_pos hmid, ok_bind, Declarator.find?]
  cases Declarator.findWrapped? mid with
  | some d => rfl
  | none => exact h.lastName_pos hmid

/-! ## Types -/

theorem textUpTo_pos {mid : Code} (hmid : mid ++ t :: rest <:+ full) :
    s.textUpTo (s.pos (mid ++ t :: rest)) (s.pos (t :: rest)) =
      .ok (if mid.isEmpty then [] else Code.text mid ++ t.lead) := by
  cases mid with
  | nil => exact if_neg (Nat.lt_irrefl _)
  | cons u more =>
    rw [List.cons_append] at hmid ⊢
    have ht : t :: rest <:+ full := ((List.suffix_append more _).trans (List.suffix_cons u _)).trans hmid
    rw [textUpTo, if_pos (h.pos_lt_append hmid), h.tok_pos hmid, ok_bind, h.tok_pos ht, ok_bind]
    obtain ⟨front, hfull⟩ := hmid
    have hname : full = (front ++ u :: more) ++ t :: rest := by
      rw [← hfull, List.append_assoc]
      rfl
    obtain ⟨behind, hsource⟩ := h.source_append hname
    refine slice_of_append (Code.trail front ++ u.lead) _ (t.text ++ (Code.trail rest ++ behind)) ?_
      (h.start_eq hfull.symm) ?_
    · rw [hsource, Code.trail_append, Code.trail_eq, Code.trail_cons]
      simp
    · rw [Tok.start_ofCode, h.start_eq hname, Code.trail_append, Code.trail_eq]
      simp

theorem isWrapped_pos {before after : Code} {name : CodeToken} (hcode : before ++ name :: rest <:+ full) :
    s.isWrapped (s.pos (before ++ name :: rest)) (s.pos (name :: rest)) =
      .ok (Declarator.isWrapped ⟨before, name, after⟩) := by
  have hlength := h.pos_append hcode
  unfold isWrapped Declarator.isWrapped
  cases hreverse : before.reverse with
  | nil =>
    obtain rfl := List.reverse_eq_nil_iff.1 hreverse
    exact if_neg (by simp at hlength ⊢)
  | cons mark more =>
    obtain rfl : before = more.reverse ++ [mark] := by simpa using congrArg List.reverse hreverse
    cases more with
    | nil => exact if_neg (by simp at hlength ⊢; omega)
    | cons p more =>
      have hbefore : (p :: more).reverse ++ [mark] ++ name :: rest =
          more.reverse ++ p :: mark :: name :: rest := by simp
      rw [hbefore] at hcode hlength ⊢
      have hp := (List.suffix_append more.reverse _).trans hcode
      have hmark := (List.suffix_cons p _).trans hp
      have hpos := h.pos_cons hp
      have hpos' := h.pos_cons hmark
      have hone : minus (s.pos (name :: rest)) 1 = .ok (s.pos (mark :: name :: rest)) := by
        rw [minus_of_le (by omega), ← hpos', Nat.add_sub_cancel]
      have htwo : minus (s.pos (name :: rest)) 2 = .ok (s.pos (p :: mark :: name :: rest)) := by
        rw [minus_of_le (by omega), ← hpos', ← hpos, Nat.add_assoc, Nat.add_sub_cancel]
      simp only [List.length_append, List.length_reverse, List.length_cons, List.length_nil] at hlength
      rw [if_pos (by omega), hone, ok_bind, h.tok_pos hmark, ok_bind, htwo, ok_bind, h.tok_pos hp]
      by_cases hstar : mark.token = .star ∨ mark.token = .caret
      · simp [hstar, isPointerMark]
      · simp [hstar, isPointerMark]

theorem textBehind_pos {mid : Code} (hcode : t :: (mid ++ rest) <:+ full) :
    s.textBehind (s.pos (t :: (mid ++ rest))) (s.pos rest) = .ok mid.trail := by
  have hpos := h.pos_cons hcode
  cases hlast : mid.getLast? with
  | none =>
    obtain rfl := List.getLast?_eq_none_iff.1 hlast
    exact if_neg (by simp only [List.nil_append] at hpos ⊢; omega)
  | some last =>
    have hmid := (List.suffix_cons t _).trans hcode
    obtain ⟨hminus, htok⟩ := h.tok_getLast hmid hlast
    have hlt : s.pos (mid ++ rest) < s.pos rest := by
      have := h.pos_append hmid
      have : mid.length ≠ 0 := by rintro hnil; simp [List.length_eq_zero_iff.1 hnil] at hlast
      omega
    rw [textBehind, hpos, if_pos hlt, h.tok_pos hcode, ok_bind, hminus, ok_bind, htok, ok_bind]
    obtain ⟨front, hfull⟩ := hcode
    have hmid' : full = (front ++ [t]) ++ (mid ++ rest) := by simp [← hfull]
    obtain ⟨behind, hsource⟩ := h.source_append hmid'
    refine slice_of_append (Code.trail (front ++ [t])) _ (Code.trail rest ++ behind) ?_
      (h.stop_eq hfull.symm) ?_
    · rw [hsource, Code.trail_append mid]
      simp
    · rw [h.stop_getLast hmid' hlast]

/-- Where the type tokens of a declarator begin. -/
theorem typeStart_pos {declarator : Declarator}
    (hcode : declarator.before ++ declarator.name :: rest <:+ full) :
    s.skipStorage (s.pos (declarator.before ++ declarator.name :: rest))
      (s.pos (declarator.name :: rest)) =
        .ok (s.pos (declarator.typeTokens ++ declarator.name :: rest)) ∧
      declarator.typeTokens ++ declarator.name :: rest <:+ full :=
  ⟨h.skipStorage_pos hcode, (Code.suffix_append_right (dropStorage_suffix _) _).trans hcode⟩

theorem typeText_pos {declarator : Declarator}
    (hcode : declarator.before ++ declarator.name :: (declarator.after ++ rest) <:+ full) :
    s.typeText (s.pos (declarator.before ++ declarator.name :: (declarator.after ++ rest)))
      (s.pos rest) (s.pos (declarator.name :: (declarator.after ++ rest))) =
        .ok declarator.typeName := by
  have hname := (List.suffix_append declarator.before _).trans hcode
  obtain ⟨hstart, htype⟩ := h.typeStart_pos hcode
  rw [typeText, hstart, ok_bind, h.textUpTo_pos htype, ok_bind, h.isWrapped_pos hcode, ok_bind,
    h.textBehind_pos hname, Declarator.typeName]
  cases Declarator.isWrapped declarator <;> rfl

end Has

end Positional.Scanner

end DeclDoc
