import DeclDoc.Declaration.Variable
import DeclDoc.Proofs.Located
import DeclDoc.Proofs.Positional.Declarator
import Mathlib.Data.List.Forall2
import Mathlib.Data.List.Induction

/-!
# Variables by position

A range is cut at its commas into ranges, which are the parts of the code as a list
(`exists_segments`): `Scanner.Spans` says that a range of positions is a part of the code. What is
read from every range is then what is read from every part (`mapM_spans`), so the variables of a
head are declared (`variablesIn_pos`).
-/

set_option autoImplicit false

namespace DeclDoc

open Declaration

namespace Declaration

/-- The code that a declarator is. -/
def Declarator.code (declarator : Declarator) : Code :=
  declarator.before ++ declarator.name :: declarator.after

theorem Declarator.code_ne_nil (declarator : Declarator) : declarator.code ≠ [] := by
  simp [code]

theorem Declarator.code_append (declarator : Declarator) (rest : Code) :
    declarator.code ++ rest =
      declarator.before ++ declarator.name :: (declarator.after ++ rest) := by
  rw [code, List.append_assoc, List.cons_append]

/-- An initializer is no part of what a declaration begins with. -/
theorem start_withoutInitializer {code : Code} (h : withoutInitializer code ≠ []) :
    (withoutInitializer code).start = code.start := by
  cases code with
  | nil => rfl
  | cons t rest =>
    rw [withoutInitializer, Code.before, List.takeWhile_cons] at h ⊢
    split
    · rfl
    · next ht => exact absurd (if_neg ht) h

/-- The parts of code of which the first one has begun with `passed`, inside `depth` brackets. -/
def splitCommasFrom (nesting : Nesting) (passed : Code) (depth : Nat) (code : Code) : List Code :=
  match spanTop nesting (· == .comma) depth code with
  | (front, []) => [passed ++ front]
  | (front, _ :: behind) => (passed ++ front) :: splitCommas nesting behind

theorem splitCommas_eq (nesting : Nesting) (code : Code) :
    splitCommas nesting code = splitCommasFrom nesting [] 0 code := by
  rw [splitCommas, splitCommasFrom]
  split
  · next hrest =>
    rw [show spanTop nesting (· == .comma) 0 code = (_, []) from Prod.ext rfl hrest]
    rfl
  · next t behind hrest =>
    rw [show spanTop nesting (· == .comma) 0 code = (_, t :: behind) from Prod.ext rfl hrest]
    rfl

variable {nesting : Nesting} {passed code : Code} {t : CodeToken} {depth : Nat}

theorem splitCommasFrom_comma (ht : t.token = .comma) :
    splitCommasFrom nesting passed 0 (t :: code) = passed :: splitCommas nesting code := by
  rw [splitCommasFrom, spanTop, if_pos (by simp [ht])]
  simp

theorem splitCommasFrom_cons (ht : ¬ (depth = 0 ∧ t.token = .comma)) :
    splitCommasFrom nesting passed depth (t :: code) =
      splitCommasFrom nesting (passed ++ [t]) (nesting.depthAfter depth t.token) code := by
  rw [splitCommasFrom, splitCommasFrom, spanTop, if_neg (by simpa using ht)]
  dsimp only
  split <;> split <;> simp_all

end Declaration

namespace Positional.Scanner

variable (s : Scanner)

/-! ## Operations -/

/-- The ranges up to each comma from a position on, behind those in `done`, and where the last one
begins; `first` is where the one begins that has begun. -/
def segmentsFrom (nesting : Nesting) (stop : Nat) (done : List (Nat × Nat)) (first depth i : Nat) :
    Except Crash (List (Nat × Nat) × Nat) :=
  s.each stop (fun (done, first, _) _ => (done, first))
    (fun (done, first, depth) t i =>
      .ok (if depth = 0 ∧ t.token = .comma then .again (done ++ [(first, i)], i + 1, depth) (i + 1)
        else .again (done, first, nesting.depthAfter depth t.token) (i + 1)))
    (done, first, depth) i

/-- The ranges up to each comma of a range, and where the last one begins. -/
def segments (nesting : Nesting) (start stop : Nat) : Except Crash (List (Nat × Nat) × Nat) :=
  s.segmentsFrom nesting stop [] start 0 start

/-- The variable of a range. -/
def variableAt (start stop : Nat) : Except Crash (Option Cursor) := do
  match ← s.declaratorName start stop with
  | none => pure none
  | some name =>
    let first ← s.skipStorage start name
    if name ≤ first then pure none
    else do
      let cursor ← s.cursor .variable (← s.word name) name start
      let typeName ← s.typeText start stop name
      pure (some { cursor with detail := { typeName := some typeName } })

/-- Where the initializer of a range begins, or else the range ends. -/
def initializerStart (start stop : Nat) : Except Crash Nat := do
  pure ((← s.findToken .equals start stop).getD stop)

/-- Where the stars and carets begin that stand right before a position. -/
def marksStart (first name : Nat) : Except Crash Nat :=
  s.eachBack first (fun _ i => i)
    (fun _ t i => .ok (if t.token = .star ∨ t.token = .caret then .inl () else .inr (i + 1))) () name

/-- The variable of a range behind the first one, whose type begins with `base`. -/
def laterVariable (base : String) (range : Nat × Nat) : Except Crash (Option Cursor) := do
  let stop ← s.initializerStart range.1 range.2
  match ← s.declaratorName range.1 stop with
  | none => pure none
  | some name =>
    let cursor ← s.cursor .variable (← s.word name) name range.1
    let own ← s.typeText range.1 stop name
    let typeName := String.ofList (Text.tidy (base.toList ++ ' ' :: own.toList))
    pure (some { cursor with detail := { typeName := some typeName } })

/-- The part of the type before a position that all variables share. -/
def sharedType (start name : Nat) : Except Crash String := do
  let first ← s.skipStorage start name
  let stop ← s.marksStart first name
  s.textBetween first stop

/-- The variables of the ranges between commas. -/
def variablesOf (start : Nat) : List (Nat × Nat) → Except Crash (List Cursor)
  | [] => pure []
  | first :: more => do
    let stop ← s.initializerStart first.1 first.2
    match ← s.variableAt start stop with
    | none => pure []
    | some cursor =>
      match ← s.declaratorName start stop with
      | none => pure [cursor]
      | some name =>
        let base ← s.sharedType start name
        let later ← more.mapM (s.laterVariable base)
        pure (cursor :: later.filterMap id)

def variablesIn (start stop : Nat) : Except Crash (List Cursor) := do
  let (done, last) ← s.segments .initializers start stop
  s.variablesOf start (done ++ [(last, stop)])

/-! ## Ranges -/

/-- The positions of a range are those of a part of the code. -/
def Spans (full : Code) (range : Nat × Nat) (part : Code) : Prop :=
  ∃ behind, part ++ behind <:+ full ∧ range = (s.pos (part ++ behind), s.pos behind)

variable {s} {full : Code}

/-- What can be read from every range can be read from all of them. -/
theorem mapM_spans {α : Type} {f : Nat × Nat → Except Crash α} {g : Code → α}
    (hf : ∀ range part, s.Spans full range part → f range = .ok (g part))
    {ranges : List (Nat × Nat)} {parts : List Code}
    (hspans : List.Forall₂ (s.Spans full) ranges parts) : ranges.mapM f = .ok (parts.map g) := by
  induction hspans with
  | nil => rfl
  | cons hrange _ ih =>
    rw [List.mapM_cons, hf _ _ hrange, ok_bind, ih]
    rfl

namespace Has

variable (h : s.Has full) {t : CodeToken} {code rest : Code}

include h

/-- The parts of code of which the first one has begun with `passed`. -/
theorem exists_segmentsFrom (nesting : Nesting) (done : List (Nat × Nat)) (depth : Nat)
    (passed mid : Code) (hmid : passed ++ (mid ++ rest) <:+ full) :
    ∃ more first,
      s.segmentsFrom nesting (s.pos rest) done (s.pos (passed ++ (mid ++ rest))) depth
        (s.pos (mid ++ rest)) = .ok (done ++ more, first) ∧
      List.Forall₂ (s.Spans full) (more ++ [(first, s.pos rest)])
        (splitCommasFrom nesting passed depth mid) ∧
      (more ++ [(first, s.pos rest)]).head?.map Prod.fst = some (s.pos (passed ++ (mid ++ rest))) := by
  induction mid generalizing done depth passed with
  | nil =>
    refine ⟨[], s.pos (passed ++ rest), ?_, .cons ⟨rest, ?_, ?_⟩ .nil, rfl⟩
    · rw [List.append_nil]
      exact each_limit (Nat.le_refl _)
    · simpa using hmid
    · rw [List.append_nil]
  | cons t mid ih =>
    have hcode : t :: (mid ++ rest) <:+ full := (List.suffix_append passed _).trans hmid
    have hrest := (List.suffix_cons t _).trans hcode
    have hlimit := h.pos_lt_append hcode
    have hpos := h.pos_cons hcode
    by_cases hcomma : depth = 0 ∧ t.token = .comma
    · obtain ⟨more, first, hsegments, hspans, -⟩ :=
        ih (done ++ [(s.pos (passed ++ (t :: mid ++ rest)), s.pos (t :: (mid ++ rest)))]) 0 [] hrest
      refine ⟨(s.pos (passed ++ (t :: mid ++ rest)), s.pos (t :: (mid ++ rest))) :: more, first, ?_,
        ?_, rfl⟩
      · refine (h.each_again _ hcode hlimit List.suffix_rfl ?_).trans (hsegments.trans (by simp))
        simp [hcomma, hpos]
      · obtain ⟨rfl, ht⟩ := hcomma
        rw [splitCommasFrom_comma ht, splitCommas_eq]
        exact .cons ⟨t :: (mid ++ rest), hmid, rfl⟩ hspans
    · have hmove : passed ++ (t :: mid ++ rest) = (passed ++ [t]) ++ (mid ++ rest) := by simp
      rw [hmove] at hmid ⊢
      obtain ⟨more, first, hsegments, hspans⟩ :=
        ih done (nesting.depthAfter depth t.token) (passed ++ [t]) hmid
      rw [splitCommasFrom_cons hcomma]
      refine ⟨more, first, ?_, hspans⟩
      refine (h.each_again _ hcode hlimit List.suffix_rfl ?_).trans hsegments
      simp [hcomma, hpos]

theorem exists_segments (nesting : Nesting) {mid : Code} (hmid : mid ++ rest <:+ full) :
    ∃ done first,
      s.segments nesting (s.pos (mid ++ rest)) (s.pos rest) = .ok (done, first) ∧
      List.Forall₂ (s.Spans full) (done ++ [(first, s.pos rest)]) (splitCommas nesting mid) ∧
      (done ++ [(first, s.pos rest)]).head?.map Prod.fst = some (s.pos (mid ++ rest)) := by
  rw [splitCommas_eq]
  exact h.exists_segmentsFrom nesting [] 0 [] mid hmid

/-! ## Variables -/

/-- The cursor of a declarator, whose declaration begins where the declarator does. -/
theorem cursor_declarator (kind : CursorKind) (spelling : String) {declarator : Declarator}
    (hcode : declarator.before ++ declarator.name :: (declarator.after ++ rest) <:+ full) :
    s.cursor kind spelling (s.pos (declarator.name :: (declarator.after ++ rest)))
      (s.pos (declarator.before ++ declarator.name :: (declarator.after ++ rest))) =
        .ok { kind, spelling, offset := declarator.name.start, extent := declarator.code.start } := by
  have hname := (List.suffix_append declarator.before _).trans hcode
  unfold Declarator.code
  cases hbefore : declarator.before with
  | nil => exact h.cursor_pos kind spelling hname hname
  | cons first more =>
    rw [hbefore] at hcode
    exact h.cursor_pos kind spelling hname hcode

theorem variableAt_pos {mid : Code} (hmid : mid ++ rest <:+ full) :
    s.variableAt (s.pos (mid ++ rest)) (s.pos rest) = .ok (variableOf? mid) := by
  rw [variableAt, h.declaratorName_pos hmid, ok_bind, variableOf?, variableDeclarator?]
  cases hfind : Declarator.find? mid with
  | none => rfl
  | some declarator =>
    obtain rfl : declarator.code = mid := Declarator.find?_append hfind
    rw [Declarator.code_append] at hmid ⊢
    have hname := (List.suffix_append declarator.before _).trans hmid
    obtain ⟨hstart, htype⟩ := h.typeStart_pos hmid
    have hempty := h.pos_le_iff htype
    simp only [Option.map_some, hstart, ok_bind, hempty]
    cases htokens : declarator.typeTokens with
    | nil => simp [Option.filter, htokens]
    | cons t more =>
      rw [if_neg (List.cons_ne_nil _ _), h.word_pos hname, ok_bind, h.cursor_declarator _ _ hmid,
        ok_bind, h.typeText_pos hmid]
      simp [Option.filter, htokens, Declarator.toVariable]

theorem initializerStart_pos {mid : Code} (hmid : mid ++ rest <:+ full) :
    s.initializerStart (s.pos (mid ++ rest)) (s.pos rest) =
      .ok (s.pos (mid.dropWhile (·.token != .equals) ++ rest)) := by
  rw [initializerStart, h.findToken_pos .equals hmid]
  cases hany : mid.any (·.token == .equals) with
  | true => rfl
  | false =>
    rw [List.dropWhile_eq_nil_iff.2 (by simpa using hany)]
    rfl

theorem marksStart_pos {mid : Code} (hmid : mid ++ rest <:+ full) :
    s.marksStart (s.pos (mid ++ rest)) (s.pos rest) =
      .ok (s.pos ((mid.reverse.takeWhile isPointerMark).reverse ++ rest)) := by
  induction mid using List.reverseRecOn generalizing rest with
  | nil => exact eachBack_first (Nat.le_refl _)
  | append_singleton first t ih =>
    rw [List.append_assoc, List.singleton_append] at hmid ⊢
    have hsuffix := List.suffix_append first (t :: rest)
    have hpos := h.pos_cons (hsuffix.trans hmid)
    rw [List.reverse_append, List.reverse_singleton, List.singleton_append, List.takeWhile_cons]
    by_cases hmark : t.token = .star ∨ t.token = .caret
    · refine (h.eachBack_again () (hsuffix.trans hmid) (s.pos_le hsuffix) ?_).trans
        ((ih hmid).trans ?_)
      · simp [hmark]
      · simp [isPointerMark, hmark]
    · have hnone : (if isPointerMark t then t :: first.reverse.takeWhile isPointerMark else []) = [] :=
        if_neg (by simpa [isPointerMark] using hmark)
      rw [hnone]
      exact h.eachBack_leave (hsuffix.trans hmid) (s.pos_le hsuffix) (by simp [hmark, hpos])

theorem sharedType_pos {declarator : Declarator}
    (hcode : declarator.before ++ declarator.name :: rest <:+ full) :
    s.sharedType (s.pos (declarator.before ++ declarator.name :: rest))
      (s.pos (declarator.name :: rest)) = .ok (Declaration.sharedType declarator) := by
  obtain ⟨hstart, htype⟩ := h.typeStart_pos hcode
  have hsplit : declarator.typeTokens =
      (declarator.typeTokens.reverse.dropWhile isPointerMark).reverse ++
        (declarator.typeTokens.reverse.takeWhile isPointerMark).reverse := by
    rw [← List.reverse_append, List.takeWhile_append_dropWhile, List.reverse_reverse]
  have hmarks := h.marksStart_pos htype
  rw [Scanner.sharedType, hstart, ok_bind, hmarks, ok_bind]
  rw [hsplit, List.append_assoc] at htype
  have htext := h.textBetween_pos htype
  rwa [← List.append_assoc, ← hsplit] at htext

theorem laterVariable_pos (base : String) {range : Nat × Nat} {part : Code}
    (hrange : s.Spans full range part) :
    s.laterVariable base range = .ok (laterVariable? base part) := by
  obtain ⟨behind, hcode, rfl⟩ := hrange
  have hsplit : part ++ behind =
      withoutInitializer part ++ (part.dropWhile (·.token != .equals) ++ behind) := by
    rw [← List.append_assoc, withoutInitializer, Code.before, List.takeWhile_append_dropWhile]
  rw [Scanner.laterVariable, h.initializerStart_pos hcode, ok_bind]
  rw [hsplit] at hcode ⊢
  rw [h.declaratorName_pos hcode, ok_bind, laterVariable?]
  cases hfind : Declarator.find? (withoutInitializer part) with
  | none => rfl
  | some declarator =>
    have hpart : declarator.code = withoutInitializer part := Declarator.find?_append hfind
    rw [← hpart, Declarator.code_append] at hcode ⊢
    have hname := (List.suffix_append declarator.before _).trans hcode
    simp only [Option.map_some]
    rw [h.word_pos hname, ok_bind, h.cursor_declarator _ _ hcode, ok_bind, h.typeText_pos hcode,
      ok_bind, hpart, start_withoutInitializer (hpart ▸ declarator.code_ne_nil)]
    rfl

theorem variablesIn_pos {mid : Code} (hmid : mid ++ rest <:+ full) :
    s.variablesIn (s.pos (mid ++ rest)) (s.pos rest) = .ok (Declaration.variablesOf mid) := by
  obtain ⟨done, last, hsegments, hspans, hhead⟩ := h.exists_segments .initializers hmid
  rw [variablesIn, hsegments, ok_bind, Declaration.variablesOf]
  dsimp only
  generalize done ++ [(last, s.pos rest)] = ranges at hspans hhead
  generalize splitCommas .initializers mid = parts at hspans
  cases hspans with
  | nil => rfl
  | @cons range first ranges more hrange hmore =>
    obtain ⟨behind, hcode, rfl⟩ := hrange
    obtain hstart : s.pos (first ++ behind) = s.pos (mid ++ rest) := by simpa using hhead
    have hsplit : first ++ behind =
        withoutInitializer first ++ (first.dropWhile (·.token != .equals) ++ behind) := by
      rw [← List.append_assoc, withoutInitializer, Code.before, List.takeWhile_append_dropWhile]
    rw [Scanner.variablesOf, h.initializerStart_pos hcode, ok_bind, ← hstart]
    rw [hsplit] at hcode ⊢
    rw [h.variableAt_pos hcode, ok_bind, variableOf?]
    dsimp only
    cases hdeclares : variableDeclarator? (withoutInitializer first) with
    | none => rfl
    | some declarator =>
      have hfind : Declarator.find? (withoutInitializer first) = some declarator :=
        (Option.filter_eq_some_iff.1 hdeclares).1
      have hpart : declarator.code = withoutInitializer first := Declarator.find?_append hfind
      have hlater := mapM_spans (fun _ _ => h.laterVariable_pos (Declaration.sharedType declarator)) hmore
      simp only [Option.map_some]
      rw [h.declaratorName_pos hcode, ok_bind, hfind]
      rw [← hpart, Declarator.code_append] at hcode ⊢
      simp only [Option.map_some]
      rw [h.sharedType_pos hcode, ok_bind, hlater, ok_bind, hpart,
        start_withoutInitializer (hpart ▸ declarator.code_ne_nil)]
      simp [List.filterMap_map]

end Has

end Positional.Scanner

end DeclDoc
