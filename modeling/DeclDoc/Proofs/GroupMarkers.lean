import DeclDoc.Proofs.SourceOrder

/-!
# Group markers

A member of a class, category or protocol is in the group of the last marker that stands between the
name of its container and the member itself, where markers inside the heads of earlier members do not
count (`Attached.group`). A walk looks for markers from the last member on only, and an open container
keeps the group that was found last: `Searched` says that nothing is lost between the two. No marker
counts for members of two containers (`Cursor.not_reaches_both`).
-/

set_option autoImplicit false

namespace DeclDoc

/-! ## Lists in their order -/

section

variable {α : Type} {xs : List α} {q : α → Bool}

theorem takeWhile_eq_filter (h : xs.Pairwise fun a b => q b = true → q a = true) :
    xs.takeWhile q = xs.filter q := by
  induction xs with
  | nil => rfl
  | cons x rest ih =>
    obtain ⟨hx, hrest⟩ := List.pairwise_cons.1 h
    by_cases hq : q x = true
    · rw [List.takeWhile_cons_of_pos hq, List.filter_cons_of_pos hq, ih hrest]
    · rw [List.takeWhile_cons_of_neg hq, List.filter_cons_of_neg hq]
      exact (List.filter_eq_nil_iff.2 fun y hy hqy => hq (hx y hy hqy)).symm

theorem dropWhile_eq_filter (h : xs.Pairwise fun a b => q b = true → q a = true) :
    xs.dropWhile q = xs.filter (!q ·) := by
  induction xs with
  | nil => rfl
  | cons x rest ih =>
    obtain ⟨hx, hrest⟩ := List.pairwise_cons.1 h
    by_cases hq : q x = true
    · rw [List.dropWhile_cons_of_pos hq, List.filter_cons_of_neg (by simp [hq]), ih hrest]
    · rw [List.dropWhile_cons_of_neg hq, List.filter_cons_of_pos (by simpa using hq)]
      congr 1
      refine (List.filter_eq_self.2 fun y hy => ?_).symm
      simpa using fun hqy => hq (hx y hy hqy)

/-- What is filtered stands in front or behind. -/
theorem filter_eq_append (h : xs.Pairwise fun a b => q b = true → q a = true) (p : α → Bool) :
    xs.filter p = xs.filter (fun x => p x && q x) ++ xs.filter (fun x => p x && !q x) := by
  have hsplit := List.takeWhile_append_dropWhile (p := q) (l := xs)
  rw [takeWhile_eq_filter h, dropWhile_eq_filter h] at hsplit
  conv_lhs => rw [← hsplit, List.filter_append, List.filter_filter, List.filter_filter]

end

/-! ## Titles among lexemes -/

/-- The title of the last group marker among lexemes. -/
def lastTitle (lexemes : List Lexeme) : Option String :=
  ((lexemes.filter Lexeme.isComment).filterMap (groupTitle? ·.text)).getLast?.map String.ofList

theorem lastTitle_append (front back : List Lexeme) :
    lastTitle (front ++ back) = (lastTitle back).or (lastTitle front) := by
  unfold lastTitle
  rw [List.filter_append, List.filterMap_append, List.getLast?_append]
  cases ((back.filter Lexeme.isComment).filterMap (groupTitle? ·.text)).getLast? <;> rfl

/-- Only comments matter. -/
theorem lastTitle_filter_congr {lexemes : List Lexeme} {p q : Lexeme → Bool}
    (h : ∀ x ∈ lexemes, x.isComment = true → p x = q x) :
    lastTitle (lexemes.filter p) = lastTitle (lexemes.filter q) := by
  have hcomments : (lexemes.filter p).filter Lexeme.isComment =
      (lexemes.filter q).filter Lexeme.isComment := by
    rw [List.filter_filter, List.filter_filter]
    refine List.filter_congr fun x hx => ?_
    cases hcomment : x.isComment with
    | false => rw [Bool.false_and, Bool.false_and]
    | true => rw [h x hx hcomment]
  rw [lastTitle, hcomments, lastTitle]

section

variable {source : List Char}

/-- A comment begins before another lexeme exactly if it ends before it. -/
theorem start_lt_iff_stop_le {x y : Lexeme} (hx : x ∈ (lex source).1) (hy : y ∈ (lex source).1)
    (hcomment : x.isComment = true) (hcode : y.isComment = false) :
    x.start < y.start ↔ x.stop ≤ y.start := by
  obtain ⟨before, behind, hsplit⟩ := List.append_of_mem hy
  obtain ⟨hordered, hne⟩ := lex_spec source
  have hpos := Text.byteLength_pos (hne x hx)
  have hstop : x.stop = x.start + Text.byteLength x.text := rfl
  refine ⟨fun hlt => ?_, fun hle => by omega⟩
  rw [hsplit] at hx hordered
  obtain ⟨-, hbehind, hbefore⟩ := List.pairwise_append.1 hordered
  rcases List.mem_append.1 hx with hx | hx
  · exact hbefore x hx y List.mem_cons_self
  rcases List.mem_cons.1 hx with rfl | hx
  · rw [hcomment] at hcode
    cases hcode
  · have hle := (List.pairwise_cons.1 hbehind).1 x hx
    have : y.stop = y.start + Text.byteLength y.text := rfl
    omega

theorem pairwise_start_lt (source : List Char) (n : Nat) :
    (lex source).1.Pairwise fun a b => decide (b.start < n) = true → decide (a.start < n) = true :=
  (start_lt_of_lex source).imp fun hlt hb => by
    rw [decide_eq_true_eq] at hb ⊢
    omega

/-- A group is looked for among the lexemes between two offsets. -/
theorem SourceFile.groupBetween_eq {file : SourceFile} (hfile : file.lexemes = (lex source).1)
    (start stop : Nat) :
    file.groupBetween start stop =
      lastTitle ((lex source).1.filter fun x => decide (x.stop ≤ stop) && !decide (x.start < start)) := by
  have hstop : (lex source).1.Pairwise fun a b =>
      decide (b.stop ≤ stop) = true → decide (a.stop ≤ stop) = true :=
    (lex_spec source).1.imp fun hle hb => by
      rw [decide_eq_true_eq] at hb ⊢
      unfold Lexeme.stop at hb hle ⊢
      omega
  show lastTitle ((file.lexemes.dropWhile (·.start < start)).takeWhile (·.stop ≤ stop)) = _
  rw [hfile, dropWhile_eq_filter (pairwise_start_lt source start),
    takeWhile_eq_filter (hstop.sublist List.filter_sublist), List.filter_filter]

end

/-! ## Attached members -/

/-- The lexeme begins in the head of a declaration: where it begins or behind, before its name. -/
def Cursor.headHas (cursor : Cursor) (x : Lexeme) : Bool :=
  decide (cursor.extent ≤ x.start) && decide (x.start < cursor.offset)

/-- A member in its container, and the members that stand before it there. -/
structure Attached where
  container : Cursor
  earlier : List Cursor
  member : Cursor

namespace Attached

/-- A marker at the lexeme counts for the member. -/
def reaches (attached : Attached) (x : Lexeme) : Bool :=
  decide (attached.container.offset ≤ x.start) && decide (x.stop ≤ attached.member.extent) &&
    !attached.earlier.any (·.headHas x)

def group (file : SourceFile) (attached : Attached) : Option String :=
  lastTitle (file.lexemes.filter attached.reaches)

end Attached

namespace Cursor

/-- The members among what a container holds, up to a named enumeration. -/
def attachedFrom (container : Cursor) (earlier : List Cursor) : List Cursor → List Attached
  | [] => []
  | child :: rest =>
    if child.isMember then
      ⟨container, earlier, child⟩ :: container.attachedFrom (earlier ++ [child]) rest
    else if child.isNamedEnum then []
    else container.attachedFrom earlier rest

/-- The members that a declaration at the top of a source contains. -/
def attached (cursor : Cursor) : List Attached :=
  if isContainerKind cursor.kind then cursor.attachedFrom [] cursor.children else []

variable {container : Cursor} {earlier held : List Cursor} {t : Attached}

theorem of_mem_attachedFrom (h : t ∈ container.attachedFrom earlier held) :
    t.container = container ∧ t.member ∈ held := by
  induction held generalizing earlier with
  | nil => cases h
  | cons child rest ih =>
    rw [attachedFrom] at h
    split at h
    · rcases List.mem_cons.1 h with rfl | h
      · exact ⟨rfl, List.mem_cons_self⟩
      · exact (ih h).imp_right (List.mem_cons_of_mem _)
    split at h
    · cases h
    · exact (ih h).imp_right (List.mem_cons_of_mem _)

theorem of_mem_attached (h : t ∈ container.attached) :
    t.container = container ∧ t.member ∈ container.children := by
  unfold attached at h
  split at h
  · exact of_mem_attachedFrom h
  · cases h

/-- No marker counts for members of two containers. -/
theorem not_reaches_both {cursors : List Cursor}
    (hbegins : ∀ cursor ∈ preorderAll cursors, cursor.extent ≤ cursor.offset)
    (hordered : (preorderAll cursors).Pairwise fun a b => a.offset < b.extent) :
    cursors.Pairwise fun a b => ∀ t ∈ a.attached, ∀ t' ∈ b.attached, ∀ x,
      ¬(t.reaches x = true ∧ t'.reaches x = true) := by
  refine (pairwise_of_preorderAll hordered).imp_of_mem fun {a b} ha hb hab => ?_
  -- All members of the first container are named before the second one begins.
  rintro t ht t' ht' x ⟨hx, hx'⟩
  obtain ⟨-, hmember⟩ := of_mem_attached ht
  obtain ⟨hcontainer, -⟩ := of_mem_attached ht'
  have hin : t.member ∈ a.preorder := by
    rw [preorder_eq]
    exact List.mem_cons_of_mem _ (mem_preorderAll hmember)
  have hmem : t.member ∈ preorderAll cursors := by
    obtain ⟨front, back, rfl⟩ := List.append_of_mem ha
    rw [preorderAll_append, preorderAll]
    exact List.mem_append_right _ (List.mem_append_left _ hin)
  have hlt := hab _ hin
  have hname := hbegins b (mem_preorderAll hb)
  have hextent := hbegins _ hmem
  have hstop : x.stop = x.start + Text.byteLength x.text := rfl
  simp only [Attached.reaches, Bool.and_eq_true, decide_eq_true_eq, hcontainer] at hx hx'
  omega

end Cursor

/-! ## Markers that were passed -/

/-- A walk that looks for markers from an offset on has passed the lexeme. -/
def Lexeme.isPassed (container : Cursor) (earlier : List Cursor) (groupFrom : Nat) (x : Lexeme) :
    Bool :=
  decide (container.offset ≤ x.start) && !earlier.any (·.headHas x) && decide (x.start < groupFrom)

/-- The group of an open container is that of the last marker that was passed in it. -/
structure Searched (file : SourceFile) (container : Cursor) (earlier : List Cursor)
    (groupFrom : Nat) (group : Option String) : Prop where
  begins : container.offset ≤ groupFrom
  heads : ∀ member ∈ earlier, member.offset ≤ groupFrom
  group : group = lastTitle (file.lexemes.filter (·.isPassed container earlier groupFrom))

/-- The cursor begins at a lexeme that is no comment, and is named there or behind. -/
structure Cursor.BeginsIn (file : SourceFile) (cursor : Cursor) : Prop where
  lexeme : ∃ x ∈ file.lexemes, x.isComment = false ∧ x.start = cursor.extent
  name : cursor.extent ≤ cursor.offset

namespace Searched

variable {file : SourceFile} {source : List Char} {container member : Cursor}
  {earlier : List Cursor} {groupFrom : Nat} {group : Option String}

/-- At the name of a container. -/
theorem begin (file : SourceFile) (container : Cursor) :
    Searched file container [] container.offset none where
  begins := Nat.le_refl _
  heads := by simp
  group := by
    have hnone : file.lexemes.filter (·.isPassed container [] container.offset) = [] := by
      refine List.filter_eq_nil_iff.2 fun x _ => ?_
      simp only [Lexeme.isPassed, Bool.and_eq_true, decide_eq_true_eq]
      omega
    rw [hnone]
    rfl

/-- A member is in the group that begins right before it, or else in the one found before. -/
theorem groupBetween_or (hfile : file.lexemes = (lex source).1)
    (h : Searched file container earlier groupFrom group) (hmember : member.BeginsIn file)
    (hfrom : groupFrom ≤ member.extent) :
    (file.groupBetween groupFrom member.extent).or group =
      Attached.group file ⟨container, earlier, member⟩ := by
  obtain ⟨y, hy, hcode, hstart⟩ := hmember.lexeme
  have hbegins := h.begins
  rw [hfile] at hy
  rw [SourceFile.groupBetween_eq hfile, h.group, Attached.group, hfile,
    filter_eq_append (pairwise_start_lt source groupFrom) (Attached.reaches _), lastTitle_append]
  congr 1
  · refine lastTitle_filter_congr fun x _ _ => ?_
    -- No head of an earlier member begins from here on.
    have hheads : x.start < groupFrom ∨ earlier.any (·.headHas x) = false := by
      refine or_iff_not_imp_left.2 fun hle => List.any_eq_false.2 fun e he => ?_
      have := h.heads e he
      simp only [Cursor.headHas, Bool.and_eq_true, decide_eq_true_eq]
      omega
    rcases hheads with hlt | hheads
    · simp [hlt]
    · rw [Attached.reaches, hheads, Bool.not_false, Bool.and_true, Bool.eq_iff_iff]
      simp only [Bool.and_eq_true, Bool.not_eq_true', decide_eq_true_eq, decide_eq_false_iff_not]
      omega
  · refine lastTitle_filter_congr fun x hx hcomment => ?_
    have hends := start_lt_iff_stop_le hx hy hcomment hcode
    rw [Lexeme.isPassed, Attached.reaches]
    cases earlier.any (·.headHas x) with
    | true => simp
    | false =>
      rw [Bool.not_false, Bool.and_true, Bool.and_true, Bool.eq_iff_iff]
      simp only [Bool.and_eq_true, decide_eq_true_eq]
      omega

/-- Behind a member. -/
theorem next (hfile : file.lexemes = (lex source).1)
    (h : Searched file container earlier groupFrom group) (hmember : member.BeginsIn file)
    (hfrom : groupFrom ≤ member.extent) :
    Searched file container (earlier ++ [member]) member.offset
      (Attached.group file ⟨container, earlier, member⟩) where
  begins := Nat.le_trans h.begins (Nat.le_trans hfrom hmember.name)
  heads e he := by
    have := hmember.name
    rcases List.mem_append.1 he with he | he
    · have := h.heads e he
      omega
    · rw [List.mem_singleton.1 he]
  group := by
    obtain ⟨y, hy, hcode, hstart⟩ := hmember.lexeme
    refine lastTitle_filter_congr fun x hx hcomment => ?_
    rw [hfile] at hx hy
    have hends := start_lt_iff_stop_le hx hy hcomment hcode
    have hname := hmember.name
    rw [Lexeme.isPassed, Attached.reaches, List.any_append]
    cases earlier.any (·.headHas x) with
    | true => simp
    | false =>
      rw [Bool.false_or, Bool.not_false, Bool.and_true, List.any_cons, List.any_nil, Bool.or_false,
        Cursor.headHas, Bool.eq_iff_iff]
      simp only [Bool.and_eq_true, Bool.not_eq_true', Bool.and_eq_false_iff, decide_eq_true_eq,
        decide_eq_false_iff_not]
      omega

end Searched

end DeclDoc
