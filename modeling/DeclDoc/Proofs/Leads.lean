import DeclDoc.Proofs.RecastScan

/-!
# What stands before the first token

Text is quoted between tokens, and a mark matters behind the first token of a head. So what stands
before the first token of a code and the mark on it change nothing of what is scanned from it, details
included (`scan_lead`).
-/

set_option autoImplicit false

namespace DeclDoc

/-- The change leaves all tokens of the code but the first as they are. -/
def Recast.FirstOnly (e : Recast) (code : Code) : Prop := ∀ t ∈ code.tail, e.apply t = t

variable {e : Recast}

theorem Recast.map_eq_self {code : Code} (h : ∀ t ∈ code, e.apply t = t) :
    code.map e.apply = code := (List.map_congr_left h).trans (List.map_id code)

namespace Recast.FirstOnly

variable {code part before after : Code} {t : CodeToken}

theorem map_behind (h : e.FirstOnly code) (hcode : before ++ t :: after = code) :
    after.map e.apply = after := by
  refine map_eq_self fun u hu => h u ?_
  subst hcode
  cases before with
  | nil => exact hu
  | cons v before => exact List.mem_append_right _ (List.mem_cons_of_mem t hu)

theorem ofPart (h : e.FirstOnly code) (hpart : part <:+: code) : e.FirstOnly part := by
  obtain ⟨front, back, rfl⟩ := hpart
  cases part with
  | nil => nofun
  | cons t more =>
    rw [List.append_assoc] at h
    intro u hu
    have hbehind := h.map_behind (show front ++ t :: (more ++ back) = _ from rfl)
    rw [List.map_append] at hbehind
    have hmore := List.append_inj_left hbehind (List.length_map _)
    exact List.map_inj_left.1 (hmore.trans (List.map_id more).symm) u hu

end Recast.FirstOnly

open Recast (FirstOnly)

theorem Code.text_first {code : Code} (h : e.FirstOnly code) : text (code.map e.apply) = code.text := by
  cases code with
  | nil => rfl
  | cons t rest =>
    have hrest : rest.map e.apply = rest := Recast.map_eq_self h
    rw [List.map_cons, hrest, text, text, Relabel.text]

theorem Code.line_first {code : Code} (h : e.FirstOnly code) : line (code.map e.apply) = code.line := by
  rw [line, line, text_first h]

namespace Declaration

/-! ## Declarators -/

namespace Declarator

variable {declarator : Declarator}

theorem typeTokens_part (declarator : Declarator) :
    declarator.typeTokens <:+: declarator.before ++ declarator.name :: declarator.after :=
  (dropStorage_suffix declarator.before).isInfix.trans (List.prefix_append ..).isInfix

theorem typeName_first
    (h : e.FirstOnly (declarator.before ++ declarator.name :: declarator.after)) :
    (declarator.relabel e.toRelabel).typeName = declarator.typeName := by
  have hafter := h.map_behind rfl
  have htype : (declarator.relabel e.toRelabel).typeTokens.text = declarator.typeTokens.text := by
    rw [typeTokens_relabel, Code.text_first (h.ofPart declarator.typeTokens_part)]
  -- a name with nothing before it has no type, so its lead is not quoted
  have hname : declarator.typeTokens.isEmpty = false →
      (e.apply declarator.name).lead = declarator.name.lead := by
    intro hne
    have hbefore : declarator.before ≠ [] := by
      rintro hnil
      simp [typeTokens, hnil, dropStorage] at hne
    obtain ⟨t, more, hcons⟩ := List.exists_cons_of_ne_nil hbefore
    rw [hcons] at h
    rw [h declarator.name (List.mem_append_right more List.mem_cons_self)]
  rw [typeName, typeName, htype, typeTokens_relabel, isWrapped_relabel, List.isEmpty_map]
  cases hempty : declarator.typeTokens.isEmpty with
  | true => simp [relabel, hafter]
  | false => simp [relabel, hafter, hname hempty]

theorem toVariable_first
    (h : e.FirstOnly (declarator.before ++ declarator.name :: declarator.after)) (extent : Nat) :
    (declarator.relabel e.toRelabel).toVariable extent (declarator.relabel e.toRelabel).typeName =
      declarator.toVariable extent declarator.typeName := by
  rw [typeName_first h]
  simp [toVariable, relabel]

theorem sharedType_first
    (h : e.FirstOnly (declarator.before ++ declarator.name :: declarator.after)) :
    sharedType (declarator.relabel e.toRelabel) = sharedType declarator := by
  have hshared : (declarator.typeTokens.reverse.dropWhile isPointerMark).reverse <+:
      declarator.typeTokens := by
    rw [← List.reverse_suffix, List.reverse_reverse]
    exact List.dropWhile_suffix _
  rw [sharedType, sharedType, typeTokens_relabel, ← List.map_reverse, dropWhile_isPointerMark_map,
    ← List.map_reverse, Code.line_first (h.ofPart (hshared.isInfix.trans declarator.typeTokens_part))]

end Declarator

/-! ## Variables and functions -/

variable {head code : Code}

theorem variableDeclarator?_append {declarator : Declarator}
    (h : variableDeclarator? code = some declarator) :
    declarator.before ++ declarator.name :: declarator.after = code :=
  Declarator.find?_append (Option.filter_eq_some_iff.1 h).1

theorem withoutInitializer_part (code : Code) : withoutInitializer code <:+: code :=
  (List.takeWhile_prefix _).isInfix

theorem variableOf?_first (h : e.FirstOnly code) :
    variableOf? (code.map e.apply) = variableOf? code := by
  rw [variableOf?, variableOf?, variableDeclarator?_map, Code.start_map]
  cases hfound : variableDeclarator? code with
  | none => rfl
  | some declarator =>
    rw [← variableDeclarator?_append hfound] at h
    simp only [Option.map_some, Declarator.toVariable_first h]

theorem variablesOf_first (h : e.FirstOnly head) :
    variablesOf (head.map e.apply) = variablesOf head := by
  -- the first token belongs to the first part
  obtain ⟨first, more, hsplit, hfirst, hmore⟩ : ∃ first more,
      splitCommas .initializers head = first :: more ∧ first <:+: head ∧
        more.map (List.map e.apply) = more := by
    rcases splitCommas_cases .initializers head with hsplit | ⟨first, comma, rest, hhead, hsplit⟩
    · exact ⟨head, [], hsplit, List.infix_rfl, rfl⟩
    · refine ⟨first, _, hsplit, ⟨[], comma :: rest, hhead.symm⟩, ?_⟩
      rw [← splitCommas_map, h.map_behind hhead.symm]
  rw [variablesOf, variablesOf, splitCommas_map, hsplit]
  simp only [List.map_cons, hmore, withoutInitializer_map, variableDeclarator?_map, Code.start_map]
  cases hfound : variableDeclarator? (withoutInitializer first) with
  | none => rfl
  | some declarator =>
    have hdeclarator := h.ofPart ((withoutInitializer_part first).trans hfirst)
    rw [← variableDeclarator?_append hfound] at hdeclarator
    simp only [Option.map_some, Declarator.toVariable_first hdeclarator,
      Declarator.sharedType_first hdeclarator]

theorem typedef?_first {first : CodeToken} {more : Code} (h : e.FirstOnly (first :: more)) :
    typedef? (e.apply first) (more.map e.apply) = typedef? first more := by
  rw [typedef?, typedef?, Declarator.find?_map]
  cases hfound : Declarator.find? more with
  | none => rfl
  | some declarator =>
    have hprepend : (declarator.relabel e.toRelabel).prepend (e.apply first) =
        (declarator.prepend first).relabel e.toRelabel := rfl
    have htype : ((declarator.prepend first).relabel e.toRelabel).typeName =
        (declarator.prepend first).typeName := by
      rw [← Declarator.find?_append hfound] at h
      exact Declarator.typeName_first h
    simp only [Option.map_some, hprepend, htype]
    simp [Declarator.relabel]

theorem function?_first (h : e.FirstOnly head) : function? (head.map e.apply) = function? head := by
  have hsplit := splitArguments?_map (e := e.toRelabel) [] head
  rw [List.map_nil] at hsplit
  rw [function?, function?, hsplit, Code.start_map]
  rcases hfound : splitArguments? [] head with _ | ⟨_ | ⟨name, reversed⟩, after⟩
  · rfl
  · rfl
  · obtain ⟨paren, -, hhead⟩ := splitArguments?_eq hfound
    have hafter : after.map e.apply = after := h.map_behind hhead.symm
    rw [List.reverse_cons, List.append_assoc] at hhead
    have hresult : dropStorage reversed.reverse <:+: head :=
      (dropStorage_suffix _).isInfix.trans ⟨[], _, hhead.symm⟩
    simp only [Option.map_some, List.map_cons, ← List.map_reverse, dropStorage_map, Relabel.token,
      Relabel.isReserved, List.isEmpty_map, Relabel.word, Recast.start, hafter,
      Code.line_first (h.ofPart hresult)]

/-! ## Enumerations and records -/

theorem EnumHead.ofMacro_keyword (keyword : CodeToken) (after : Code) :
    ofMacro (e.apply keyword) after = { ofMacro keyword after with keyword := e.apply keyword } := by
  unfold ofMacro
  split
  · split
    · split <;> rfl
    · rfl
  · rfl

theorem EnumHead.ofKeyword_keyword (keyword : CodeToken) (after : Code) :
    ofKeyword (e.apply keyword) after =
      { ofKeyword keyword after with keyword := e.apply keyword } := by
  unfold ofKeyword
  dsimp only
  split
  · split <;> rfl
  · rfl

theorem readEnumeration_keyword {enumHead : EnumHead} {keyword : CodeToken}
    (h : enumHead.keyword = keyword) (isTypedef : Bool) (extent : Nat) (code : Code) :
    readEnumeration { enumHead with keyword := e.apply keyword } isTypedef extent code =
      readEnumeration enumHead isTypedef extent code := by
  simp [readEnumeration, enumeration, h]

theorem readRecord_keyword (keyword : CodeToken) (after : Code) (isTypedef : Bool) (extent : Nat)
    (code : Code) :
    readRecord (e.apply keyword) after isTypedef extent code =
      readRecord keyword after isTypedef extent code := by
  simp [readRecord, record]

/-! ## Plain declarations -/

theorem restart_first (h : e.FirstOnly head) :
    restart (head.map e.apply) = (restart head).map e.apply := by
  rw [restart, restart, ← List.map_tail, Recast.map_eq_self h]
  cases hlast : lastRestart? head.tail with
  | none => rfl
  | some last => exact (Recast.map_eq_self fun t ht => h t ((lastRestart?_suffix hlast).subset ht)).symm

theorem terminated_first (h : e.FirstOnly head) :
    terminated (head.map e.apply) = terminated head := by
  cases head with
  | nil => rfl
  | cons first more =>
    have hforward := isForward_map (e := e.toRelabel) (first :: more)
    have hfunction := function?_first h
    have hvariables := variablesOf_first h
    rw [List.map_cons] at hforward hfunction hvariables ⊢
    simp only [terminated, Relabel.isWord, Relabel.isWordOf, hforward, hfunction, hvariables,
      typedef?_first h]

theorem braced_first (h : e.FirstOnly head) (code : Code) :
    braced (head.map e.apply) code = braced head code := by
  have hafter {words : List String} {found : CodeToken × Code}
      (hfound : findWord? words head = some found) : found.2.map e.apply = found.2 := by
    obtain ⟨before, hhead⟩ := findWord?_append hfound
    exact h.map_behind hhead
  simp only [braced, isWord_head?_map, any_token_map, withoutInitializer_map, findWord?_map,
    Code.start_map, isTransparent_map, function?_first h,
    variableOf?_first (h.ofPart (withoutInitializer_part head))]
  split
  · rfl
  cases hmacro : findWord? enumMacros head with
  | some found =>
    simp only [Option.map_some, hafter hmacro, EnumHead.ofMacro_keyword]
    exact readEnumeration_keyword (EnumHead.ofMacro_spec ..).1 ..
  | none =>
    dsimp only [Option.map_none]
    split
    · rfl
    cases henum : findWord? ["enum"] head with
    | some found =>
      simp only [Option.map_some, hafter henum, EnumHead.ofKeyword_keyword]
      exact readEnumeration_keyword (EnumHead.ofKeyword_spec ..).1 ..
    | none =>
      dsimp only [Option.map_none]
      cases hrecord : findWord? recordWords head with
      | some found => simp only [Option.map_some, hafter hrecord, readRecord_keyword]
      | none => rfl

theorem readPlain_first (h : e.FirstOnly code) : readPlain (code.map e.apply) = readPlain code := by
  have hsplit : (spanHead code).1 ++ (spanHead code).2 = code := spanTop_append ..
  have hhead : (spanHead code).1 <:+: code := ⟨[], (spanHead code).2, hsplit⟩
  have hrestart : restart (spanHead code).1 <:+: code := (restart_suffix _).isInfix.trans hhead
  unfold readPlain
  rw [spanHead_map]
  cases hspan : (spanHead code).2 with
  | nil => rfl
  | cons t rest =>
    rw [hspan] at hsplit
    simp only [List.map_cons, Relabel.token, List.isEmpty_map, restart_first (h.ofPart hhead),
      h.map_behind hsplit, terminated_first (h.ofPart hrestart), braced_first (h.ofPart hrestart)]
    split
    · rfl
    · rfl
    · cases hempty : (spanHead code).1 with
      | nil => rfl
      | cons first more =>
        rw [hempty] at hsplit
        rw [← hsplit] at h
        rw [h t (List.mem_append_right more List.mem_cons_self)]

/-! ## Sources -/

theorem scan_first {t : CodeToken} {rest : Code} (h : e.FirstOnly (t :: rest)) :
    scan (e.apply t :: rest) = scan (t :: rest) := by
  have hrest : rest.map e.apply = rest := Recast.map_eq_self h
  have hplain := readPlain_first h
  rw [List.map_cons, hrest] at hplain
  have hkeyword : readAtKeyword (e.apply t) rest = readAtKeyword t rest := by
    simp [readAtKeyword, readContainer, readProtocol]
  rw [scan, scan]
  simp only [Relabel.token, macroDefinition?_apply, hkeyword, hplain]

/-- What stands before the first token, and whether it is marked, makes no difference. -/
theorem scan_lead {t : CodeToken} {rest : Code} (h : Code.Ascending (t :: rest)) (lead : List Char)
    (afterComment : Bool) : scan ({ t with lead, afterComment } :: rest) = scan (t :: rest) := by
  let change : Recast :=
    { apply := fun u => if u.start = t.start then { u with lead, afterComment } else u
      token := fun u => by split <;> rfl
      text := fun u => by split <;> rfl
      start := fun u => by split <;> rfl }
  have hchange : change.FirstOnly (t :: rest) := by
    intro u hu
    have hlater := (List.pairwise_cons.1 h.apart).1 u hu
    have hpos := Text.byteLength_pos (h.nonempty t List.mem_cons_self)
    exact if_neg (by omega)
  have hfirst : change.apply t = { t with lead, afterComment } := if_pos rfl
  rw [← hfirst]
  exact scan_first hchange

end Declaration

end DeclDoc
