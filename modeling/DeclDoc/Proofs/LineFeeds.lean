import DeclDoc.Proofs.Positions
import Mathlib.Data.List.Basic

/-!
# Positions count line feeds

A text has a line feed for each byte 10 of its UTF-8 form (`idxsOf_encode`), so the table of a
`LineIndex` holds 0 and the offsets behind these bytes (`LineIndex.starts_ofText`). The lines that
have begun at an offset are those of the line feeds before it (`LineIndex.begun_ofText`), and
halving the table finds how many there are (`LineIndex.bisect_eq`).

`LineIndex.position_of_lineFeeds`: what the position of an offset says, and that positions and
locations are in the order of their offsets.
-/

set_option autoImplicit false

namespace DeclDoc

namespace Text

/-! ## Line feeds among bytes -/

/-- The UTF-8 form. -/
def bytes (s : List Char) : List UInt8 := s.flatMap String.utf8EncodeChar

def lineFeed : UInt8 := 10

/-- The offset right behind the last line feed of some bytes, 0 if there is none. -/
def lineStart (before : List UInt8) : Nat := ((before.idxsOf lineFeed).getLast?.map (· + 1)).getD 0

theorem bytes_cons (c : Char) (s : List Char) :
    bytes (c :: s) = String.utf8EncodeChar c ++ bytes s := rfl

/-- Only a line feed has its byte: in longer forms all bytes are greater. -/
theorem lineFeed_not_mem_encode {c : Char} (h : c ≠ '\n') :
    lineFeed ∉ String.utf8EncodeChar c := by
  have hc : c.val.toNat ≠ 10 := fun hval => h (Char.ext (UInt32.toNat_inj.1 hval))
  have hbyte : ∀ n < 256, n ≠ 10 → lineFeed ≠ UInt8.ofNat n := fun n hn hne heq => by
    have htoNat := congrArg UInt8.toNat heq
    rw [UInt8.toNat_ofNat', Nat.mod_eq_of_lt hn] at htoNat
    exact hne htoNat.symm
  intro hmem
  unfold String.utf8EncodeChar at hmem
  dsimp only at hmem
  split at hmem
  · next hsmall => exact hbyte _ (by omega) hc (List.mem_singleton.1 hmem)
  split at hmem
  · rcases List.mem_pair.1 hmem with hb | hb <;> exact hbyte _ (by omega) (by omega) hb
  split at hmem
  · simp only [List.mem_cons, List.not_mem_nil, or_false] at hmem
    rcases hmem with hb | hb | hb <;> exact hbyte _ (by omega) (by omega) hb
  · simp only [List.mem_cons, List.not_mem_nil, or_false] at hmem
    rcases hmem with hb | hb | hb | hb <;> exact hbyte _ (by omega) (by omega) hb

/-- Where the line feeds of a character are. -/
theorem idxsOf_encode (c : Char) (offset : Nat) :
    (String.utf8EncodeChar c).idxsOf lineFeed offset = if c = '\n' then [offset] else [] := by
  split
  · next h =>
    subst h
    rfl
  · next h =>
    refine List.idxsOf_eq_nil_iff.2 fun b hb => beq_eq_false_iff_ne.2 ?_
    rintro rfl
    exact lineFeed_not_mem_encode h hb

/-- Lines begin behind line feeds. -/
theorem lineStartsAfter_eq (offset : Nat) (s : List Char) :
    lineStartsAfter offset s = ((bytes s).idxsOf lineFeed offset).map (· + 1) := by
  induction s generalizing offset with
  | nil => rfl
  | cons c s ih =>
    rw [bytes_cons, List.idxsOf_append, idxsOf_encode, String.length_utf8EncodeChar,
      lineStartsAfter, ih]
    split
    · next h =>
      subst h
      rfl
    · rfl

/-- The places of a byte before an offset are its places among the bytes before it. -/
theorem takeWhile_idxsOf (b : UInt8) (s : List UInt8) (start offset : Nat) :
    (s.idxsOf b start).takeWhile (· < start + offset) = (s.take offset).idxsOf b start := by
  induction s generalizing start offset with
  | nil => simp
  | cons c s ih =>
    cases offset with
    | zero =>
      refine List.takeWhile_eq_nil_iff.2 fun h => ?_
      have := List.ge_of_mem_idxsOf _ (List.getElem_mem h)
      simpa using this
    | succ offset =>
      have hrest := ih (start + 1) offset
      rw [Nat.add_right_comm, Nat.add_assoc] at hrest
      rw [List.take_succ_cons, List.idxsOf_cons, List.idxsOf_cons, ← hrest]
      split
      · rw [List.takeWhile_cons_of_pos (by simp)]
      · rfl

namespace LineIndex

theorem starts_ofText (s : List Char) :
    (ofText s).starts = 0 :: ((bytes s).idxsOf lineFeed).map (· + 1) := by
  rw [ofText, lineStartsAfter_eq]

/-- The first line has begun anywhere, and the others behind the line feeds before. -/
theorem begun_ofText (s : List Char) (offset : Nat) :
    (ofText s).begun offset = 0 :: (((bytes s).take offset).idxsOf lineFeed).map (· + 1) := by
  have hbefore := takeWhile_idxsOf lineFeed (bytes s) 0 offset
  rw [Nat.zero_add] at hbefore
  rw [begun, starts_ofText, List.takeWhile_cons_of_pos (by simp), List.takeWhile_map, ← hbefore]
  congr 2

/-- There are as many lines as line feeds before, and one more. -/
theorem length_begun_ofText (s : List Char) (offset : Nat) :
    ((ofText s).begun offset).length = 1 + ((bytes s).take offset).count lineFeed := by
  rw [begun_ofText, List.length_cons, List.length_map, List.length_idxsOf, Nat.add_comm]

/-- The last of them begins behind the last line feed. -/
theorem getLast?_begun_ofText (s : List Char) (offset : Nat) :
    ((ofText s).begun offset).getLast?.getD 0 = lineStart ((bytes s).take offset) := by
  rw [begun_ofText, List.getLast?_cons, List.getLast?_map, Option.getD_some, lineStart]

/-! ## Halving the table -/

/-- Where the members that `p` holds of end, looked for between two indices of a table that begins
with them. -/
def bisect (p : Nat → Bool) (table : List Nat) (low high : Nat) : Nat :=
  if low < high then
    let middle := low + (high - low) / 2
    if p (table.getD middle 0) then bisect p table (middle + 1) high else bisect p table low middle
  else low
termination_by high - low

/-- In a table that begins with the members that `p` holds of, halving finds how many there are. -/
theorem bisect_eq {p : Nat → Bool} {front back : List Nat} (hfront : ∀ n ∈ front, p n = true)
    (hback : ∀ n ∈ back, p n = false) {low high : Nat} (hlow : low ≤ front.length)
    (hhigh : front.length ≤ high) (hlength : high ≤ (front ++ back).length) :
    bisect p (front ++ back) low high = front.length := by
  have hread : ∀ i < (front ++ back).length,
      p ((front ++ back).getD i 0) = decide (i < front.length) := fun i hi => by
    rw [List.getD_eq_getElem?_getD, List.getElem?_eq_getElem hi, Option.getD_some]
    by_cases hin : i < front.length
    · rw [List.getElem_append_left hin, hfront _ (List.getElem_mem hin), decide_eq_true hin]
    · rw [List.getElem_append_right (by omega), hback _ (List.getElem_mem _), decide_eq_false hin]
  fun_induction bisect p (front ++ back) low high with
  | case1 low high hlt middle hp ih =>
    rw [hread middle (by omega), decide_eq_true_eq] at hp
    exact ih hp hhigh hlength
  | case2 low high hlt middle hp ih =>
    rw [hread middle (by omega), decide_eq_true_eq] at hp
    exact ih hlow (by omega) (by omega)
  | case3 low high hge => omega

theorem starts_ascending (s : List Char) : (ofText s).starts.Pairwise (· < ·) := by
  rw [starts_ofText, List.pairwise_cons]
  refine ⟨fun n hn => ?_, List.pairwise_map.2 (List.pairwise_idxsOf.imp Nat.succ_lt_succ)⟩
  obtain ⟨i, -, rfl⟩ := List.mem_map.1 hn
  exact Nat.succ_pos i

/-- The lines that have not begun begin behind. -/
theorem exists_starts_eq_append (s : List Char) (offset : Nat) :
    ∃ later, (ofText s).starts = (ofText s).begun offset ++ later ∧ ∀ n ∈ later, offset < n := by
  have hsplit := List.takeWhile_append_dropWhile (p := (· ≤ offset)) (l := (ofText s).starts)
  refine ⟨_, hsplit.symm, ?_⟩
  have hordered := (starts_ascending s).sublist (List.dropWhile_sublist (· ≤ offset))
  cases h : (ofText s).starts.dropWhile (· ≤ offset) with
  | nil => simp
  | cons next rest =>
    rw [h] at hordered
    have hnext : offset < next := by
      have hstop := List.head?_dropWhile_not (· ≤ offset) (ofText s).starts
      rw [h] at hstop
      simpa using hstop
    intro n hn
    rcases List.mem_cons.1 hn with rfl | hn
    · exact hnext
    · exact Nat.lt_trans hnext ((List.pairwise_cons.1 hordered).1 n hn)

/-- The position of an offset, its line looked up in the table. -/
def search (index : LineIndex) (offset : Nat) : Position :=
  let line := max (bisect (· ≤ offset) index.starts 0 index.starts.length) 1 - 1
  { line := UInt32.ofNat line + 1
    column := UInt32.ofNat (offset - index.starts.getD line 0) + 1 }

theorem search_eq_position (s : List Char) (offset : Nat) :
    (ofText s).search offset = (ofText s).position offset := by
  obtain ⟨later, hstarts, hlater⟩ := exists_starts_eq_append s offset
  have hlines := length_begun_ofText s offset
  have hfound : bisect (· ≤ offset) (ofText s).starts 0 (ofText s).starts.length =
      ((ofText s).begun offset).length := by
    rw [hstarts]
    refine bisect_eq (fun n hn => List.mem_takeWhile_imp hn) (fun n hn => ?_) (Nat.zero_le _)
      (by rw [List.length_append]; exact Nat.le_add_right ..) (Nat.le_refl _)
    simpa using hlater n hn
  have hlast : (ofText s).starts.getD (((ofText s).begun offset).length - 1) 0 =
      ((ofText s).begun offset).getLast?.getD 0 := by
    rw [List.getLast?_eq_getElem?, List.getD_eq_getElem?_getD, hstarts,
      List.getElem?_append_left (by omega)]
  rw [search, hfound, Nat.max_eq_left (by omega), hlast, position_eq]
  congr 1
  · rw [← UInt32.ofNat_one, ← UInt32.ofNat_add, Nat.sub_add_cancel (by omega)]
  · rw [UInt32.ofNat_add]
    rfl

/-! ## Positions -/

theorem lineStart_le (s : List Char) (offset : Nat) :
    lineStart ((bytes s).take offset) ≤ offset := by
  rw [← getLast?_begun_ofText]
  exact getLast?_begun_le _ _

/-- The line of an offset is the number of line feeds before it and one. -/
theorem line_position {s : List Char} (hsize : byteLength s < 2 ^ 32 - 1) (offset : Nat) :
    ((ofText s).position offset).line.toNat = 1 + ((bytes s).take offset).count lineFeed := by
  have hlines := length_begun_le s offset
  rw [position_eq, ← length_begun_ofText, UInt32.toNat_ofNat_of_lt' (show _ < 2 ^ 32 by omega)]

/-- Its column is its distance from behind the last of them and one. -/
theorem column_position {s : List Char} (hsize : byteLength s < 2 ^ 32 - 1) {offset : Nat}
    (hoffset : offset ≤ byteLength s) :
    ((ofText s).position offset).column.toNat =
      offset - lineStart ((bytes s).take offset) + 1 := by
  rw [position_eq, ← getLast?_begun_ofText, UInt32.toNat_ofNat_of_lt' (show _ < 2 ^ 32 by omega)]

/-- In a text that is not too long, the line of an offset is the number of line feeds before it and
one, and its column its distance from behind the last of them and one, without wrapping around. It
is what halving the table of line starts finds. A later offset has a later position, by line and
then by column, and locations in a file are in the order of their offsets. -/
theorem position_of_lineFeeds {s : List Char} (hsize : byteLength s < 2 ^ 32 - 1) :
    (∀ offset ≤ byteLength s,
      let before := (bytes s).take offset
      let position := (ofText s).position offset
      position.line.toNat = 1 + before.count lineFeed ∧
        lineStart before ≤ offset ∧ position.column.toNat = offset - lineStart before + 1 ∧
        (ofText s).search offset = position) ∧
    ∀ a b, a < b → b ≤ byteLength s →
      let first := (ofText s).position a
      let second := (ofText s).position b
      (first.line < second.line ∨ first.line = second.line ∧ first.column < second.column) ∧
        ∀ file,
          compare (Location.ofPosition file first) (Location.ofPosition file second) = .lt := by
  refine ⟨fun offset hoffset => ?_, fun a b hab hb => ⟨?_, fun file => ?_⟩⟩
  · exact ⟨line_position hsize offset, lineStart_le s offset, column_position hsize hoffset,
      search_eq_position s offset⟩
  · have ha : a ≤ byteLength s := Nat.le_trans (Nat.le_of_lt hab) hb
    simp only [UInt32.lt_iff_toNat_lt, ← UInt32.toNat_inj, line_position hsize,
      column_position hsize ha, column_position hsize hb]
    rw [← length_begun_ofText, ← length_begun_ofText, ← getLast?_begun_ofText,
      ← getLast?_begun_ofText]
    refine ((ofText s).begun_lt_or_eq (Nat.le_of_lt hab)).imp_right fun heq => ⟨by rw [heq], ?_⟩
    have hstart := (ofText s).getLast?_begun_le a
    rw [← heq]
    omega
  · exact SourceFile.location_lt file hab hb hsize

/-- A line feed first and last, two of them in a row, and characters of two and three bytes. -/
def unevenLines : List Char := "\né\n\n世b\n".toList

theorem position_of_lineFeeds_unevenLines :
    byteLength unevenLines < 2 ^ 32 - 1 ∧ byteLength unevenLines = 10 ∧
      ((ofText unevenLines).position 8).line.toNat = 4 ∧
      ((ofText unevenLines).position 8).column.toNat = 4 ∧
      ((ofText unevenLines).position 10).line.toNat = 5 ∧
      (ofText unevenLines).search 10 = (ofText unevenLines).position 10 ∧
      ∀ file, compare (Location.ofPosition file ((ofText unevenLines).position 4))
        (Location.ofPosition file ((ofText unevenLines).position 5)) = .lt := by
  have hsize : byteLength unevenLines < 2 ^ 32 - 1 := by decide
  obtain ⟨hposition, horder⟩ := position_of_lineFeeds hsize
  obtain ⟨hline, -, hcolumn, -⟩ := hposition 8 (by decide)
  obtain ⟨hlast, -, -, hsearch⟩ := hposition 10 (by decide)
  refine ⟨hsize, by decide, hline, hcolumn, hlast, hsearch, ?_⟩
  exact (horder 4 5 (by decide) (by decide)).2

end LineIndex

end Text

end DeclDoc
