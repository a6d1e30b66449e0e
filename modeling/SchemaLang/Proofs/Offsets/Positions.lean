import SchemaLang.Proofs.Offsets.Tables
import SchemaLang.Source.Registry

/-!
# Positions of a text

* `Text.lastPart`: what stands behind the last newline.
* `Position.behind`: the position behind a text, told from the text alone.

The table of lines is searched by bisection. Up to a place it has as many entries as lines start before
the place, and all entries further on are larger (`lineOf_eq`), so the search ends at the line of the
place.

Main statements: a source answers with the byte offset of each of its places (`Source.byteOf?_eq`) and
with the position behind what stands before the place (`Source.positionAt?_eq_some_iff`); by bytes,
positions have the order of their lines and columns (`Position.compare_behind`).
-/

set_option autoImplicit false

namespace SchemaLang

/-! ## The last line of a text -/

namespace Text

/-- What stands behind the last newline, or all of the text. -/
def lastPart (cs : List Char) : List Char := (cs.reverse.takeWhile (· ≠ '\n')).reverse

theorem newline_notMem_lastPart (cs : List Char) : '\n' ∉ lastPart cs := by
  intro h
  have hall := List.all_eq_true.1 (List.all_takeWhile (p := (· ≠ '\n')) (l := cs.reverse))
  simpa using hall '\n' (List.mem_reverse.1 h)

/-- Before the last part stands nothing or a newline. -/
theorem exists_eq_append_lastPart (cs : List Char) :
    ∃ us, cs = us ++ lastPart cs ∧ (us = [] ∨ ∃ vs, us = vs ++ ['\n']) := by
  refine ⟨(cs.reverse.dropWhile (· ≠ '\n')).reverse, ?_, ?_⟩
  · rw [lastPart, ← List.reverse_append, List.takeWhile_append_dropWhile, List.reverse_reverse]
  · cases h : cs.reverse.dropWhile (· ≠ '\n') with
    | nil => exact .inl rfl
    | cons c ds =>
      have hc : c = '\n' := by
        have hne : cs.reverse.dropWhile (· ≠ '\n') ≠ [] := by
          rw [h]
          nofun
        have hnot := List.head_dropWhile_not (· ≠ '\n') hne
        simp only [h, List.head_cons] at hnot
        simpa using hnot
      subst hc
      exact .inr ⟨ds.reverse, by simp⟩

theorem lastPart_append_of_notMem (cs : List Char) {ds : List Char} (h : '\n' ∉ ds) :
    lastPart (cs ++ ds) = lastPart cs ++ ds := by
  have hds : ∀ c ∈ ds.reverse, c ≠ '\n' := by
    rintro c hc rfl
    exact h (List.mem_reverse.1 hc)
  rw [lastPart, List.reverse_append, List.takeWhile_append_of_pos (by simpa using hds),
    List.reverse_append, List.reverse_reverse, lastPart]

end Text

/-- The position behind a text: one line for each newline and one more, and a column for each code
point behind the last newline. -/
def Position.behind (before : List Char) : Position :=
  ⟨before.count '\n' + 1, (Text.lastPart before).length, String.utf8Len before⟩

/-! ## Byte offsets -/

namespace Source

variable (s : Source)

theorem codePointCount_eq_size : s.codePointCount = s.size := by
  rw [s.codePointCount_eq, s.codePointBytes_eq, size]
  by_cases h : isAscii s.text = true
  · rw [if_pos h, ← utf8Len_toList, utf8Len_eq_length (isAscii_iff.1 h), String.length_toList]
  · rw [if_neg h, if_neg h, List.size_toArray, length_byteOffsets, String.length_toList]
    rfl

/-- With and without a table, the byte offset of a place is the length of what stands before it. -/
theorem byteOf?_eq (i : Nat) : s.byteOf? i =
    if i ≤ s.size then some (String.utf8Len (s.text.toList.take i)) else none := by
  unfold byteOf?
  rw [codePointCount_eq_size]
  by_cases hi : i ≤ s.size
  · rw [if_neg (by omega), if_pos hi, s.codePointBytes_eq]
    by_cases h : isAscii s.text = true
    · have htake : ∀ c ∈ s.text.toList.take i, c.toNat < 0x80 := fun c hc =>
        isAscii_iff.1 h c (List.mem_of_mem_take hc)
      have hlen : i ≤ s.text.toList.length := by rwa [String.length_toList]
      simp [h, utf8Len_eq_length htake, Nat.min_eq_left hlen]
    · have hne : (byteOffsets 0 s.text.toList) ≠ [] := by
        cases s.text.toList <;> simp [byteOffsets]
      have hlen : i ≤ s.text.toList.length := by rwa [String.length_toList]
      simp [h, hne, getElem?_byteOffsets, hlen]
  · rw [if_pos (by omega), if_neg hi]

/-! ## Lines -/

/-- What the table of lines holds up to a place and behind it. -/
theorem lineStarts_eq_append {before after : List Char} (h : s.text.toList = before ++ after) :
    s.lineStarts.toList =
      (0 :: newlineEnds 0 before) ++ newlineEnds (String.utf8Len before) after := by
  rw [s.lineStarts_eq, lineStarts_textBytes, h, newlineEnds_append, Nat.zero_add]
  rfl

theorem pairwise_lineStarts : s.lineStarts.toList.Pairwise (· < ·) := by
  rw [s.lineStarts_eq, lineStarts_textBytes]
  exact List.pairwise_cons.2 ⟨fun x hx => (bounds_of_mem_newlineEnds hx).1, pairwise_newlineEnds _ _⟩

variable {s}

/-- Lines that start up to a place are as many as the newlines before it, and one more. -/
theorem lineStart_le_iff {before after : List Char} (h : s.text.toList = before ++ after) {i x : Nat}
    (hx : s.lineStarts[i]? = some x) : x ≤ String.utf8Len before ↔ i ≤ before.count '\n' := by
  rw [← Array.getElem?_toList, s.lineStarts_eq_append h] at hx
  have hlen : (0 :: newlineEnds 0 before).length = before.count '\n' + 1 := by
    rw [List.length_cons, length_newlineEnds]
  constructor
  · intro hle
    by_contra hn
    rw [List.getElem?_append_right (by omega)] at hx
    have := bounds_of_mem_newlineEnds (List.mem_of_getElem? hx)
    omega
  · intro hle
    rw [List.getElem?_append_left (by omega)] at hx
    rcases List.mem_cons.1 (List.mem_of_getElem? hx) with rfl | hx
    · exact Nat.zero_le _
    · have := bounds_of_mem_newlineEnds hx
      omega

theorem exists_lineStart {before after : List Char} (h : s.text.toList = before ++ after) :
    ∃ x, s.lineStarts[before.count '\n']? = some x := by
  refine ⟨_, Array.getElem?_eq_getElem ?_⟩
  rw [← Array.length_toList, s.lineStarts_eq_append h, List.length_append, List.length_cons,
    length_newlineEnds]
  omega

/-- The line of a place starts behind the last newline before it. -/
theorem lineStart_eq {before after : List Char} (h : s.text.toList = before ++ after) :
    s.lineStarts[before.count '\n']? =
      some (String.utf8Len before - String.utf8Len (Text.lastPart before)) := by
  obtain ⟨us, hus, hend⟩ := Text.exists_eq_append_lastPart before
  have hcount : before.count '\n' = us.count '\n' := by
    conv_lhs => rw [hus]
    rw [List.count_append, List.count_eq_zero_of_not_mem (Text.newline_notMem_lastPart before),
      Nat.add_zero]
  have hlen : String.utf8Len before - String.utf8Len (Text.lastPart before) = String.utf8Len us := by
    conv_lhs => rw [hus]
    rw [String.utf8Len_append, ← hus]
    omega
  have htext : s.text.toList = us ++ (Text.lastPart before ++ after) := by
    rw [h, ← List.append_assoc, ← hus]
  rw [hcount, hlen, ← Array.getElem?_toList, s.lineStarts_eq_append htext]
  rcases hend with rfl | ⟨vs, rfl⟩
  · rfl
  · rw [newlineEnds_append, ← List.cons_append, List.append_assoc,
      List.getElem?_append_right (by simp [length_newlineEnds])]
    have hsize : '\n'.utf8Size = 1 := by decide
    simp [length_newlineEnds, newlineEnds, hsize]

/-- The search for a place ends at its line. -/
theorem lineOf_eq {before after : List Char} (h : s.text.toList = before ++ after) :
    s.lineOf (String.utf8Len before) = before.count '\n' := by
  obtain ⟨x, hx⟩ := exists_lineStart h
  have hxle := (lineStart_le_iff h hx).2 (Nat.le_refl _)
  unfold lineOf
  cases hb : bisect s.lineStarts (String.utf8Len before) with
  | found i =>
    have hi := bisect_found hb
    have hle := (lineStart_le_iff h hi).1 (Nat.le_refl _)
    refine Nat.le_antisymm hle (Nat.le_of_not_lt fun hlt => ?_)
    rw [← Array.getElem?_toList, List.getElem?_eq_some_iff] at hi hx
    obtain ⟨hi, hival⟩ := hi
    obtain ⟨hx, hxval⟩ := hx
    have := List.pairwise_iff_getElem.1 s.pairwise_lineStarts i _ hi hx hlt
    omega
  | missing i =>
    obtain ⟨hsize, hlow, hafter⟩ := bisect_missing s.pairwise_lineStarts hb
    have hlt : before.count '\n' < i := by
      by_contra hn
      have := hafter _ x (by omega) hx
      omega
    have hge : ¬ before.count '\n' + 1 < i := by
      intro hlt
      have hy : s.lineStarts[i - 1]? = some s.lineStarts[i - 1] := Array.getElem?_eq_getElem (by omega)
      have := (lineStart_le_iff h hy).1 (Nat.le_of_lt (hlow _ _ (by omega) hy))
      omega
    show i - 1 = _
    omega

/-! ## Positions -/

/-- A byte offset is one of a place if it is the length of what stands before. -/
theorem isValid_iff {text : String} {byte : Nat} :
    String.Pos.Raw.isValid text ⟨byte⟩ = true ↔
      ∃ before, before <+: text.toList ∧ String.utf8Len before = byte := by
  rw [String.Pos.Raw.isValid_eq_true_iff, String.Pos.Raw.isValid_iff_exists_take_toList]
  constructor
  · rintro ⟨i, hi⟩
    exact ⟨_, List.take_prefix i _, by rw [← String.utf8ByteSize_ofList, ← hi]⟩
  · rintro ⟨before, hbefore, rfl⟩
    refine ⟨before.length, ?_⟩
    rw [← List.prefix_iff_eq_take.1 hbefore, String.utf8ByteSize_ofList]

theorem positionAt?_utf8Len {before : List Char} (h : before <+: s.text.toList) :
    s.positionAt? (String.utf8Len before) = some (.behind before) := by
  obtain ⟨after, hafter⟩ := h
  have hvalid := isValid_iff.2 ⟨before, ⟨after, hafter⟩, rfl⟩
  obtain ⟨us, hus, -⟩ := Text.exists_eq_append_lastPart before
  have hbytes : String.utf8Len before =
      String.utf8Len us + String.utf8Len (Text.lastPart before) := by
    conv_lhs => rw [hus]
    rw [String.utf8Len_append]
  -- the column counts the code points from the start of the line
  have hextract : String.Pos.Raw.extract s.text
      ⟨String.utf8Len before - String.utf8Len (Text.lastPart before)⟩ ⟨String.utf8Len before⟩ =
        String.ofList (Text.lastPart before) := by
    have htext : s.text = String.ofList (us ++ Text.lastPart before ++ after) := by
      rw [← hus, hafter, String.ofList_toList]
    rw [hbytes, Nat.add_sub_cancel, htext]
    exact String.extract_of_valid us (Text.lastPart before) after
  have hline := lineOf_eq hafter.symm
  have hstart : s.lineStarts.getD (before.count '\n') 0 =
      String.utf8Len before - String.utf8Len (Text.lastPart before) := by
    rw [Array.getD_eq_getD_getElem?, lineStart_eq hafter.symm, Option.getD_some]
  unfold positionAt?
  rw [if_pos hvalid]
  simp only [hline, hstart, hextract, String.length_ofList]
  rfl

/-- A byte offset has a position exactly if it is one of a place, and the position is the one behind
what stands before the place. -/
theorem positionAt?_eq_some_iff {byte : Nat} {p : Position} : s.positionAt? byte = some p ↔
    ∃ before, before <+: s.text.toList ∧ String.utf8Len before = byte ∧ p = .behind before := by
  constructor
  · intro h
    by_cases hvalid : String.Pos.Raw.isValid s.text ⟨byte⟩ = true
    · obtain ⟨before, hbefore, rfl⟩ := isValid_iff.1 hvalid
      rw [positionAt?_utf8Len hbefore] at h
      exact ⟨before, hbefore, rfl, (Option.some.inj h).symm⟩
    · unfold positionAt? at h
      rw [if_neg hvalid] at h
      cases h
  · rintro ⟨before, hbefore, rfl, rfl⟩
    exact positionAt?_utf8Len hbefore

end Source

/-! ## The order of positions -/

theorem utf8Len_pos {cs : List Char} (h : cs ≠ []) : 0 < String.utf8Len cs := by
  cases cs with
  | nil => exact absurd rfl h
  | cons c cs =>
    have := c.utf8Size_pos
    rw [String.utf8Len_cons]
    omega

/-- Behind more of a text, the bytes are more, and the line is a later one or the column is. -/
theorem Position.compare_behind_append (before : List Char) {between : List Char}
    (h : between ≠ []) :
    compare (behind before) (behind (before ++ between)) = .lt ∧
      (compare (behind before).line (behind (before ++ between)).line).then
        (compare (behind before).column (behind (before ++ between)).column) = .lt := by
  constructor
  · have hpos := utf8Len_pos h
    show compare (behind before).byte (behind (before ++ between)).byte = .lt
    refine Nat.compare_eq_lt.2 ?_
    simp only [behind, String.utf8Len_append]
    omega
  by_cases hn : '\n' ∈ between
  · have hlt : (behind before).line < (behind (before ++ between)).line := by
      have := List.count_pos_iff.2 hn
      simp only [behind, List.count_append]
      omega
    rw [Nat.compare_eq_lt.2 hlt]
    rfl
  · have hline : (behind (before ++ between)).line = (behind before).line := by
      simp only [behind, List.count_append, List.count_eq_zero_of_not_mem hn, Nat.add_zero]
    have hcolumn : (behind before).column < (behind (before ++ between)).column := by
      have := List.length_pos_iff.2 h
      simp only [behind, Text.lastPart_append_of_notMem _ hn, List.length_append]
      omega
    rw [hline, Nat.compare_eq_eq.2 rfl, Nat.compare_eq_lt.2 hcolumn]
    rfl

/-- Places of one text have the same order by bytes and by lines and columns. -/
theorem Position.compare_behind {before before' cs : List Char} (h : before <+: cs)
    (h' : before' <+: cs) :
    compare (behind before) (behind before') =
      (compare (behind before).line (behind before').line).then
        (compare (behind before).column (behind before').column) := by
  have hswap (p q : Position) : compare p q = (compare q p).swap := (Nat.compare_swap ..).symm
  rcases List.prefix_or_prefix_of_prefix h h' with ⟨between, rfl⟩ | ⟨between, rfl⟩
  · by_cases hb : between = []
    · subst hb
      rw [List.append_nil, Nat.compare_eq_eq.2 rfl, Nat.compare_eq_eq.2 rfl]
      exact Nat.compare_eq_eq.2 rfl
    · obtain ⟨hbyte, hplace⟩ := compare_behind_append before hb
      rw [hbyte, hplace]
  · by_cases hb : between = []
    · subst hb
      rw [List.append_nil, Nat.compare_eq_eq.2 rfl, Nat.compare_eq_eq.2 rfl]
      exact Nat.compare_eq_eq.2 rfl
    · obtain ⟨hbyte, hplace⟩ := compare_behind_append before' hb
      rw [hswap, hbyte, ← Nat.compare_swap (behind before').line,
        ← Nat.compare_swap (behind before').column, ← Ordering.swap_then, hplace]

end SchemaLang
