import SchemaLang.Proofs.Offsets.Positions
import SchemaLang.Text.Lines

/-!
# The line of a place

* `Text.around before after`: the stretch between newlines that a place of a text is in, from what stands
  before the place and behind it.
* `Text.lineAround? before after`: the same as a reader counts lines, if it is one of them.

A text of lines is cut at a newline into two texts of lines (`Text.lines_append_newline`). So the pieces
before a place are as many as the newlines there, and the next piece is the one around the place.

Main statements: `Text.getElem?_pieces` and `Text.lines_append`. Only an empty stretch at the end of the
text is no line (`Text.lineAround?_eq_none_iff`), and what ends in no blank is in its line
(`Text.exists_lineAround?_eq`).
-/

set_option autoImplicit false

namespace SchemaLang.Text

variable {before after : List Char}

/-! ## Pieces -/

theorem pieces_append_newline (as bs : List Char) :
    pieces (as ++ '\n' :: bs) = pieces as ++ pieces bs := by
  induction as with
  | nil => simp [pieces]
  | cons a as ih =>
    obtain ⟨p, ps, hp⟩ := List.exists_cons_of_ne_nil (pieces_ne_nil as)
    rw [hp, List.cons_append] at ih
    by_cases ha : a = '\n'
    · simp [pieces, ha, hp, ih]
    · simp [pieces, ha, hp, ih]

theorem pieces_of_notMem {cs : List Char} (h : '\n' ∉ cs) : pieces cs = [cs] := by
  induction cs with
  | nil => rfl
  | cons c cs ih =>
    have hc : c ≠ '\n' := fun hc => h (hc ▸ List.mem_cons_self ..)
    rw [pieces, if_neg hc, ih fun hmem => h (List.mem_cons_of_mem c hmem)]

theorem length_pieces (cs : List Char) : (pieces cs).length = cs.count '\n' + 1 := by
  induction cs with
  | nil => rfl
  | cons c cs ih =>
    obtain ⟨p, ps, hp⟩ := List.exists_cons_of_ne_nil (pieces_ne_nil cs)
    rw [hp, List.length_cons] at ih
    by_cases hc : c = '\n'
    · simp [pieces, hc, hp, ih]
    · simp [pieces, hc, hp, ih]

/-- The first piece ends before the first newline. -/
theorem head?_pieces (cs : List Char) : (pieces cs).head? = some (cs.takeWhile (· ≠ '\n')) := by
  induction cs with
  | nil => rfl
  | cons c cs ih =>
    obtain ⟨p, ps, hp⟩ := List.exists_cons_of_ne_nil (pieces_ne_nil cs)
    rw [hp, List.head?_cons, Option.some_inj] at ih
    by_cases hc : c = '\n'
    · simp [pieces, hc]
    · simp [pieces, hc, hp, ih]

/-! ## Lines -/

theorem lines_append_newline (as bs : List Char) :
    lines (as ++ '\n' :: bs) = (pieces as).map dropReturn ++ lines bs := by
  have hne := pieces_ne_nil bs
  simp only [lines, pieces_append_newline, List.dropLast_append_of_ne_nil hne, List.map_append,
    List.getLast?_append_of_ne_nil _ hne, List.append_assoc]

theorem lines_of_notMem {cs : List Char} (h : '\n' ∉ cs) :
    lines cs = if cs.isEmpty then [] else [cs] := by
  rw [lines, pieces_of_notMem h]
  cases cs <;> rfl

def around (before after : List Char) : List Char :=
  lastPart before ++ after.takeWhile (· ≠ '\n')

/-- A newline ends a line, and so does the end of the text behind at least one character. -/
def lineAround? (before after : List Char) : Option (List Char) :=
  if '\n' ∈ after then some (dropReturn (around before after))
  else if (around before after).isEmpty then none
  else some (around before after)

theorem takeWhile_append_of_notMem {as : List Char} (h : '\n' ∉ as) (bs : List Char) :
    (as ++ bs).takeWhile (· ≠ '\n') = as ++ bs.takeWhile (· ≠ '\n') := by
  refine List.takeWhile_append_of_pos fun c hc => ?_
  have : c ≠ '\n' := fun he => h (he ▸ hc)
  simpa using this

theorem around_append_newline (before : List Char) {as : List Char} (h : '\n' ∉ as) (bs : List Char) :
    around before (as ++ '\n' :: bs) = lastPart before ++ as := by
  rw [around, takeWhile_append_of_notMem h]
  simp

theorem around_of_notMem (h : '\n' ∉ after) : around before after = lastPart before ++ after := by
  have := takeWhile_append_of_notMem h []
  rw [around]
  simpa using this

/-- A text is its last part, or it has that part behind a newline. -/
theorem lastPart_cases (before : List Char) :
    (lastPart before = before ∧ before.count '\n' = 0) ∨
      ∃ vs, before = vs ++ '\n' :: lastPart before ∧ before.count '\n' = (pieces vs).length := by
  have hlast := newline_notMem_lastPart before
  obtain ⟨us, hus, rfl | ⟨vs, rfl⟩⟩ := exists_eq_append_lastPart before
  · rw [List.nil_append] at hus
    exact .inl ⟨hus.symm, List.count_eq_zero_of_not_mem (hus ▸ hlast)⟩
  · rw [List.append_assoc, List.singleton_append] at hus
    refine .inr ⟨vs, hus, ?_⟩
    conv_lhs => rw [hus]
    rw [List.count_append, List.count_cons_self, List.count_eq_zero_of_not_mem hlast, length_pieces]

/-- The lines before the last part of a text are as many as its newlines. -/
theorem lines_append_lastPart (before after : List Char) :
    ∃ earlier, lines (before ++ after) = earlier ++ lines (lastPart before ++ after) ∧
      earlier.length = before.count '\n' := by
  rcases lastPart_cases before with ⟨hlast, hcount⟩ | ⟨vs, hvs, hcount⟩
  · exact ⟨[], by rw [hlast]; rfl, hcount.symm⟩
  · refine ⟨(pieces vs).map dropReturn, ?_, by rw [List.length_map, hcount]⟩
    conv_lhs => rw [hvs]
    rw [List.append_assoc, List.cons_append, lines_append_newline]

theorem lines_lastPart_append (before after : List Char) :
    ∃ later, lines (lastPart before ++ after) = (lineAround? before after).toList ++ later ∧
      (lineAround? before after = none → later = []) := by
  have hlast := newline_notMem_lastPart before
  by_cases hn : '\n' ∈ after
  · rw [lineAround?, if_pos hn]
    obtain ⟨as, bs, rfl, has⟩ := List.eq_append_cons_of_mem hn
    refine ⟨lines bs, ?_, nofun⟩
    rw [around_append_newline before has, ← List.append_assoc, lines_append_newline, pieces_of_notMem (by simp [hlast, has])]
    rfl
  · refine ⟨[], ?_, fun _ => rfl⟩
    rw [lineAround?, if_neg hn, around_of_notMem hn, lines_of_notMem (by simp [hlast, hn])]
    split <;> rfl

/-- Before the line around a place there are as many lines as newlines. Behind it there may be more. -/
theorem lines_append (before after : List Char) :
    ∃ earlier later, lines (before ++ after) =
        earlier ++ ((lineAround? before after).toList ++ later) ∧
      earlier.length = before.count '\n' ∧ (lineAround? before after = none → later = []) := by
  obtain ⟨earlier, hearlier, hlength⟩ := lines_append_lastPart before after
  obtain ⟨later, hlater, hnone⟩ := lines_lastPart_append before after
  exact ⟨earlier, later, by rw [hearlier, hlater], hlength, hnone⟩

theorem getElem?_pieces (before after : List Char) :
    (pieces (before ++ after))[before.count '\n']? = some (around before after) := by
  have hhead : (pieces (lastPart before ++ after))[0]? = some (around before after) := by
    rw [← List.head?_eq_getElem?, head?_pieces,
      takeWhile_append_of_notMem (newline_notMem_lastPart before), around]
  rcases lastPart_cases before with ⟨hlast, hcount⟩ | ⟨vs, hvs, hcount⟩
  · rwa [hlast, ← hcount] at hhead
  · conv_lhs => rw [hcount, hvs]
    rw [List.append_assoc, List.cons_append, pieces_append_newline,
      List.getElem?_append_right (Nat.le_refl _), Nat.sub_self, hhead]

/-! ## Stretches of a line -/

theorem lineAround?_eq_none_iff :
    lineAround? before after = none ↔ lastPart before = [] ∧ after = [] := by
  unfold lineAround?
  split
  · rename_i hn
    refine iff_of_false nofun ?_
    rintro ⟨-, rfl⟩
    cases hn
  · rename_i hn
    split
    · rename_i he
      rw [around, List.isEmpty_iff, List.append_eq_nil_iff] at he
      refine iff_of_true rfl ⟨he.1, ?_⟩
      cases after with
      | nil => rfl
      | cons c cs =>
        have hc : c ≠ '\n' := fun h => hn (h ▸ List.mem_cons_self ..)
        simp [hc] at he
    · rename_i he
      refine iff_of_false nofun ?_
      rintro ⟨hlast, rfl⟩
      exact he (by simp [around, hlast])

/-- Only a carriage return at the very end is dropped. -/
theorem isPrefix_dropReturn_append {as bs : List Char} {c : Char} (h : c ≠ '\r') :
    as ++ [c] <+: dropReturn (as ++ c :: bs) := by
  unfold dropReturn
  split
  · rename_i hlast
    cases bs with
    | nil => simp [h] at hlast
    | cons b bs =>
      rw [List.dropLast_append_of_ne_nil (by simp), List.dropLast_cons_cons]
      exact ⟨_, by rw [List.append_assoc]; rfl⟩
  · exact ⟨bs, by simp⟩

theorem isPrefix_trimEnd_append {as bs : List Char} {c : Char} (h : isBlank c = false) :
    as ++ [c] <+: trimEnd (as ++ c :: bs) := by
  have hdrop : (bs.reverse ++ c :: as.reverse).dropWhile isBlank =
      bs.reverse.dropWhile isBlank ++ c :: as.reverse := by
    rw [List.dropWhile_append, List.dropWhile_cons_of_neg (by simp [h])]
    split
    · rename_i hnil
      rw [List.isEmpty_iff.1 hnil]
      rfl
    · rfl
  rw [trimEnd, dropEndWhile, List.reverse_append, List.reverse_cons, List.append_assoc,
    List.singleton_append, hdrop]
  exact ⟨(bs.reverse.dropWhile isBlank).reverse, by simp⟩

theorem isPrefix_dropReturn (cs : List Char) : dropReturn cs <+: cs := by
  unfold dropReturn
  split
  · exact List.dropLast_prefix cs
  · exact List.prefix_rfl

theorem isPrefix_trimEnd (cs : List Char) : trimEnd cs <+: cs := by
  have h := List.reverse_prefix.2 (List.dropWhile_suffix isBlank (l := cs.reverse))
  rwa [List.reverse_reverse] at h

theorem isPrefix_around {line : List Char} (h : lineAround? before after = some line) :
    line <+: around before after := by
  unfold lineAround? at h
  split at h
  · cases h
    exact isPrefix_dropReturn _
  split at h
  · cases h
  · cases h
    exact List.prefix_rfl

/-- What stands behind a place up to the next newline is in the line around the place, as far as it
ends in no blank. -/
theorem exists_lineAround?_eq (before cs after : List Char) {c : Char} (hcs : '\n' ∉ cs)
    (hc : isBlank c = false) :
    ∃ line, lineAround? before (cs ++ c :: after) = some line ∧
      lastPart before ++ cs ++ [c] <+: line := by
  have hne : c ≠ '\n' ∧ c ≠ '\r' := by
    constructor <;> rintro rfl <;> revert hc <;> decide
  have haround : around before (cs ++ c :: after) =
      lastPart before ++ cs ++ c :: after.takeWhile (· ≠ '\n') := by
    rw [around, takeWhile_append_of_notMem hcs, List.takeWhile_cons_of_pos (by simpa using hne.1),
      List.append_assoc]
  rw [lineAround?, haround]
  split
  · exact ⟨_, rfl, isPrefix_dropReturn_append hne.2⟩
  · rw [if_neg (by simp)]
    exact ⟨_, rfl, _, by rw [List.append_assoc]; rfl⟩

end SchemaLang.Text
