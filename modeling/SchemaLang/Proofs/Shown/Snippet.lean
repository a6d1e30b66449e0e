import SchemaLang.Proofs.Shown.Lines
import SchemaLang.Report.Snippet

/-!
# What a snippet shows first

* `gutter width`: the row above the lines.
* `caretRows width number column carets shown`: a line with its number, and carets from a column on in
  the row below.
* `Span.shownLine s line`: what is shown of the line on which a span starts.

A comment is cut off a line only if the span ends before it. What is left ends in no blank, so the cut
and the trimming never reach what stands before the end of the span (`isPrefix_displayedLine`).

Main statements: the first rows of a snippet are those of the line around the start of its span
(`exists_snippet_eq`); only without such a line there is nothing but the gutter (`snippet_eq_gutter`).
-/

set_option autoImplicit false

namespace SchemaLang

/-! ## Displayed lines -/

theorem lt_of_commentStartFrom {quote : Option Char} {column n : Nat} {cs : List Char}
    (h : commentStartFrom quote column cs = some n) : n < column + cs.length := by
  fun_induction commentStartFrom quote column cs <;> grind

/-- A line is displayed in full if no comment is found behind the marked columns. -/
theorem displayedLine_of_forall_lt {line : List Char} {start stop : Nat}
    (h : ∀ n ∈ commentStart? line, n < stop) : (displayedLine line start stop).text = line := by
  unfold displayedLine
  split
  · rfl
  · rename_i column hcolumn
    rw [if_pos (h column hcolumn)]

theorem displayedLine_of_le {line : List Char} {start stop n : Nat} (h : commentStart? line = some n)
    (hle : stop ≤ n) : (displayedLine line start stop).text = Text.trimEnd (line.take n) := by
  simp only [displayedLine, h]
  rw [if_neg (Nat.not_lt_of_le hle)]

/-- A line is displayed in full if the marked columns reach its end. -/
theorem displayedLine_of_length_le {line : List Char} {start stop : Nat} (h : line.length ≤ stop) :
    (displayedLine line start stop).text = line := by
  apply displayedLine_of_forall_lt
  intro n hn
  have := lt_of_commentStartFrom hn
  omega

theorem displayedLine_isPrefix (line : List Char) (start stop : Nat) :
    (displayedLine line start stop).text <+: line := by
  unfold displayedLine
  split
  · exact List.prefix_rfl
  split
  · exact List.prefix_rfl
  · exact (Text.isPrefix_trimEnd _).trans (List.take_prefix ..)

/-- What is marked and ends in no blank is displayed. -/
theorem isPrefix_displayedLine {line cs : List Char} {c : Char} {start stop : Nat}
    (hline : cs ++ [c] <+: line) (hc : Text.isBlank c = false) (hstop : cs.length < stop) :
    cs ++ [c] <+: (displayedLine line start stop).text := by
  unfold displayedLine
  split
  · exact hline
  split
  · exact hline
  · rename_i column _ hcolumn
    obtain ⟨ds, rfl⟩ := hline
    have htake : (cs ++ [c] ++ ds).take column =
        cs ++ c :: ds.take (column - (cs.length + 1)) := by
      have hlen : (cs ++ [c]).length = cs.length + 1 := by simp
      rw [List.take_append, List.take_of_length_le (by omega), hlen, List.append_assoc,
        List.singleton_append]
    rw [htake]
    exact Text.isPrefix_trimEnd_append hc

/-! ## Rows -/

def gutter (width : Nat) : String := spaces width ++ " |\n"

def caretRows (width number column carets : Nat) (shown : List Char) : String :=
  alignRight width (toString number) ++ " | " ++ String.ofList shown ++ "\n" ++
    (spaces width ++ " | " ++ spaces column ++ String.ofList (List.replicate carets '^') ++ "\n")

namespace Span

variable {s : Span}

/-- A span that goes on to another line leaves the line on which it starts in full. -/
def shownLine (s : Span) (line : List Char) : List Char :=
  if s.start.line = s.stop.line then (displayedLine line 0 s.stop.column).text else line

/-- The carets below the line on which a span starts, if so much of it is shown. -/
def carets (s : Span) (length : Nat) : Nat :=
  max 1 ((if s.start.line = s.stop.line then min s.stop.column length else length) - s.start.column)

theorem carets_pos (s : Span) (length : Nat) : 0 < s.carets length :=
  Nat.lt_of_lt_of_le Nat.zero_lt_one (Nat.le_max_left ..)

theorem start_le_lastLine (s : Span) : s.start.line ≤ s.lastLine := by
  unfold lastLine
  split
  · omega
  · exact Nat.le_max_right ..

theorem lastLine_of_eq (h : s.start.line = s.stop.line) : s.lastLine = s.start.line := by
  rw [lastLine, if_neg (by omega), ← h, Nat.max_self]

theorem shownLine_isPrefix (s : Span) (line : List Char) : s.shownLine line <+: line := by
  unfold shownLine
  split
  · exact displayedLine_isPrefix ..
  · exact List.prefix_rfl

theorem snippetRows_start {line : List Char} (width : Nat)
    (hcolumn : s.start.column ≤ (s.shownLine line).length) :
    snippetRows s false width line s.start.line =
      caretRows width s.start.line s.start.column (s.carets (s.shownLine line).length)
        (s.shownLine line) := by
  have hshown : (if s.start.line = s.lastLine ∧ s.stop.line = s.start.line then
      (displayedLine line 0 s.stop.column).text else line) = s.shownLine line := by
    unfold shownLine
    by_cases h : s.start.line = s.stop.line
    · rw [if_pos h, if_pos ⟨(lastLine_of_eq h).symm, h.symm⟩]
    · rw [if_neg h, if_neg fun h' => h h'.2.symm]
  simp only [snippetRows, hshown, if_pos, Nat.min_eq_left hcolumn, caretRows, String.append_assoc]
  rfl

end Span

/-! ## Snippets -/

/-- Of the lines that a snippet shows, the one around the place where its span starts comes first. -/
theorem filter_zipIdx_lines (before after : List Char) {last : Nat}
    (h : before.count '\n' + 1 ≤ last) :
    ∃ rest, ((Text.lines (before ++ after)).zipIdx 1).filter
        (fun r => before.count '\n' + 1 ≤ r.2 && r.2 ≤ last) =
          (Text.lineAround? before after).toList.map (·, before.count '\n' + 1) ++ rest ∧
      (Text.lineAround? before after = none → rest = []) ∧
      (last = before.count '\n' + 1 → rest = []) := by
  obtain ⟨earlier, later, hlines, hearlier, hlater⟩ := Text.lines_append before after
  have hnone : (earlier.zipIdx 1).filter
      (fun r => before.count '\n' + 1 ≤ r.2 && r.2 ≤ last) = [] := by
    refine List.filter_eq_nil_iff.2 fun r hr => ?_
    obtain ⟨-, hlt, -⟩ := List.mem_zipIdx hr
    simp only [Bool.and_eq_true, decide_eq_true_eq, not_and]
    omega
  have hline : ((Text.lineAround? before after).toList.zipIdx (before.count '\n' + 1)).filter
      (fun r => before.count '\n' + 1 ≤ r.2 && r.2 ≤ last) =
        (Text.lineAround? before after).toList.map (·, before.count '\n' + 1) := by
    cases Text.lineAround? before after <;> simp [h]
  rw [hlines, List.zipIdx_append, List.zipIdx_append, List.filter_append, List.filter_append, hnone,
    hearlier, List.nil_append, Nat.add_comm 1, hline]
  refine ⟨_, rfl, fun hn => ?_, fun hl => ?_⟩
  · rw [hlater hn]
    rfl
  · refine List.filter_eq_nil_iff.2 fun r hr => ?_
    obtain ⟨hle, -, -⟩ := List.mem_zipIdx hr
    cases hl' : Text.lineAround? before after with
    | none =>
      rw [hlater hl'] at hr
      cases hr
    | some line =>
      rw [hl'] at hle
      simp only [Option.toList_some, List.length_singleton] at hle
      simp only [Bool.and_eq_true, decide_eq_true_eq, not_and]
      omega

section Snippet

variable {text : String} {before after : List Char} {s : Span}

/-- A snippet starts with the row of the line around the start of its span, if enough of it is shown. It
ends with the row of carets if the span ends on the same line. -/
theorem exists_snippet_eq (htext : text.toList = before ++ after) (hstart : s.start = .behind before)
    {line : List Char} (hline : Text.lineAround? before after = some line)
    (hcolumn : s.start.column ≤ (s.shownLine line).length) :
    ∃ rest, snippet (some text) s false = gutter (toString s.lastLine).length ++
        caretRows (toString s.lastLine).length s.start.line s.start.column
          (s.carets (s.shownLine line).length) (s.shownLine line) ++ rest ∧
      (s.start.line = s.stop.line → rest = "") := by
  have hle := s.start_le_lastLine
  have hnumber : s.start.line = before.count '\n' + 1 := by rw [hstart]; rfl
  obtain ⟨rest, hrest, -, hone⟩ := filter_zipIdx_lines before after (hnumber ▸ hle)
  refine ⟨String.join (rest.map fun r =>
    snippetRows s false (toString s.lastLine).length r.1 r.2), ?_, fun heq => ?_⟩
  · rw [← hnumber, hline] at hrest
    simp only [snippet, htext, hrest, Option.toList_some, List.map_cons, List.map_nil,
      List.singleton_append, String.join_cons, Span.snippetRows_start _ hcolumn, gutter,
      String.append_assoc]
  · rw [hone ((Span.lastLine_of_eq heq).trans hnumber)]
    rfl

/-- Where no line is, there is nothing to show. -/
theorem snippet_eq_gutter (htext : text.toList = before ++ after) (hstart : s.start = .behind before)
    (hline : Text.lineAround? before after = none) :
    snippet (some text) s false = gutter (toString s.lastLine).length := by
  have hle := s.start_le_lastLine
  have hnumber : s.start.line = before.count '\n' + 1 := by rw [hstart]; rfl
  obtain ⟨rest, hrest, hnone, -⟩ := filter_zipIdx_lines before after (hnumber ▸ hle)
  rw [← hnumber, hline, hnone hline] at hrest
  simp only [snippet, htext, hrest]
  exact String.append_empty

end Snippet

end SchemaLang
