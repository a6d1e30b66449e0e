import Mathlib.Data.List.Find
import SchemaLang.Proofs.Shown.Comments

/-!
# Lines in step

* `IsLine text first line`: the line `line` of the text starts at `first`.
* `InStep text first stop`: on the line from `first` to `stop` neither a regular expression nor the end of a
  comment has a quote or a mark of a comment in it.
* `firstComment? text first`: the first comment that starts at `first` or behind it.

The search for a comment starts at the start of the line. There the lexer is between two tokens, or in a run of
blanks, or in a comment.

Main statement: the search finds the first comment of a line in step (`commentStart?_eq`).
-/

set_option autoImplicit false

namespace SchemaLang

/-! ## Lines of a text -/

structure IsLine (text : String) (first : Nat) (line : List Char) : Prop where
  first_le : first ≤ text.length
  starts : first = 0 ∨ (text.toList.take first).getLast? = some '\n'
  drop_eq : ∃ behind, text.toList.drop first = line ++ behind ∧ AtLineEnd behind

namespace Text

variable {before after line : List Char}

/-- Behind a line the text has ended, or the line end stands there. -/
theorem exists_eq_append_line (h : lineAround? before after = some line) :
    ∃ behind, lastPart before ++ after = line ++ behind ∧ AtLineEnd behind := by
  unfold lineAround? at h
  split at h
  · rename_i hmem
    obtain ⟨as, bs, rfl, has⟩ := List.eq_append_cons_of_mem hmem
    rw [around_append_newline before has, Option.some_inj, dropReturn] at h
    rw [← List.append_assoc]
    split at h
    · rename_i hreturn
      obtain ⟨ds, hds⟩ := List.getLast?_eq_some_iff.1 hreturn
      rw [hds, List.dropLast_concat] at h
      subst h
      refine ⟨'\r' :: '\n' :: bs, ?_, by simp [AtLineEnd, untilLineEnd]⟩
      rw [hds, List.append_assoc, List.singleton_append]
    · subst h
      exact ⟨'\n' :: bs, rfl, by simp [AtLineEnd, untilLineEnd]⟩
  · rename_i hmem
    split at h
    · cases h
    · rw [around_of_notMem hmem, Option.some_inj] at h
      subst h
      exact ⟨[], by rw [List.append_nil], rfl⟩

end Text

theorem isLine_of_lineAround {text : String} {before after line : List Char}
    (htext : text.toList = before ++ after) (h : Text.lineAround? before after = some line) :
    IsLine text (before.length - (Text.lastPart before).length) line := by
  obtain ⟨us, hus, hstarts⟩ := Text.exists_eq_append_lastPart before
  have hlength := congrArg List.length hus
  rw [List.length_append] at hlength
  have hfirst : before.length - (Text.lastPart before).length = us.length := by omega
  have hsize := congrArg List.length htext
  rw [String.length_toList, List.length_append] at hsize
  rw [hus, List.append_assoc] at htext
  rw [hfirst]
  refine ⟨by omega, ?_, ?_⟩
  · rcases hstarts with rfl | ⟨vs, rfl⟩
    · exact .inl rfl
    · right
      rw [htext, List.take_left, List.getLast?_concat]
  · rw [htext, List.drop_left]
    exact Text.exists_eq_append_line h

/-! ## The lexer at the start of a line -/

def InStep (text : String) (first stop : Nat) : Prop :=
  ∀ t ∈ (tokenize text).1,
    (t.kind = .regexLit → first ≤ t.start → t.start < stop →
      Unmarked (text.toList.drop t.stop) t.text.toList) ∧
    (t.isComment = true → t.start < first → first < t.stop →
      Unmarked (text.toList.drop t.stop) ((text.toList.take t.stop).drop first))

instance InStep.decide (text : String) (first stop : Nat) : Decidable (InStep text first stop) :=
  inferInstanceAs (Decidable (∀ t ∈ (tokenize text).1, _ ∧ _))

namespace Lexer

variable {text : String} {l : Lexer} {t : Token} {first : Nat}

theorem isSpace_of_mem_tokens (ht : t ∈ l.tokens) (hhidden : t.isHidden = true)
    (hcomment : t.isComment = false) : ∀ d ∈ t.text.toList, isSpace d = true := by
  obtain ⟨s, hs, rfl⟩ := List.mem_map.1 ht
  revert hhidden hcomment
  refine forall_mem_steps (I := fun _ => True) (P := fun s => s.token.isHidden = true →
    s.token.isComment = false → ∀ d ∈ s.token.text.toList, isSpace d = true)
    (fun _ _ => trivial) (fun l _ hhidden hcomment => ?_) trivial s hs
  by_cases hr : l.rest = []
  · rw [next_of_rest_eq_nil hr] at hhidden
    cases hhidden
  · exact isSpace_of_hidden hr hhidden hcomment

/-- A lexer comes to a token that starts at a place, or behind it over a token that the place is in. -/
theorem Reads.exists_lexer_from (hl : l.Reads text) (hclean : l.faults = []) (hle : l.offset ≤ first)
    (hfirst : first ≤ text.length) : ∃ (m : Lexer) (earlier : List Token),
      l.tokens = earlier ++ m.tokens ∧ m.Reads text ∧ m.faults = [] ∧ first ≤ m.offset ∧
        (∀ u ∈ earlier, u.start < first) ∧
        (m.offset = first ∨ ∃ u ∈ earlier, u.stop = m.offset ∧ first < u.stop) := by
  induction l using next_induction with
  | atEnd l hr =>
    have hlength := hl.length_rest
    rw [hr, List.length_nil, Nat.add_zero] at hlength
    exact ⟨l, [], rfl, hl, hclean, by omega, nofun, .inl (by omega)⟩
  | next l hr ih =>
    by_cases hlt : l.offset < first
    · have htokens : l.tokens = [l.next.token] ++ l.next.lexer.tokens := by
        rw [tokens_eq, if_neg hr]
        rfl
      have hnext : l.next.lexer.faults = [] := by
        rw [faults_of_rest_ne_nil hr, List.append_eq_nil_iff] at hclean
        exact hclean.2
      have hstart := l.start_token
      by_cases hoffset : l.next.lexer.offset ≤ first
      · obtain ⟨m, earlier, hm, hreads, hfaults, hge, hearlier, hplace⟩ := ih hl.next hnext hoffset
        refine ⟨m, l.next.token :: earlier, by rw [htokens, hm]; rfl, hreads, hfaults, hge, ?_, ?_⟩
        · exact List.forall_mem_cons.2 ⟨by omega, hearlier⟩
        · exact hplace.imp_right fun ⟨u, hu, hstop⟩ => ⟨u, List.mem_cons_of_mem _ hu, hstop⟩
      · rw [offset_lexer_next] at hoffset
        refine ⟨l.next.lexer, [l.next.token], htokens, hl.next, hnext, ?_, ?_, ?_⟩
        · rw [offset_lexer_next]
          omega
        · intro u hu
          rw [List.mem_singleton.1 hu, hstart]
          exact hlt
        · exact .inr ⟨l.next.token, List.mem_singleton_self _, (offset_lexer_next l).symm, by omega⟩
    · exact ⟨l, [], rfl, hl, hclean, by omega, nofun, .inl (by omega)⟩

/-- A part of a token at its end. -/
theorem IsSlice.drop_take_stop (h : IsSlice text t) (hle : t.start ≤ first) :
    (text.toList.take t.stop).drop first = t.text.toList.drop (first - t.start) := by
  have hlt := h.start_lt
  have hstop := h.stop_le
  have hlength : (text.toList.take t.start).length = t.start := by
    rw [List.length_take, String.length_toList]
    omega
  rw [← h.append_eq, List.drop_append, hlength, List.drop_of_length_le (by omega), List.nil_append]

/-- A token that a line starts in has the newline before it. -/
theorem IsSlice.newline_mem (h : IsSlice text t) (hstart : t.start < first) (hstop : first ≤ t.stop)
    (hnewline : (text.toList.take first).getLast? = some '\n') : '\n' ∈ t.text.toList := by
  have htake : text.toList.take first = text.toList.take t.start ++ t.text.toList.take (first - t.start) := by
    have hle := h.stop_le
    have hlength : (text.toList.take t.start).length = t.start := by
      rw [List.length_take, String.length_toList]
      omega
    rw [← Nat.min_eq_left hstop, ← List.take_take, ← h.append_eq, List.take_append, hlength,
      List.take_of_length_le (by omega), Nat.min_eq_left hstop]
  have hne : t.text.toList.take (first - t.start) ≠ [] := by
    have hlength := h.stop_eq
    apply List.ne_nil_of_length_pos
    rw [List.length_take]
    omega
  rw [htake, List.getLast?_append_of_ne_nil _ hne] at hnewline
  exact (List.take_subset _ _) (List.mem_of_getLast? hnewline)

theorem faults_of_mem_steps (hclean : (tokenize text).2 = []) {s : LexStep}
    (hs : s ∈ (ofText text).steps) : s.faults = [] := by
  rw [List.eq_nil_iff_forall_not_mem]
  intro f hf
  have hmem : f ∈ (tokenize text).2 := List.mem_flatMap.2 ⟨s, hs, hf⟩
  rw [hclean] at hmem
  cases hmem

theorem isSlice_of_lt {s : LexStep} (hs : s ∈ (ofText text).steps) (hlt : s.token.start < s.token.stop) :
    s.token.kind ≠ .endOfText ∧ IsSlice text s.token := by
  rcases (reads_ofText text).token_cases s hs with h | heq
  · exact h
  · rw [heq] at hlt
    exact absurd hlt (Nat.lt_irrefl _)

/-- What is before the lexer on the line is unmarked. -/
theorem unmarked_before (hclean : (tokenize text).2 = []) {stop : Nat} (hstep : InStep text first stop)
    (hnewline : first = 0 ∨ (text.toList.take first).getLast? = some '\n') {u : Token}
    (hu : u ∈ (tokenize text).1) (hstart : u.start < first) (hstop : first < u.stop) :
    Unmarked (text.toList.drop u.stop) ((text.toList.take u.stop).drop first) := by
  obtain ⟨s, hs, rfl⟩ := List.mem_map.1 hu
  have hslice := (isSlice_of_lt hs (hstart.trans hstop)).2
  cases hcomment : s.token.isComment with
  | true => exact (hstep _ hu).2 hcomment hstart hstop
  | false =>
    cases hhidden : s.token.isHidden with
    | true =>
      rw [hslice.drop_take_stop hstart.le]
      apply unmarked_of_isPlain
      intro d hd
      exact isPlain_of_isSpace (isSpace_of_mem_tokens hu hhidden hcomment d ((List.drop_subset _ _) hd))
    | false =>
      exfalso
      have hmem := hslice.newline_mem hstart hstop.le (hnewline.resolve_left (by omega))
      have hwithin : WithinLine s.token.text.toList := by
        by_contra hn
        have hfault := (isOpenComment_of_mem_steps s hs hhidden hn).2
        rw [faults_of_mem_steps hclean hs] at hfault
        cases hfault
      exact absurd (hwithin _ hmem) (by decide)

end Lexer

def firstComment? (text : String) (first : Nat) : Option Token :=
  (tokenize text).1.find? fun c => c.isComment && first ≤ c.start

theorem firstComment?_eq_find? {text : String} {first : Nat} {earlier later : List Token}
    (htokens : (tokenize text).1 = earlier ++ later) (hearlier : ∀ u ∈ earlier, u.start < first)
    (hlater : ∀ u ∈ later, first ≤ u.start) :
    firstComment? text first = later.find? Token.isComment := by
  have hnone : (earlier.find? fun c => c.isComment && first ≤ c.start) = none := by
    rw [List.find?_eq_none]
    intro u hu
    have := hearlier u hu
    simp only [Bool.and_eq_true, decide_eq_true_eq, not_and]
    omega
  rw [firstComment?, htokens, List.find?_append, hnone, Option.none_or]
  apply List.find?_congr
  intro u hu
  rw [decide_eq_true (hlater u hu), Bool.and_true]

/-- **Two recognisers of comments.** On a line in step, with a token on it, the search finds the first
comment that starts there. -/
theorem commentStart?_eq {text : String} (hclean : (tokenize text).2 = []) {first : Nat}
    {line : List Char} (hline : IsLine text first line)
    (hstep : InStep text first (first + line.length)) {t : Token} (ht : t ∈ (tokenize text).1)
    (hstart : first ≤ t.start) (hstop : t.start ≤ first + line.length) :
    commentStart? line = ((firstComment? text first).filter fun c => c.start < first + line.length).map
      fun c => c.start - first := by
  have hreads := Lexer.reads_ofText text
  obtain ⟨behind, hdrop, hbehind⟩ := hline.drop_eq
  obtain ⟨m, earlier, htokens, hm, hfaults, hge, hearlier, hplace⟩ :=
    hreads.exists_lexer_from hclean (Nat.zero_le first) hline.first_le
  have htokens : (tokenize text).1 = earlier ++ m.tokens := htokens
  have hoffset : ∀ u ∈ m.tokens, m.offset ≤ u.start := by
    intro u hu
    obtain ⟨s, hs, rfl⟩ := List.mem_map.1 hu
    exact Lexer.offset_le_of_mem_steps s hs
  -- the token is not before the lexer, so the line goes on there
  have hle : m.offset - first ≤ line.length := by
    rw [htokens] at ht
    rcases List.mem_append.1 ht with ht | ht
    · exact absurd (hearlier t ht) (Nat.not_lt_of_le hstart)
    · have := hoffset t ht
      omega
  generalize hk : m.offset - first = k at hle
  have hplus : m.offset = first + k := by omega
  have hlength : (line.drop k).length = line.length - k := List.length_drop ..
  have hrest : m.rest = line.drop k ++ behind := by
    rw [hm.rest_eq, hplus, ← List.drop_drop, hdrop, List.drop_append_of_le_length hle]
  have honline : Lexer.OnLine text (first + line.length) m (line.drop k) := by
    refine ⟨hm, hfaults, ⟨behind, hrest, hbehind⟩, by omega, fun u hu hkind hlt => ?_⟩
    have hmem : u ∈ (tokenize text).1 := by
      rw [htokens]
      exact List.mem_append_right _ hu
    have := hoffset u hu
    exact (hstep u hmem).1 hkind (by omega) hlt
  have hunmarked : Unmarked (line.drop k) (line.take k) := by
    rcases hplace with hat | ⟨u, hu, hstop, hlt⟩
    · obtain rfl : k = 0 := by omega
      rw [List.take_zero]
      trivial
    · have hmem : u ∈ (tokenize text).1 := by
        rw [htokens]
        exact List.mem_append_left _ hu
      have hpart := Lexer.unmarked_before hclean hstep hline.starts hmem (hearlier u hu) hlt
      rw [hstop, ← hm.rest_eq, hrest, List.drop_take, hdrop, hk, List.take_append_of_le_length hle] at hpart
      exact hpart.of_append
  have hfind : firstComment? text first = m.tokens.find? Token.isComment :=
    firstComment?_eq_find? htokens hearlier fun u hu => hge.trans (hoffset u hu)
  have hsearch := commentStartFrom_unmarked hunmarked 0
  rw [List.take_append_drop, List.length_take, Nat.min_eq_left hle, Nat.zero_add] at hsearch
  rw [commentStart?, hsearch, honline.commentStartFrom_eq hplus.symm, hfind]

end SchemaLang
