import Mathlib.Data.List.Chain
import SchemaLang.Proofs.Lexemes

/-!
# Tokens tile the text

* `Lexer.Reads text l`: the lexer `l` has come to a place of `text`, and what it has left is the rest.
* `Tiled text stream faults`: the tokens of `stream` stand side by side from the start of `text` to its
  end, and only the last one is the end of the text. Runs of blanks are single tokens, and what the
  grammar sees stays within its line, but for comments that never end.

Main statement: the tokens of any text are so (`tiled_tokenize`).
-/

set_option autoImplicit false

namespace SchemaLang

namespace Lexer

variable {text : String} {l : Lexer}

/-! ## Places -/

structure Reads (text : String) (l : Lexer) : Prop where
  offset_le : l.offset ≤ text.length
  rest_eq : l.rest = text.toList.drop l.offset

theorem reads_ofText (text : String) : (ofText text).Reads text := ⟨Nat.zero_le _, rfl⟩

theorem Reads.length_rest (h : l.Reads text) : l.offset + l.rest.length = text.length := by
  have := h.offset_le
  rw [h.rest_eq, List.length_drop, String.length_toList]
  omega

theorem next_of_rest_eq_nil (h : l.rest = []) : l.next = ⟨Token.atEnd l.offset, [], l⟩ := by
  simp [next, h]

theorem next_of_rest_eq_cons {c : Char} {cs : List Char} (h : l.rest = c :: cs) :
    l.next = l.stepOver (Lexeme.scan l.afterOperand c cs) := by
  simp [next, h]

/-- A lexer is at the end of its text, or it comes to the next lexer. -/
@[elab_as_elim]
theorem next_induction {motive : Lexer → Prop} (atEnd : ∀ l : Lexer, l.rest = [] → motive l)
    (next : ∀ l : Lexer, l.rest ≠ [] → motive l.next.lexer → motive l) (l : Lexer) : motive l :=
  steps.induct motive atEnd next l

/-- What a step over a lexeme leaves is the rest of the text behind its token. -/
theorem Reads.next (h : l.Reads text) : l.next.lexer.Reads text := by
  cases hr : l.rest with
  | nil => rwa [next_of_rest_eq_nil hr]
  | cons c cs =>
    have hs : _ ++ _ = c :: cs := Lexeme.splits_scan l.afterOperand c cs
    have hlen := h.length_rest
    rw [hr, ← hs, List.length_append] at hlen
    rw [next_of_rest_eq_cons hr]
    refine ⟨by simp only [stepOver]; omega, ?_⟩
    simp only [stepOver]
    rw [← List.drop_drop, ← h.rest_eq, hr, ← hs, List.drop_left]

/-! ## Tokens -/

/-- A token is a stretch of the text, and not empty. -/
structure IsSlice (text : String) (t : Token) : Prop where
  start_lt : t.start < t.stop
  stop_le : t.stop ≤ text.length
  text_eq : t.text.toList = (text.toList.drop t.start).take (t.stop - t.start)

theorem Reads.isSlice_next (h : l.Reads text) {c : Char} {cs : List Char} (hr : l.rest = c :: cs) :
    IsSlice text l.next.token := by
  have hs : _ ++ _ = c :: cs := Lexeme.splits_scan l.afterOperand c cs
  have hpos := List.length_pos_iff.2 (Lexeme.text_scan_ne_nil l.afterOperand c cs)
  have hlen := h.length_rest
  rw [hr, ← hs, List.length_append] at hlen
  rw [next_of_rest_eq_cons hr]
  refine ⟨by simp only [stepOver]; omega, by simp only [stepOver]; omega, ?_⟩
  simp only [stepOver, String.toList_ofList, ← h.rest_eq, hr, ← hs]
  rw [Nat.add_sub_cancel_left, List.take_left]

theorem Reads.token_cases (h : l.Reads text) :
    ∀ s ∈ l.steps, (s.token.kind ≠ .endOfText ∧ IsSlice text s.token) ∨
      s.token = Token.atEnd text.length := by
  refine forall_mem_steps (fun _ => Reads.next) (fun l h => ?_) h
  cases hr : l.rest with
  | nil =>
    right
    have hlen := h.length_rest
    rw [hr, List.length_nil, Nat.add_zero] at hlen
    rw [next_of_rest_eq_nil hr, hlen]
  | cons c cs =>
    left
    refine ⟨?_, h.isSlice_next hr⟩
    rw [next_of_rest_eq_cons hr]
    exact (Lexeme.sound_scan l.afterOperand c cs).ne_end

theorem Reads.isSlice (h : l.Reads text) {s : LexStep} (hs : s ∈ l.steps)
    (hne : s.token.kind ≠ .endOfText) : IsSlice text s.token := by
  rcases h.token_cases s hs with ⟨-, hslice⟩ | hend
  · exact hslice
  · exact absurd (by rw [hend]; rfl) hne

/-- The end of the text is the last token and no other. -/
theorem Reads.tokens_eq_append (h : l.Reads text) :
    ∃ ts, l.tokens = ts ++ [Token.atEnd text.length] ∧
      ∀ t ∈ ts, t.kind ≠ .endOfText ∧ IsSlice text t := by
  obtain ⟨ts, stop, hts, hall⟩ := exists_tokens_eq_append l
  have mem_cases {t : Token} (ht : t ∈ l.tokens) :
      (t.kind ≠ .endOfText ∧ IsSlice text t) ∨ t = Token.atEnd text.length := by
    obtain ⟨s, hs, rfl⟩ := List.mem_map.1 ht
    exact h.token_cases s hs
  have hstop : Token.atEnd stop = Token.atEnd text.length := by
    rcases mem_cases (t := Token.atEnd stop) (by simp [hts]) with ⟨hne, -⟩ | he
    · exact absurd rfl hne
    · exact he
  refine ⟨ts, hstop ▸ hts, fun t ht => ?_⟩
  rcases mem_cases (t := t) (by simp [hts, ht]) with h | rfl
  · exact h
  · exact absurd rfl (hall _ ht).1

theorem toList_tokens (l : Lexer) : (l.tokens.flatMap fun t => t.text.toList) = l.rest := by
  unfold tokens
  fun_induction steps l with
  | case1 l s h => simp [s, next_of_rest_eq_nil h, h, Token.atEnd]
  | case2 l s h ih =>
    obtain ⟨c, cs, hr⟩ := List.exists_cons_of_ne_nil h
    rw [List.map_cons, List.flatMap_cons, ih]
    simp only [s, next_of_rest_eq_cons hr, stepOver, String.toList_ofList, hr]
    exact Lexeme.splits_scan l.afterOperand c cs

/-! ## Neighbours -/

/-- What holds of each token and the one behind it holds along the stream. -/
theorem isChain_tokens {I : Lexer → Prop} {R : Token → Token → Prop}
    (hI : ∀ l, I l → I l.next.lexer)
    (hR : ∀ l, I l → l.rest ≠ [] → R l.next.token l.next.lexer.next.token) (hl : I l) :
    l.tokens.IsChain R := by
  unfold tokens
  fun_induction steps l with
  | case1 l s h => simp
  | case2 l s h ih =>
    have hnext := hR l hl h
    have ih := ih (hI l hl)
    rw [steps] at ih ⊢
    split at ih <;> simp_all [s]

theorem isChain_adjacent (l : Lexer) : l.tokens.IsChain fun t u => u.start = t.stop := by
  refine isChain_tokens (I := fun _ => True) (fun _ _ => trivial) (fun l _ h => ?_) trivial
  obtain ⟨c, cs, hr⟩ := List.exists_cons_of_ne_nil h
  rw [next_of_rest_eq_cons hr]
  unfold next
  split <;> rfl

/-- Blanks are taken as far as they go. -/
theorem not_blank_next (l : Lexer) (h : l.rest ≠ []) :
    ¬ (l.next.token.kind = .blank ∧ l.next.lexer.next.token.kind = .blank) := by
  rintro ⟨hfirst, hsecond⟩
  obtain ⟨c, cs, hr⟩ := List.exists_cons_of_ne_nil h
  rw [next_of_rest_eq_cons hr] at hfirst hsecond
  have hc : isSpace c = true := (Lexeme.kind_scan_eq_blank_iff l.afterOperand c cs).1 hfirst
  have hrest : (l.stepOver (Lexeme.scan l.afterOperand c cs)).lexer.rest = cs.dropWhile isSpace := by
    simp [stepOver, Lexeme.scan, hc, Lexeme.whileTrue]
  cases hd : cs.dropWhile isSpace with
  | nil =>
    rw [next_of_rest_eq_nil (hrest.trans hd)] at hsecond
    cases hsecond
  | cons d ds =>
    rw [next_of_rest_eq_cons (hrest.trans hd)] at hsecond
    have hspace := (Lexeme.kind_scan_eq_blank_iff _ d ds).1 hsecond
    have := List.head?_dropWhile_not isSpace cs
    simp [hd, hspace] at this

/-! ## Lines -/

theorem isOpenComment_of_mem_steps {l : Lexer} :
    ∀ s ∈ l.steps, s.token.isHidden = false → ¬ WithinLine s.token.text.toList →
      s.token.kind = .invalid ∧
        ⟨.unterminatedComment, s.token.start, s.token.stop⟩ ∈ s.faults := by
  refine forall_mem_steps (I := fun _ => True) (fun _ _ => trivial) (fun l _ => ?_) trivial
  cases hr : l.rest with
  | nil =>
    rw [next_of_rest_eq_nil hr]
    exact fun _ h => absurd withinLine_nil h
  | cons c cs =>
    rw [next_of_rest_eq_cons hr]
    intro hvisible hlines
    by_cases ho : (Lexeme.scan l.afterOperand c cs).IsOpenComment
    · exact ⟨ho.kind, by simp [stepOver, ho.faults, Fault.shift, Nat.add_comm]⟩
    · refine absurd ?_ hlines
      simpa [stepOver] using Lexeme.withinLine_scan hvisible ho

end Lexer

/-! ## Streams -/

open Lexer in
structure Tiled (text : String) (stream : List Token) (faults : List Fault) : Prop where
  /-- Only the last token is the end of the text. It stands behind the last character, and is empty. -/
  ends : ∃ ts, stream = ts ++ [Token.atEnd text.length] ∧
    ∀ t ∈ ts, t.kind ≠ .endOfText ∧ IsSlice text t
  start_eq : stream.head?.map Token.start = some 0
  adjacent : stream.IsChain fun t u => u.start = t.stop
  join_eq : String.join (stream.map Token.text) = text
  blanks_apart : stream.IsChain fun t u => ¬ (t.kind = .blank ∧ u.kind = .blank)
  /-- Only a comment that never ends has a line end in it, of all tokens that the grammar sees. -/
  within_line : ∀ t ∈ stream, t.isHidden = false → ¬ WithinLine t.text.toList →
    t.kind = .invalid ∧ ⟨.unterminatedComment, t.start, t.stop⟩ ∈ faults

/-- **Lossless tokens.** Every text is cut into tokens without a gap or an overlap, up to its end. -/
theorem tiled_tokenize (text : String) : Tiled text (tokenize text).1 (tokenize text).2 := by
  have hreads := Lexer.reads_ofText text
  refine ⟨hreads.tokens_eq_append, ?_, Lexer.isChain_adjacent _, ?_, ?_, ?_⟩
  · show ((Lexer.ofText text).tokens.head?.map Token.start) = some 0
    rw [Lexer.tokens_eq]
    unfold Lexer.next
    split <;> rfl
  · refine String.toList_injective ?_
    rw [String.toList_join, List.flatMap_map]
    exact Lexer.toList_tokens _
  · exact Lexer.isChain_tokens (I := fun _ => True) (fun _ _ => trivial)
      (fun l _ => Lexer.not_blank_next l) trivial
  · intro t ht hvisible hlines
    obtain ⟨s, hs, rfl⟩ := List.mem_map.1 ht
    obtain ⟨hk, hf⟩ := Lexer.isOpenComment_of_mem_steps s hs hvisible hlines
    exact ⟨hk, List.mem_flatMap.2 ⟨s, hs, hf⟩⟩

end SchemaLang
