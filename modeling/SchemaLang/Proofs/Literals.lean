import SchemaLang.Proofs.Located.Lexical

/-!
# Literals between delimiters

* `LiteralBody close cs`: `cs` may stand between the delimiters of a literal that `close` ends. No line end
  is in it, and a backslash hides the character behind it.
* `BadEscape.Marks offset cs b`: the bad escape `b` is a stretch of `cs`, which starts at `offset`, and it
  is not empty.

The scan of a literal passes over two characters at a backslash, the decoding of its escapes over up to six.
They meet again behind each escape, since the characters that only the decoding passes over are hexadecimal
digits, and the scan finds nothing in those.

Main statements: a closed literal is a body and its delimiter (`LiteralBody.delimited_eq` and
`exists_literalBody_of_closed`), bad escapes are stretches of the body one behind the other
(`marks_of_mem_bad` and `pairwise_bad`), and none is a lone backslash (`LiteralBody.two_le_length`).
-/

set_option autoImplicit false

namespace SchemaLang

inductive LiteralBody (close : Char) : List Char → Prop where
  | nil : LiteralBody close []
  | plain {c : Char} {cs : List Char} :
      isNewline c = false → c ≠ '\\' → c ≠ close → LiteralBody close cs → LiteralBody close (c :: cs)
  | hidden {d : Char} {cs : List Char} :
      isNewline d = false → LiteralBody close cs → LiteralBody close ('\\' :: d :: cs)

/-! ## The scan of a literal -/

theorem LiteralBody.delimited_eq {close : Char} {body : List Char} (h : LiteralBody close body)
    (hn : isNewline close = false) (hb : close ≠ '\\') (rest : List Char) :
    delimited close (body ++ close :: rest) = ⟨body ++ [close], rest, true⟩ := by
  induction h with
  | nil =>
    rw [List.nil_append, delimited.eq_def]
    simp [hn, hb]
  | plain hc hne hclose _ ih =>
    rw [List.cons_append, delimited.eq_def]
    simp [hc, hne, hclose, ih, Delimited.prepend]
  | hidden hd _ ih =>
    have hslash : isNewline '\\' = false := rfl
    rw [List.cons_append, List.cons_append, delimited.eq_def]
    simp [hslash, hd, ih, Delimited.prepend]

theorem exists_literalBody_of_closed {close : Char} {cs : List Char}
    (h : (delimited close cs).closed = true) :
    ∃ body, LiteralBody close body ∧ (delimited close cs).text = body ++ [close] := by
  fun_induction delimited close cs with
  | case1 => cases h
  | case2 => cases h
  | case3 => cases h
  | case4 => cases h
  | case5 d ds hd _ ih =>
    obtain ⟨body, hbody, ht⟩ := ih h
    exact ⟨'\\' :: d :: body, .hidden (by simpa using hd) hbody, by simp [Delimited.prepend, ht]⟩
  | case6 => exact ⟨[], .nil, rfl⟩
  | case7 c cs hc hslash hclose ih =>
    obtain ⟨body, hbody, ht⟩ := ih h
    exact ⟨c :: body, .plain (by simpa using hc) hslash hclose hbody, by simp [Delimited.prepend, ht]⟩

/-- A body goes on behind characters that hide none. -/
theorem LiteralBody.drop {close : Char} {cs : List Char} (h : LiteralBody close cs) {n : Nat}
    (hn : ∀ c ∈ cs.take n, c ≠ '\\') : LiteralBody close (cs.drop n) := by
  induction n generalizing cs with
  | zero => simpa using h
  | succ n ih =>
    cases h with
    | nil => simpa using LiteralBody.nil
    | plain _ _ _ h =>
      rw [List.take_succ_cons, List.forall_mem_cons] at hn
      simpa using ih h hn.2
    | hidden _ h =>
      rw [List.take_succ_cons, List.forall_mem_cons] at hn
      exact absurd rfl hn.1

/-! ## Escapes -/

theorem exists_digits_of_hexEscape (digits : Nat) (cs : List Char) :
    ∃ n, (hexEscape digits cs).2 = n + 1 ∧ n ≤ cs.length ∧ ∀ c ∈ cs.take n, isHexDigit c = true := by
  obtain ⟨t, ht⟩ := takeWhile_isPrefix isHexDigit (cs.take digits)
  have hcs : (cs.take digits).takeWhile isHexDigit ++ (t ++ cs.drop digits) = cs := by
    rw [← List.append_assoc, ht, List.take_append_drop]
  have hle : ((cs.take digits).takeWhile isHexDigit).length ≤ digits :=
    (List.takeWhile_sublist _).length_le.trans (List.length_take_le ..)
  refine ⟨((cs.take digits).takeWhile isHexDigit).length, ?_, ?_, ?_⟩
  · unfold hexEscape
    dsimp only
    split
    · exact Nat.add_comm ..
    · dsimp only
      omega
  · have := congrArg List.length hcs
    rw [List.length_append] at this
    omega
  · have htake : cs.take ((cs.take digits).takeWhile isHexDigit).length =
        (cs.take digits).takeWhile isHexDigit := by
      conv_lhs => rhs; rw [← hcs]
      exact List.take_left ..
    rw [htake]
    exact List.all_eq_true.1 List.all_takeWhile

/-- Behind its letter an escape has hexadecimal digits only. -/
theorem exists_digits_of_decodeEscape (d : Char) (cs : List Char) :
    ∃ n, (decodeEscape (d :: cs)).2 = n + 1 ∧ n ≤ cs.length ∧
      ∀ c ∈ cs.take n, isHexDigit c = true := by
  rw [decodeEscape]
  split
  · exact ⟨0, rfl, Nat.zero_le _, by simp⟩
  split
  · exact exists_digits_of_hexEscape 4 cs
  split
  · exact exists_digits_of_hexEscape 2 cs
  · exact ⟨0, rfl, Nat.zero_le _, by simp⟩

theorem unescapeFrom_cons_of_ne {offset : Nat} {c : Char} {cs : List Char} (h : c ≠ '\\') :
    unescapeFrom 0 offset (c :: cs) = (unescapeFrom 0 (offset + 1) cs).prepend [c] := by
  rw [unescapeFrom, if_neg h]

/-! ## Bad escapes -/

structure BadEscape.Marks (offset : Nat) (cs : List Char) (b : BadEscape) : Prop where
  pos : 0 < b.length
  le_start : offset ≤ b.offset
  stop_le : b.offset + b.length ≤ offset + cs.length
  sequence_eq : b.sequence.toList = (cs.drop (b.offset - offset)).take b.length

theorem BadEscape.Marks.cons {offset : Nat} {cs : List Char} {b : BadEscape}
    (h : b.Marks (offset + 1) cs) (c : Char) : b.Marks offset (c :: cs) := by
  have hle := h.le_start
  have hstop := h.stop_le
  refine ⟨h.pos, by omega, by simp only [List.length_cons]; omega, ?_⟩
  rw [h.sequence_eq, show b.offset - offset = b.offset - (offset + 1) + 1 by omega,
    List.drop_succ_cons]

/-- Decoding reports an escape that means nothing, and goes on behind it. -/
theorem bad_unescapeFrom_cons (offset : Nat) (c : Char) (cs : List Char) :
    (∃ n, (unescapeFrom 0 offset (c :: cs)).bad = (unescapeFrom n (offset + 1) cs).bad) ∨
      ∃ n, n ≤ cs.length ∧ (unescapeFrom 0 offset (c :: cs)).bad =
        ⟨offset, n + 1, String.ofList (c :: cs.take n)⟩ :: (unescapeFrom n (offset + 1) cs).bad := by
  rw [unescapeFrom]
  split
  · split
    · exact .inl ⟨_, rfl⟩
    · rename_i n hn
      exact .inr ⟨n, decodeEscape_le hn, rfl⟩
  · exact .inl ⟨0, rfl⟩

theorem marks_of_mem_bad {skip offset : Nat} {cs : List Char} :
    ∀ b ∈ (unescapeFrom skip offset cs).bad, b.Marks offset cs := by
  induction cs generalizing skip offset with
  | nil => cases skip <;> simp [unescapeFrom, Unescaped.empty]
  | cons c cs ih =>
    intro b hb
    cases skip with
    | succ skip => exact (ih b hb).cons c
    | zero =>
      obtain ⟨n, he⟩ | ⟨n, hn, he⟩ := bad_unescapeFrom_cons offset c cs
      · exact (ih b (he ▸ hb)).cons c
      · rw [he] at hb
        rcases List.mem_cons.1 hb with rfl | hb
        · refine ⟨Nat.succ_pos n, Nat.le_refl _, ?_, by simp⟩
          simp only [List.length_cons]
          omega
        · exact (ih b hb).cons c

theorem le_offset_of_mem_bad {skip offset : Nat} {cs : List Char} :
    ∀ b ∈ (unescapeFrom skip offset cs).bad, offset + skip ≤ b.offset := by
  induction cs generalizing skip offset with
  | nil => cases skip <;> simp [unescapeFrom, Unescaped.empty]
  | cons c cs ih =>
    intro b hb
    cases skip with
    | zero => exact (marks_of_mem_bad b hb).le_start
    | succ skip =>
      have := ih b hb
      omega

theorem pairwise_bad (skip offset : Nat) (cs : List Char) :
    (unescapeFrom skip offset cs).bad.Pairwise fun a b => a.offset + a.length ≤ b.offset := by
  induction cs generalizing skip offset with
  | nil => cases skip <;> simp [unescapeFrom, Unescaped.empty]
  | cons c cs ih =>
    cases skip with
    | succ skip => exact ih ..
    | zero =>
      obtain ⟨n, he⟩ | ⟨n, hn, he⟩ := bad_unescapeFrom_cons offset c cs
      · rw [he]
        exact ih ..
      · rw [he, List.pairwise_cons]
        refine ⟨fun b hb => ?_, ih ..⟩
        have := le_offset_of_mem_bad b hb
        dsimp only
        omega

/-- The closing delimiter is never hidden, so each backslash of a body has a character behind it. -/
theorem LiteralBody.two_le_length {close : Char} {cs : List Char} (h : LiteralBody close cs)
    (offset : Nat) : ∀ b ∈ (unescapeFrom 0 offset cs).bad, 2 ≤ b.length := by
  induction hn : cs.length using Nat.strong_induction_on generalizing cs offset with
  | _ n ih =>
    cases h with
    | nil => simp [unescapeFrom, Unescaped.empty]
    | plain _ hne _ h =>
      rw [unescapeFrom_cons_of_ne hne]
      exact ih _ (by simp [← hn]) h _ rfl
    | @hidden d cs _ h =>
      obtain ⟨m, hm, hle, hdigits⟩ := exists_digits_of_decodeEscape d cs
      -- behind the letter and its digits a body goes on
      have hrest : LiteralBody close (cs.drop m) := h.drop fun c hc => by
        rintro rfl
        exact absurd (hdigits _ hc) (by decide)
      have behind : ∀ b ∈ (unescapeFrom (m + 1) (offset + 1) (d :: cs)).bad, 2 ≤ b.length := by
        rw [unescapeFrom, unescapeFrom_skip _ _ _ hle]
        refine ih _ ?_ hrest _ rfl
        simp only [List.length_cons] at hn
        simp only [List.length_drop]
        omega
      rw [unescapeFrom, if_pos rfl]
      split
      · rename_i heq
        rw [heq] at hm
        obtain rfl : _ = m + 1 := hm
        exact behind
      · rename_i heq
        rw [heq] at hm
        obtain rfl : _ = m + 1 := hm
        intro b hb
        rcases List.mem_cons.1 hb with rfl | hb
        · dsimp only
          omega
        · exact behind b hb

end SchemaLang
