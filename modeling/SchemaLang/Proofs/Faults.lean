import SchemaLang.Proofs.Literals

/-!
# Faults and the tokens they are in

* `Token.escapeFaults t`: the escapes of the literal `t` that mean nothing, placed in the text.
* `Token.HasFaults t fs`: `fs` are the faults of a token like `t`. A malformed token has one that covers
  it, a string literal has those of its escapes, and no other token has any.
* `FaultsMatch text stream faults`: the faults of `text` belong to the tokens of its stream, one by one.

Main statement: the faults of every text match its tokens (`faultsMatch_tokenize`).
-/

set_option autoImplicit false

namespace SchemaLang

def FaultCause.isEscape : FaultCause → Bool
  | .invalidEscape _ => true
  | _ => false

def BadEscape.toFault (start : Nat) (b : BadEscape) : Fault :=
  ⟨.invalidEscape b.sequence, start + b.offset, start + b.offset + b.length⟩

/-- The body of the literal starts behind its opening quote. -/
def Token.escapeFaults (t : Token) : List Fault :=
  (unescape (inner t.text.toList)).bad.map (BadEscape.toFault (t.start + 1))

inductive Token.HasFaults (t : Token) : List Fault → Prop
  | clean : t.kind ≠ .invalid → t.kind ≠ .stringLit → HasFaults t []
  | malformed {cause : FaultCause} : t.kind = .invalid → cause.isEscape = false →
      HasFaults t [⟨cause, t.start, t.stop⟩]
  | literal {quote : Char} {body : List Char} : t.kind = .stringLit →
      quote = '"' ∨ quote = '\'' → LiteralBody quote body →
        t.text.toList = quote :: (body ++ [quote]) → HasFaults t t.escapeFaults

/-! ## Faults of a token -/

theorem inner_quoted (quote : Char) (body : List Char) :
    inner (quote :: (body ++ [quote])) = body := by
  simp [inner]

namespace Token.HasFaults

variable {text : String} {t : Token} {fs : List Fault}

/-- A string literal is quoted, and its escapes are all that is wrong with it. -/
theorem literal_of_kind (h : t.HasFaults fs) (hk : t.kind = .stringLit) :
    fs = t.escapeFaults ∧ ∃ quote, (quote = '"' ∨ quote = '\'') ∧
      LiteralBody quote (inner t.text.toList) ∧
        t.text.toList = quote :: (inner t.text.toList ++ [quote]) := by
  cases h with
  | clean _ hne => exact absurd hk hne
  | malformed hk' => cases hk.symm.trans hk'
  | literal _ hquote hbody ht =>
    refine ⟨rfl, _, hquote, ?_⟩
    rw [ht, inner_quoted]
    exact ⟨hbody, rfl⟩

theorem mem_cases (h : t.HasFaults fs) {f : Fault} (hf : f ∈ fs) :
    (t.kind = .invalid ∧ f.cause.isEscape = false ∧ f.start = t.start ∧ f.stop = t.stop) ∨
      t.kind = .stringLit ∧
        ∃ b ∈ (unescape (inner t.text.toList)).bad, f = b.toFault (t.start + 1) := by
  cases h with
  | clean => cases hf
  | malformed hk hc =>
    obtain rfl := List.mem_singleton.1 hf
    exact .inl ⟨hk, hc, rfl, rfl⟩
  | literal hk =>
    obtain ⟨b, hb, rfl⟩ := List.mem_map.1 hf
    exact .inr ⟨hk, b, hb, rfl⟩

end Token.HasFaults

/-- A text that is no token has the fault that it was given, all over. -/
theorem hasFaults_malformed {cause : FaultCause} (h : cause.isEscape = false) (text : List Char)
    (offset : Nat) : Token.HasFaults ⟨.invalid, String.ofList text, offset, offset + text.length⟩
      ([⟨cause, 0, text.length⟩].map (Fault.shift · offset)) := by
  rw [List.map_singleton, Fault.shift, Nat.zero_add, Nat.add_comm text.length]
  exact .malformed rfl h

theorem hasFaults_string {c : Char} (hc : c = '"' ∨ c = '\'') (cs : List Char) (offset : Nat) :
    let x := Lexeme.string c cs
    Token.HasFaults ⟨x.kind, String.ofList x.text, offset, offset + x.text.length⟩
      (x.faults.map (·.shift offset)) := by
  unfold Lexeme.string
  dsimp only
  split
  · rename_i hclosed
    obtain ⟨body, hbody, ht⟩ := exists_literalBody_of_closed hclosed
    have htext : (String.ofList (c :: (delimited c cs).text)).toList = c :: (body ++ [c]) := by
      rw [String.toList_ofList, ht]
    have hliteral := Token.HasFaults.literal (t := ⟨.stringLit, String.ofList (c :: (delimited c cs).text),
      offset, offset + (c :: (delimited c cs).text).length⟩) rfl hc hbody htext
    have hfaults : Token.escapeFaults ⟨.stringLit, String.ofList (c :: (delimited c cs).text),
        offset, offset + (c :: (delimited c cs).text).length⟩ =
        (Lexeme.escapeFaults (delimited c cs).text.dropLast).map (·.shift offset) := by
      rw [Token.escapeFaults, htext, inner_quoted, Lexeme.escapeFaults, List.map_map, ht,
        List.dropLast_concat]
      refine List.map_congr_left fun b _ => ?_
      simp only [BadEscape.toFault, Function.comp, Fault.shift, Fault.mk.injEq, true_and]
      omega
    rwa [hfaults] at hliteral
  · exact hasFaults_malformed rfl _ offset

theorem hasFaults_scan (afterOperand : Bool) (c : Char) (cs : List Char) (offset : Nat) :
    let x := Lexeme.scan afterOperand c cs
    Token.HasFaults ⟨x.kind, String.ofList x.text, offset, offset + x.text.length⟩
      (x.faults.map (·.shift offset)) := by
  intro x
  have hx : Lexeme.Scanned afterOperand c cs x := Lexeme.scanned_scan afterOperand c cs
  clear_value x
  cases hx with
  | blank | lineComment | symbol | dollar => exact .clean (by rintro ⟨⟩) (by rintro ⟨⟩)
  | blockComment =>
    unfold Lexeme.blockComment
    split
    · exact .clean (by rintro ⟨⟩) (by rintro ⟨⟩)
    · exact hasFaults_malformed rfl _ offset
  | regex =>
    unfold Lexeme.regex
    dsimp only
    split
    · exact .clean (by rintro ⟨⟩) (by rintro ⟨⟩)
    · exact hasFaults_malformed rfl _ offset
  | string _ hc => exact hasFaults_string hc cs offset
  | number =>
    unfold Lexeme.number
    dsimp only
    split
    · exact .clean (by rintro ⟨⟩) (by rintro ⟨⟩)
    · exact .clean (by rintro ⟨⟩) (by rintro ⟨⟩)
  | word =>
    have hk := isKeyword_or_isWord_wordKind (String.ofList ((c :: cs).takeWhile isWordPart))
    have hne {k : TokenKind} (h : k.isKeyword = false ∧ k.isWord = false) :
        wordKind (String.ofList ((c :: cs).takeWhile isWordPart)) ≠ k := by
      rintro rfl
      simp [h] at hk
    exact .clean (hne ⟨rfl, rfl⟩) (hne ⟨rfl, rfl⟩)
  | unexpected => exact hasFaults_malformed rfl _ offset

namespace Lexer

theorem hasFaults_of_mem_steps {l : Lexer} : ∀ s ∈ l.steps, s.token.HasFaults s.faults := by
  refine forall_mem_steps (I := fun _ => True) (fun _ _ => trivial) (fun l _ => ?_) trivial
  cases hr : l.rest with
  | nil =>
    rw [next_of_rest_eq_nil hr]
    exact .clean nofun nofun
  | cons c cs =>
    rw [next_of_rest_eq_cons hr]
    exact hasFaults_scan l.afterOperand c cs l.offset

theorem offset_le_of_mem_steps {l : Lexer} : ∀ s ∈ l.steps, l.offset ≤ s.token.start := by
  suffices h : ∀ n, n ≤ l.offset → ∀ s ∈ l.steps, n ≤ s.token.start from h _ (Nat.le_refl _)
  refine fun n hn => forall_mem_steps (I := fun l => n ≤ l.offset) (fun l hl => ?_) (fun l hl => ?_) hn
  · unfold next
    split
    · exact hl
    · exact Nat.le_trans hl (Nat.le_add_right ..)
  · unfold next
    split
    · exact hl
    · exact hl

theorem offset_lexer_next (l : Lexer) : l.next.lexer.offset = l.next.token.stop := by
  unfold next
  split <;> rfl

/-- Tokens stand one behind the other. -/
theorem pairwise_steps (l : Lexer) :
    l.steps.Pairwise fun s u => s.token.stop ≤ u.token.start := by
  fun_induction steps l with
  | case1 l s h => exact List.pairwise_singleton ..
  | case2 l s h ih =>
    refine .cons (fun u hu => ?_) ih
    rw [← offset_lexer_next]
    exact offset_le_of_mem_steps u hu

theorem IsSlice.stop_eq {text : String} {t : Token} (h : IsSlice text t) :
    t.stop = t.start + t.text.toList.length := by
  have hlt := h.start_lt
  have hle := h.stop_le
  rw [h.text_eq, List.length_take, List.length_drop, String.length_toList]
  omega

variable {text : String}

/-- A fault lies in its token; an escape lies between the quotes of its literal. -/
theorem Reads.placed {l : Lexer} (h : l.Reads text) {s : LexStep} (hs : s ∈ l.steps) {f : Fault}
    (hf : f ∈ s.faults) :
    s.token.start ≤ f.start ∧ f.start < f.stop ∧ f.stop ≤ s.token.stop ∧
      (f.cause.isEscape = true → s.token.start < f.start ∧ f.stop < s.token.stop) := by
  have hfaults := hasFaults_of_mem_steps s hs
  rcases h.token_cases s hs with ⟨-, hslice⟩ | hend
  · rcases hfaults.mem_cases hf with ⟨-, hc, hstart, hstop⟩ | ⟨hk, b, hb, rfl⟩
    · rw [hstart, hstop, hc]
      exact ⟨Nat.le_refl _, hslice.start_lt, Nat.le_refl _, nofun⟩
    · obtain ⟨-, quote, -, -, ht⟩ := hfaults.literal_of_kind hk
      have hlen : s.token.text.toList.length = (inner s.token.text.toList).length + 2 := by
        rw [ht, inner_quoted]
        simp
      have hstop := hslice.stop_eq
      obtain ⟨hpos, -, hle, -⟩ := marks_of_mem_bad b hb
      simp only [BadEscape.toFault]
      omega
  · rcases hfaults.mem_cases hf with ⟨hk, -⟩ | ⟨hk, -⟩
    · rw [hend] at hk
      cases hk
    · rw [hend] at hk
      cases hk

/-- The text at a bad escape is what it reports. -/
theorem Reads.sequence_eq {l : Lexer} (h : l.Reads text) {s : LexStep} (hs : s ∈ l.steps) {f : Fault}
    (hf : f ∈ s.faults) {sequence : String} (hc : f.cause = .invalidEscape sequence) :
    s.token.kind = .stringLit ∧
      sequence.toList = (text.toList.drop f.start).take (f.stop - f.start) := by
  have hfaults := hasFaults_of_mem_steps s hs
  rcases hfaults.mem_cases hf with ⟨-, he, -⟩ | ⟨hk, b, hb, rfl⟩
  · rw [hc] at he
    cases he
  refine ⟨hk, ?_⟩
  obtain rfl : b.sequence = sequence := FaultCause.invalidEscape.inj hc
  rcases h.token_cases s hs with ⟨-, hslice⟩ | hend
  · obtain ⟨-, quote, -, -, ht⟩ := hfaults.literal_of_kind hk
    obtain ⟨-, -, hle, hseq⟩ := marks_of_mem_bad b hb
    have hlen := congrArg List.length ht
    simp only [List.length_cons, List.length_append] at hlen
    have hstop := hslice.stop_eq
    calc b.sequence.toList
        = ((inner s.token.text.toList).drop b.offset).take b.length := hseq
      _ = ((s.token.text.toList).drop (1 + b.offset)).take b.length := by
          conv_rhs => rw [ht]
          rw [Nat.add_comm 1, List.drop_succ_cons, List.drop_append_of_le_length (by omega),
            List.take_append_of_le_length (by rw [List.length_drop]; omega)]
      _ = ((text.toList.drop s.token.start).drop (1 + b.offset)).take b.length := by
          rw [hslice.text_eq, List.drop_take, List.take_take, Nat.min_eq_left (by omega)]
      _ = _ := by
          rw [List.drop_drop]
          simp only [BadEscape.toFault, Nat.add_assoc]
          congr 1
          omega
  · rw [hend] at hk
    cases hk

end Lexer

/-! ## Faults of a text -/

structure FaultsMatch (text : String) (stream : List Token) (faults : List Fault) : Prop where
  nonempty : ∀ f ∈ faults, f.start < f.stop
  apart : faults.Pairwise fun f g => f.stop ≤ g.start
  /-- All other faults than bad escapes are malformed tokens. -/
  malformed : ((faults.filter fun f => !f.cause.isEscape).map fun f => (f.start, f.stop)) =
    (stream.filter fun t => t.kind == .invalid).map fun t => (t.start, t.stop)
  /-- A bad escape lies between the quotes of a literal, where it can be read. -/
  escape : ∀ f ∈ faults, ∀ sequence, f.cause = .invalidEscape sequence →
    (∃! t, t ∈ stream ∧ t.kind = .stringLit ∧ t.start < f.start ∧ f.stop < t.stop) ∧
      sequence.toList = (text.toList.drop f.start).take (f.stop - f.start)
  quoted : ∀ t ∈ stream, t.kind = .stringLit → ∃ quote, (quote = '"' ∨ quote = '\'') ∧
    t.text.toList = quote :: (inner t.text.toList ++ [quote])
  literal : ∀ t ∈ stream, t.kind = .stringLit →
    (faults.filter fun f => f.cause.isEscape && decide (t.start ≤ f.start ∧ f.stop ≤ t.stop)) =
      t.escapeFaults
  /-- No literal ends in a backslash that hides nothing. -/
  trailing : ∀ t ∈ stream, t.kind = .stringLit →
    ∀ b ∈ (unescape (inner t.text.toList)).bad, b.sequence ≠ "\\"

/-- Malformed tokens and their faults, counted off together. -/
theorem malformed_flatMap {steps : List LexStep} (h : ∀ s ∈ steps, s.token.HasFaults s.faults) :
    (((steps.flatMap (·.faults)).filter fun f => !f.cause.isEscape).map
        fun f => (f.start, f.stop)) =
      ((steps.map (·.token)).filter fun t => t.kind == .invalid).map fun t => (t.start, t.stop) := by
  induction steps with
  | nil => rfl
  | cons s steps ih =>
    rw [List.forall_mem_cons] at h
    rw [List.flatMap_cons, List.filter_append, List.map_append, ih h.2, List.map_cons]
    generalize s.faults = fs at h
    cases h.1 with
    | clean hne => simp [hne]
    | malformed hk hc => simp [hk, hc]
    | literal hk =>
      have hnone : (s.token.escapeFaults.filter fun f => !f.cause.isEscape) = [] := by
        simp [Token.escapeFaults, BadEscape.toFault, FaultCause.isEscape]
      simp [hk, hnone]

namespace Lexer

variable {text : String} {l : Lexer}

theorem pairwise_faults (h : l.Reads text) :
    (l.steps.flatMap (·.faults)).Pairwise fun f g => f.stop ≤ g.start := by
  refine List.pairwise_flatMap.2 ⟨fun s hs => ?_, ?_⟩
  · have hfaults := hasFaults_of_mem_steps s hs
    generalize s.faults = fs at hfaults
    cases hfaults with
    | clean => exact .nil
    | malformed => exact List.pairwise_singleton ..
    | literal =>
      refine List.pairwise_map.2 ((pairwise_bad ..).imp fun {a b} hab => ?_)
      simp only [BadEscape.toFault]
      omega
  · refine (pairwise_steps l).imp_of_mem fun {s u} hs hu hsu f hf g hg => ?_
    have hfs := h.placed hs hf
    have hgu := h.placed hu hg
    omega

theorem eq_or_apart (l : Lexer) {s u : LexStep} (hs : s ∈ l.steps) (hu : u ∈ l.steps) :
    s = u ∨ s.token.stop ≤ u.token.start ∨ u.token.stop ≤ s.token.start := by
  obtain ⟨i, hi, rfl⟩ := List.getElem_of_mem hs
  obtain ⟨j, hj, rfl⟩ := List.getElem_of_mem hu
  have hpair := List.pairwise_iff_getElem.1 (pairwise_steps l)
  rcases Nat.lt_trichotomy i j with hij | rfl | hij
  · exact .inr (.inl (hpair i j hi hj hij))
  · exact .inl rfl
  · exact .inr (.inr (hpair j i hj hi hij))

/-- The bad escapes inside a literal are its own. -/
theorem escapes_within (h : l.Reads text) {s : LexStep} (hs : s ∈ l.steps)
    (hk : s.token.kind = .stringLit) :
    ((l.steps.flatMap (·.faults)).filter fun f =>
        f.cause.isEscape && decide (s.token.start ≤ f.start ∧ f.stop ≤ s.token.stop)) =
      s.token.escapeFaults := by
  obtain ⟨pre, post, hsteps⟩ := List.append_of_mem hs
  have hpair := pairwise_steps l
  rw [hsteps, List.pairwise_append, List.pairwise_cons] at hpair
  obtain ⟨-, ⟨hpost, -⟩, hpre⟩ := hpair
  have hnone {us : List LexStep} (hus : ∀ u ∈ us, u ∈ l.steps)
      (hapart : ∀ u ∈ us, u.token.stop ≤ s.token.start ∨ s.token.stop ≤ u.token.start) :
      ((us.flatMap (·.faults)).filter fun f =>
        f.cause.isEscape && decide (s.token.start ≤ f.start ∧ f.stop ≤ s.token.stop)) = [] := by
    refine List.filter_eq_nil_iff.2 fun f hf => ?_
    obtain ⟨u, hu, hf⟩ := List.mem_flatMap.1 hf
    have hplaced := h.placed (hus u hu) hf
    have := hapart u hu
    simp only [Bool.and_eq_true, decide_eq_true_eq, not_and]
    omega
  have hown : s.faults = s.token.escapeFaults :=
    ((hasFaults_of_mem_steps s hs).literal_of_kind hk).1
  have hall : (s.faults.filter fun f =>
      f.cause.isEscape && decide (s.token.start ≤ f.start ∧ f.stop ≤ s.token.stop)) = s.faults := by
    refine List.filter_eq_self.2 fun f hf => ?_
    have hplaced := h.placed hs hf
    have hescape : f.cause.isEscape = true := by
      rw [hown] at hf
      obtain ⟨b, -, rfl⟩ := List.mem_map.1 hf
      rfl
    simp only [hescape, Bool.true_and, decide_eq_true_eq]
    omega
  rw [hsteps, List.flatMap_append, List.flatMap_cons, List.filter_append, List.filter_append, hall,
    hown, hnone (fun u hu => by simp [hsteps, hu]) fun u hu => .inl (hpre u hu s (List.mem_cons_self ..)),
    hnone (fun u hu => by simp [hsteps, hu]) fun u hu => .inr (hpost u hu)]
  simp

end Lexer

/-- **Faults belong to tokens.** The faults of a text stand in order and apart from each other. Apart from
bad escapes they are its malformed tokens; the bad escapes are those that the decoding of its string literals
reports, and no literal ends in a lone backslash. -/
theorem faultsMatch_tokenize (text : String) :
    FaultsMatch text (tokenize text).1 (tokenize text).2 := by
  have hreads := Lexer.reads_ofText text
  have hall := Lexer.hasFaults_of_mem_steps (l := Lexer.ofText text)
  refine ⟨?_, Lexer.pairwise_faults hreads, malformed_flatMap hall, ?_, ?_, ?_, ?_⟩
  · intro f hf
    obtain ⟨s, hs, hf⟩ := List.mem_flatMap.1 hf
    exact (hreads.placed hs hf).2.1
  · intro f hf sequence hc
    obtain ⟨s, hs, hf⟩ := List.mem_flatMap.1 hf
    obtain ⟨hk, hseq⟩ := hreads.sequence_eq hs hf hc
    obtain ⟨-, hlt, -, hin⟩ := hreads.placed hs hf
    have hin := hin (by rw [hc]; rfl)
    refine ⟨⟨s.token, ⟨List.mem_map_of_mem hs, hk, hin⟩, ?_⟩, hseq⟩
    rintro t ⟨ht, -, htin⟩
    obtain ⟨u, hu, rfl⟩ := List.mem_map.1 ht
    -- both tokens have the fault, so they are not apart
    rcases Lexer.eq_or_apart _ hu hs with rfl | h | h
    · rfl
    · omega
    · omega
  · intro t ht hk
    obtain ⟨s, hs, rfl⟩ := List.mem_map.1 ht
    obtain ⟨-, quote, hquote, -, htext⟩ := (hall s hs).literal_of_kind hk
    exact ⟨quote, hquote, htext⟩
  · intro t ht hk
    obtain ⟨s, hs, rfl⟩ := List.mem_map.1 ht
    exact Lexer.escapes_within hreads hs hk
  · intro t ht hk b hb hlone
    obtain ⟨s, hs, rfl⟩ := List.mem_map.1 ht
    obtain ⟨-, quote, -, hbody, -⟩ := (hall s hs).literal_of_kind hk
    have htwo := hbody.two_le_length 0 b hb
    obtain ⟨-, -, hle, hseq⟩ := marks_of_mem_bad b hb
    have hlen := congrArg List.length hseq
    rw [hlone, List.length_take, List.length_drop] at hlen
    have hone : "\\".toList.length = 1 := rfl
    omega

end SchemaLang
