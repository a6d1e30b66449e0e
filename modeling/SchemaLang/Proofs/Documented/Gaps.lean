import SchemaLang.Proofs.Shown.Cuts

/-!
# What items keep of the text before them

Blanks and comments are no items, but an item keeps two things of those between it and the item before
it: its documentation, and whether a line starts there.

* `commentsBetween text start stop`: the comments between two places of a text; `documentationOf` is the
  documentation that comments give to what is behind them.
* `NewlineBetween text start stop`: a newline is between the two places.
* `PlacedItem.Tells text first stop p`: the item keeps what is between the place `stop` and its start.
* `SideTables text placed`: the items are the visible tokens, and each tells what is before it.

The documentation that is pending between two tokens is that of the comments since the last visible token,
and likewise for newlines; each token adds itself to what is between (`commentsBetween_stop`,
`newlineBetween_stop`).

Main statement: the items of any text are such tables (`sideTables_placedItems`).
-/

set_option autoImplicit false

namespace SchemaLang

def commentsBetween (text : String) (start stop : Nat) : List Token :=
  (tokenize text).1.filter fun t => t.isComment && decide (start ≤ t.start) && decide (t.stop ≤ stop)

/-- The text of the last comment, if that is a block comment. -/
def documentationOf (comments : List Token) : Option String :=
  (comments.getLast?.filter fun c => c.kind == .docComment).map fun c => docText c.text

def NewlineBetween (text : String) (start stop : Nat) : Prop :=
  '\n' ∈ (text.toList.drop start).take (stop - start)

namespace PlacedItem

/-- The token that became the item. -/
def token (p : PlacedItem) : Token := ⟨p.item.kind, p.item.text, p.start, p.stop⟩

/-- `stop` is where the item before this one ends; `first` says that there is none. -/
structure Tells (text : String) (first : Prop) (stop : Nat) (p : PlacedItem) : Prop where
  doc : p.item.doc = documentationOf (commentsBetween text stop p.start)
  lineStart : p.item.lineStart = true ↔ first ∨ NewlineBetween text stop p.start

end PlacedItem

/-- Where the item before item `i` ends: the start of the text for the first one. -/
def stopBefore (placed : List PlacedItem) (i : Nat) : Nat := (0 :: placed.map (·.stop)).getD i 0

structure SideTables (text : String) (placed : List PlacedItem) : Prop where
  tokens : placed.map PlacedItem.token = (tokenize text).1.filter fun t => !t.isHidden
  ends : ∃ ps last, placed = ps ++ [last] ∧ last.item.kind = .endOfText
  tells : ∀ i, (hi : i < placed.length) → placed[i].Tells text (i = 0) (stopBefore placed i)

/-! ## Comments between -/

theorem start_lt_of_isComment {text : String} {c : Token} (hc : c ∈ (tokenize text).1)
    (hcomment : c.isComment = true) : c.start < c.stop := by
  obtain ⟨s, hs, rfl⟩ := List.mem_map.1 hc
  rcases (Lexer.reads_ofText text).token_cases s hs with ⟨-, hslice⟩ | hend
  · exact hslice.start_lt
  · rw [hend] at hcomment
    cases hcomment

section

variable {text : String} {start : Nat} {t : Token}

theorem commentsBetween_self (text : String) (start : Nat) : commentsBetween text start start = [] := by
  apply List.filter_eq_nil_iff.2
  intro c hc h
  simp only [Bool.and_eq_true, decide_eq_true_eq] at h
  have := start_lt_of_isComment hc h.1.1
  omega

/-- Up to the end of a token there is what was there up to its start, and the token. -/
theorem commentsBetween_stop (ht : t ∈ (tokenize text).1) (hle : start ≤ t.start) :
    commentsBetween text start t.stop =
      commentsBetween text start t.start ++ if t.isComment then [t] else [] := by
  obtain ⟨before, behind, hstream⟩ := List.append_of_mem ht
  have hpairwise := pairwise_tokens text
  rw [hstream, List.pairwise_append, List.pairwise_cons] at hpairwise
  obtain ⟨-, ⟨hbehind, -⟩, hbefore⟩ := hpairwise
  have horder := start_le_stop ht
  have hmem (c : Token) (hc : c ∈ behind) : c ∈ (tokenize text).1 := by
    rw [hstream]
    exact List.mem_append_right _ (List.mem_cons_of_mem _ hc)
  -- no comment behind the token ends before it does
  have hlater (stop : Nat) (hstop : stop ≤ t.stop) : behind.filter (fun c =>
      c.isComment && decide (start ≤ c.start) && decide (c.stop ≤ stop)) = [] := by
    apply List.filter_eq_nil_iff.2
    intro c hc h
    simp only [Bool.and_eq_true, decide_eq_true_eq] at h
    have := start_lt_of_isComment (hmem c hc) h.1.1
    have := hbehind c hc
    omega
  have hearlier : before.filter (fun c =>
      c.isComment && decide (start ≤ c.start) && decide (c.stop ≤ t.stop)) =
      before.filter fun c =>
        c.isComment && decide (start ≤ c.start) && decide (c.stop ≤ t.start) := by
    apply List.filter_congr
    intro c hc
    have hstop := hbefore c hc t (List.mem_cons_self ..)
    rw [decide_eq_true hstop, decide_eq_true (hstop.trans horder)]
  unfold commentsBetween
  rw [hstream, List.filter_append, List.filter_append, List.filter_cons, List.filter_cons, hearlier,
    hlater _ (Nat.le_refl _), hlater _ horder]
  cases hcomment : t.isComment with
  | false => simp
  | true =>
    have := start_lt_of_isComment ht hcomment
    simp [hle, Nat.not_le_of_lt this]

@[simp] theorem documentationOf_nil : documentationOf [] = none := rfl

theorem documentationOf_append_block (cs : List Token) (h : t.kind = .docComment) :
    documentationOf (cs ++ [t]) = some (docText t.text) := by
  simp [documentationOf, h]

theorem documentationOf_append_line (cs : List Token) (h : t.kind = .lineComment) :
    documentationOf (cs ++ [t]) = none := by
  simp [documentationOf, h]

/-! ## Newlines between -/

theorem text_eq_of_mem_tokenize (ht : t ∈ (tokenize text).1) :
    t.text.toList = (text.toList.drop t.start).take (t.stop - t.start) := by
  obtain ⟨s, hs, rfl⟩ := List.mem_map.1 ht
  rcases (Lexer.reads_ofText text).token_cases s hs with ⟨-, hslice⟩ | hend
  · exact hslice.text_eq
  · simp [hend, Token.atEnd]

theorem not_newlineBetween_self (text : String) (start : Nat) : ¬ NewlineBetween text start start := by
  simp [NewlineBetween]

theorem newlineBetween_stop (ht : t ∈ (tokenize text).1) (hle : start ≤ t.start) :
    NewlineBetween text start t.stop ↔
      NewlineBetween text start t.start ∨ hasNewline t.text = true := by
  have horder := start_le_stop ht
  have hcut : (text.toList.drop start).take (t.stop - start) =
      (text.toList.drop start).take (t.start - start) ++ t.text.toList := by
    rw [text_eq_of_mem_tokenize ht, show t.stop - start = t.start - start + (t.stop - t.start) by omega,
      List.take_add, List.drop_drop, Nat.add_sub_cancel' hle]
  rw [NewlineBetween, NewlineBetween, hcut, List.mem_append, hasNewline, List.contains_iff_mem]

end

theorem newline_notMem_untilLineEnd (cs : List Char) : '\n' ∉ (untilLineEnd cs).1 := by
  induction cs with
  | nil => simp [untilLineEnd]
  | cons c cs ih =>
    rw [untilLineEnd]
    split
    · exact List.not_mem_nil
    · rename_i hend
      rw [List.mem_cons, not_or]
      exact ⟨fun h => hend (.inl h.symm), ih⟩

/-- A line comment ends before its line does. -/
theorem hasNewline_of_lineComment {text : String} {t : Token} (ht : t ∈ (tokenize text).1)
    (hk : t.kind = .lineComment) : hasNewline t.text = false := by
  have hsteps : ∀ s ∈ (Lexer.ofText text).steps, s.token.kind = .lineComment →
      '\n' ∉ s.token.text.toList := by
    refine Lexer.forall_mem_steps (I := fun _ => True) (fun _ _ => trivial) (fun l _ => ?_) trivial
    cases hr : l.rest with
    | nil =>
      rw [Lexer.next_of_rest_eq_nil hr]
      nofun
    | cons c cs =>
      rw [Lexer.next_of_rest_eq_cons hr]
      simp only [Lexer.stepOver, String.toList_ofList]
      intro hk
      have hhidden : Lexeme.Hidden c cs (Lexeme.scan l.afterOperand c cs) :=
        Lexeme.hidden_scan (by rw [hk]; rfl)
      generalize Lexeme.scan l.afterOperand c cs = x at hhidden hk ⊢
      cases hhidden with
      | lineComment => exact newline_notMem_untilLineEnd _
      | blank | blockComment => cases hk
  obtain ⟨s, hs, rfl⟩ := List.mem_map.1 ht
  rw [hasNewline, ← Bool.not_eq_true, List.contains_iff_mem]
  exact hsteps s hs hk

/-! ## Items -/

/-- What is neither a comment nor a blank is visible. -/
theorem isHidden_of_ne {t : Token} (hdoc : t.kind ≠ .docComment) (hline : t.kind ≠ .lineComment)
    (hblank : t.kind ≠ .blank) : t.isHidden = false := by
  unfold Token.isHidden TokenKind.isTrivia
  split <;> simp_all

/-- The visible tokens up to the end of the text become the items. -/
theorem map_token_placedItemsFrom {ts : List Token} {last : Token} {doc : Option String}
    {lineStart : Bool} {stop : Nat} (hts : ∀ t ∈ ts, t.kind ≠ .endOfText)
    (hlast : last.kind = .endOfText) :
    (placedItemsFrom doc lineStart stop (ts ++ [last])).map PlacedItem.token =
      (ts ++ [last]).filter fun t => !t.isHidden := by
  induction ts generalizing doc lineStart stop with
  | nil =>
    have hvisible : last.isHidden = false := by simp [Token.isHidden, hlast, TokenKind.isTrivia]
    rw [List.nil_append, placedItemsFrom, List.filter_cons_of_pos (by rw [hvisible]; rfl)]
    obtain ⟨k, word, start, stop⟩ := last
    obtain rfl : k = .endOfText := hlast
    rfl
  | cons t ts ih =>
    rw [List.forall_mem_cons] at hts
    rw [List.cons_append, placedItemsFrom]
    split
    · rename_i hk
      rw [ih hts.2, List.filter_cons_of_neg (by simp [Token.isHidden, hk, TokenKind.isTrivia])]
    · rename_i hk
      rw [ih hts.2, List.filter_cons_of_neg (by simp [Token.isHidden, hk, TokenKind.isTrivia])]
    · rename_i hk
      rw [ih hts.2, List.filter_cons_of_neg (by simp [Token.isHidden, hk, TokenKind.isTrivia])]
    · rename_i hk
      exact absurd hk hts.1
    · rename_i hdoc hline hblank _
      rw [List.map_cons, ih hts.2,
        List.filter_cons_of_pos (by rw [isHidden_of_ne hdoc hline hblank]; rfl)]
      rfl

/-- What is pending behind the tokens up to `stop`, the last visible one of which ends at `start`. -/
structure Pending (text : String) (first : Prop) (start stop : Nat) (doc : Option String)
    (lineStart : Bool) : Prop where
  le : start ≤ stop
  doc_eq : doc = documentationOf (commentsBetween text start stop)
  lineStart_iff : lineStart = true ↔ first ∨ NewlineBetween text start stop

namespace Pending

variable {text : String} {first : Prop} {start : Nat} {doc : Option String} {lineStart : Bool} {t : Token}

/-- Behind a visible token nothing is pending. -/
theorem none (text : String) (stop : Nat) : Pending text False stop stop none false where
  le := Nat.le_refl _
  doc_eq := by rw [commentsBetween_self, documentationOf_nil]
  lineStart_iff := by simp [not_newlineBetween_self]

theorem blockComment (h : Pending text first start t.start doc lineStart) (ht : t ∈ (tokenize text).1)
    (hk : t.kind = .docComment) :
    Pending text first start t.stop (some (docText t.text)) (lineStart || hasNewline t.text) where
  le := h.le.trans (start_le_stop ht)
  doc_eq := by
    rw [commentsBetween_stop ht h.le, if_pos (by simp [Token.isComment, hk]),
      documentationOf_append_block _ hk]
  lineStart_iff := by
    rw [newlineBetween_stop ht h.le, Bool.or_eq_true, h.lineStart_iff, or_assoc]

theorem lineComment (h : Pending text first start t.start doc lineStart) (ht : t ∈ (tokenize text).1)
    (hk : t.kind = .lineComment) : Pending text first start t.stop .none lineStart where
  le := h.le.trans (start_le_stop ht)
  doc_eq := by
    rw [commentsBetween_stop ht h.le, if_pos (by simp [Token.isComment, hk]),
      documentationOf_append_line _ hk]
  lineStart_iff := by
    rw [newlineBetween_stop ht h.le, hasNewline_of_lineComment ht hk, h.lineStart_iff]
    simp

theorem blank (h : Pending text first start t.start doc lineStart) (ht : t ∈ (tokenize text).1)
    (hk : t.kind = .blank) :
    Pending text first start t.stop doc (lineStart || hasNewline t.text) where
  le := h.le.trans (start_le_stop ht)
  doc_eq := by
    rw [commentsBetween_stop ht h.le, if_neg (by simp [Token.isComment, hk]), List.append_nil, h.doc_eq]
  lineStart_iff := by
    rw [newlineBetween_stop ht h.le, Bool.or_eq_true, h.lineStart_iff, or_assoc]

end Pending

/-- Each item of a list tells what is behind the one before it; the first one what is behind `start`. -/
def Told (text : String) : Prop → Nat → List PlacedItem → Prop
  | _, _, [] => True
  | first, start, p :: ps => p.Tells text first start ∧ Told text False p.stop ps

theorem Told.getElem {text : String} {first : Prop} {start : Nat} {ps : List PlacedItem}
    (h : Told text first start ps) {i : Nat} (hi : i < ps.length) :
    ps[i].Tells text (first ∧ i = 0) ((start :: ps.map (·.stop)).getD i 0) := by
  induction ps generalizing first start i with
  | nil => cases hi
  | cons p ps ih =>
    cases i with
    | zero => simpa using h.1
    | succ i => simpa using ih h.2 (Nat.lt_of_succ_lt_succ hi)

/-- Along the tokens from `stop` on, what is pending becomes what the next item tells. -/
theorem told_placedItemsFrom {text : String} {first : Prop} {start stop : Nat} {ts : List Token}
    {doc : Option String} {lineStart : Bool} (hmem : ∀ t ∈ ts, t ∈ (tokenize text).1)
    (hadjacent : ts.IsChain fun t u => u.start = t.stop) (hstop : ∀ t ∈ ts.head?, t.start = stop)
    (hends : ∃ t ∈ ts, t.kind = .endOfText) (h : Pending text first start stop doc lineStart) :
    Told text first start (placedItemsFrom doc lineStart stop ts) := by
  induction ts generalizing first start stop doc lineStart with
  | nil => simp at hends
  | cons t ts ih =>
    rw [List.forall_mem_cons] at hmem
    obtain ⟨ht, hmem⟩ := hmem
    obtain rfl : t.start = stop := hstop t rfl
    have hhead : ∀ u ∈ ts.head?, u.start = t.stop := (List.isChain_cons.1 hadjacent).1
    have rest {first : Prop} {start : Nat} {doc : Option String} {lineStart : Bool}
        (hne : t.kind ≠ .endOfText) (h : Pending text first start t.stop doc lineStart) :
        Told text first start (placedItemsFrom doc lineStart t.stop ts) := by
      apply ih hmem hadjacent.tail hhead _ h
      obtain ⟨u, hu, hend⟩ := hends
      rcases List.mem_cons.1 hu with rfl | hu
      · exact absurd hend hne
      · exact ⟨u, hu, hend⟩
    rw [placedItemsFrom]
    split
    · rename_i hk
      exact rest (by simp [hk]) (h.blockComment ht hk)
    · rename_i hk
      exact rest (by simp [hk]) (h.lineComment ht hk)
    · rename_i hk
      exact rest (by simp [hk]) (h.blank ht hk)
    · exact ⟨⟨h.doc_eq, h.lineStart_iff⟩, trivial⟩
    · rename_i hne
      exact ⟨⟨h.doc_eq, h.lineStart_iff⟩, rest hne (.none text t.stop)⟩

/-- **Side tables.** The items of any text are its visible tokens in order, the end of the text last. The
documentation of each is that of the comments behind the item before it, and it starts a line if it is
the first or a newline is there. -/
theorem sideTables_placedItems (text : String) : SideTables text (placedItems (tokenize text).1) := by
  obtain ⟨ts, hts, hne⟩ := (Lexer.reads_ofText text).tokens_eq_append
  have hstream : (tokenize text).1 = ts ++ [Token.atEnd text.length] := hts
  refine ⟨?_, ?_, fun i hi => ?_⟩
  · rw [hstream]
    exact map_token_placedItemsFrom (fun t ht => (hne t ht).1) rfl
  · obtain ⟨ps, last, hps, hlast, -⟩ := exists_placedItems_eq_append (tokenize text).1
    exact ⟨ps, last, hps, hlast⟩
  · have htold : Told text True 0 (placedItems (tokenize text).1) := by
      apply told_placedItemsFrom (fun _ ht => ht) (Lexer.isChain_adjacent _)
      · intro t ht
        have hstart := (tiled_tokenize text).start_eq
        rw [ht] at hstart
        exact Option.some.inj hstart
      · exact ⟨_, by rw [hstream]; exact List.mem_append_right _ (List.mem_singleton_self _), rfl⟩
      · exact ⟨Nat.le_refl _, by rw [commentsBetween_self, documentationOf_nil], by simp⟩
    simpa [stopBefore] using htold.getElem hi

end SchemaLang
