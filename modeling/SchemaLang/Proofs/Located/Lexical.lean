import SchemaLang.Proofs.Located.Spelt
import SchemaLang.Proofs.Spans
import SchemaLang.Proofs.Streams
import SchemaLang.Proofs.Tiling

/-!
# Faults and items of a text

* `Fault.Within size f`: the fault lies in a text of that size.
* `Sliced text p`: the placed item is a stretch of the text.

Main statements: the faults of a text lie in it (`within_of_mem_tokenize`), its items are stretches of it
(`sliced_of_mem_placedItems`), so both have spans and the text is read (`Registry.exists_read_eq`). Words
behind a dollar sign are spelled with one (`dollarsFirst_itemsOf`).
-/

set_option autoImplicit false

namespace SchemaLang

/-! ## Faults -/

structure Fault.Within (size : Nat) (f : Fault) : Prop where
  start_le : f.start ≤ f.stop
  stop_le : f.stop ≤ size

theorem hexEscape_le {digits : Nat} {cs : List Char} {n : Nat}
    (h : hexEscape digits cs = (none, n)) : n ≤ cs.length + 1 := by
  have htake : ((cs.take digits).takeWhile isHexDigit).length ≤ (cs.take digits).length :=
    (List.takeWhile_sublist _).length_le
  have hlen : (cs.take digits).length ≤ cs.length := List.length_take_le' ..
  unfold hexEscape at h
  dsimp only at h
  split at h
  · obtain ⟨-, rfl⟩ := Prod.mk.inj h
    omega
  · obtain ⟨-, rfl⟩ := Prod.mk.inj h
    omega

/-- An escape that means nothing ends within the text. -/
theorem decodeEscape_le {cs : List Char} {n : Nat} (h : decodeEscape cs = (none, n)) :
    n ≤ cs.length := by
  cases cs with
  | nil =>
    obtain ⟨-, rfl⟩ := Prod.mk.inj h
    exact Nat.le_refl _
  | cons k cs =>
    rw [decodeEscape] at h
    split at h
    · cases h
    split at h
    · exact hexEscape_le h
    split at h
    · exact hexEscape_le h
    · obtain ⟨-, rfl⟩ := Prod.mk.inj h
      simp

theorem le_of_mem_bad {skip offset : Nat} {cs : List Char} :
    ∀ b ∈ (unescapeFrom skip offset cs).bad, b.offset + b.length ≤ offset + cs.length := by
  induction cs generalizing skip offset with
  | nil => cases skip <;> simp [unescapeFrom, Unescaped.empty]
  | cons c cs ih =>
    intro b hb
    have behind {n : Nat} (h : b ∈ (unescapeFrom n (offset + 1) cs).bad) :
        b.offset + b.length ≤ offset + (c :: cs).length := by
      have := ih b h
      simp only [List.length_cons]
      omega
    cases skip with
    | succ skip =>
      rw [unescapeFrom] at hb
      exact behind hb
    | zero =>
      rw [unescapeFrom] at hb
      split at hb
      · split at hb
        · exact behind hb
        · rename_i n hn
          rcases List.mem_cons.1 hb with rfl | hb
          · have := decodeEscape_le hn
            simp only [List.length_cons]
            omega
          · exact behind hb
      · exact behind hb

namespace Lexeme

theorem within_string {quote : Char} {cs : List Char} :
    ∀ f ∈ (string quote cs).faults, f.Within (string quote cs).text.length := by
  unfold string
  dsimp only
  split
  · intro f hf
    obtain ⟨b, hb, rfl⟩ := List.mem_map.1 hf
    have := le_of_mem_bad b hb
    simp only [List.length_dropLast] at this
    refine ⟨by dsimp only; omega, ?_⟩
    simp only [List.length_cons]
    omega
  · simp only [List.mem_singleton, forall_eq]
    exact ⟨Nat.zero_le _, Nat.le_refl _⟩

/-- A fault lies in its lexeme. -/
theorem within_scan (afterOperand : Bool) (c : Char) (cs : List Char) :
    ∀ f ∈ (scan afterOperand c cs).faults,
      f.Within (scan afterOperand c cs).text.length := by
  have h := scanned_scan afterOperand c cs
  generalize scan afterOperand c cs = x at h ⊢
  cases h with
  | blank | lineComment | symbol | number | dollar | word => nofun
  | blockComment =>
    unfold blockComment
    split
    · nofun
    · simp only [List.mem_singleton, forall_eq]
      exact ⟨Nat.zero_le _, Nat.le_refl _⟩
  | regex =>
    unfold regex
    dsimp only
    split
    · nofun
    · simp only [List.mem_singleton, forall_eq]
      exact ⟨Nat.zero_le _, Nat.le_refl _⟩
  | string => exact within_string
  | unexpected =>
    simp only [unexpected, List.mem_singleton, forall_eq]
    exact ⟨Nat.zero_le _, Nat.le_refl _⟩

end Lexeme

namespace Lexer

theorem Reads.within {text : String} {l : Lexer} (h : l.Reads text) :
    ∀ s ∈ l.steps, ∀ f ∈ s.faults, f.Within text.length := by
  refine forall_mem_steps (fun _ => Reads.next) (fun l h => ?_) h
  cases hr : l.rest with
  | nil =>
    rw [next_of_rest_eq_nil hr]
    nofun
  | cons c cs =>
    have hs : _ ++ _ = c :: cs := Lexeme.splits_scan l.afterOperand c cs
    have hlen := h.length_rest
    rw [hr, ← hs, List.length_append] at hlen
    rw [next_of_rest_eq_cons hr]
    intro f hf
    obtain ⟨g, hg, rfl⟩ := List.mem_map.1 hf
    obtain ⟨hle, hstop⟩ := Lexeme.within_scan l.afterOperand c cs g hg
    exact ⟨by simp only [Fault.shift]; omega, by simp only [Fault.shift]; omega⟩

end Lexer

theorem within_of_mem_tokenize {text : String} :
    ∀ f ∈ (tokenize text).2, f.Within text.length := by
  intro f hf
  obtain ⟨s, hs, hf⟩ := List.mem_flatMap.1 hf
  exact (Lexer.reads_ofText text).within s hs f hf

/-! ## Items -/

structure Sliced (text : String) (p : PlacedItem) : Prop where
  start_le : p.start ≤ p.stop
  stop_le : p.stop ≤ text.length
  text_eq : p.item.text.toList = (text.toList.drop p.start).take (p.stop - p.start)

/-- The grammar sees the token as the item. -/
structure PlacedItem.IsToken (p : PlacedItem) (t : Token) : Prop where
  isHidden_eq : t.isHidden = false
  kind_eq : t.kind = p.item.kind
  text_eq : t.text = p.item.text
  start_eq : t.start = p.start
  stop_eq : t.stop = p.stop

/-- An item is a token, or the end of a stream that marks none. -/
theorem mem_placedItems {stream : List Token} {p : PlacedItem} (h : p ∈ placedItems stream) :
    ((∀ t ∈ stream, t.kind ≠ .endOfText) ∧ p.item.kind = .endOfText ∧ p.item.text = "" ∧ p.start = p.stop) ∨
      ∃ t ∈ stream, p.IsToken t := by
  suffices h' : ∀ doc lineStart stop, p ∈ placedItemsFrom doc lineStart stop stream →
      ((∀ t ∈ stream, t.kind ≠ .endOfText) ∧ p.item.kind = .endOfText ∧ p.item.text = "" ∧
        p.start = p.stop) ∨ ∃ t ∈ stream, p.IsToken t from h' _ _ _ h
  clear h
  induction stream with
  | nil =>
    intro doc lineStart stop h
    obtain rfl := List.mem_singleton.1 h
    exact .inl ⟨nofun, rfl, rfl, rfl⟩
  | cons t ts ih =>
    intro doc lineStart stop h
    have rest {doc : Option String} {lineStart : Bool} (hk : t.kind ≠ .endOfText)
        (h : p ∈ placedItemsFrom doc lineStart t.stop ts) :
        ((∀ u ∈ t :: ts, u.kind ≠ .endOfText) ∧ p.item.kind = .endOfText ∧ p.item.text = "" ∧
          p.start = p.stop) ∨ ∃ u ∈ t :: ts, p.IsToken u := by
      rcases ih _ _ _ h with ⟨hnone, hend⟩ | ⟨u, hu, hp⟩
      · exact .inl ⟨List.forall_mem_cons.2 ⟨hk, hnone⟩, hend⟩
      · exact .inr ⟨u, List.mem_cons_of_mem t hu, hp⟩
    rw [placedItemsFrom] at h
    split at h
    · rename_i hk
      exact rest (by simp [hk]) h
    · rename_i hk
      exact rest (by simp [hk]) h
    · rename_i hk
      exact rest (by simp [hk]) h
    · rename_i hk
      obtain rfl := List.mem_singleton.1 h
      exact .inr ⟨t, List.mem_cons_self .., by rw [Token.isHidden, hk]; rfl, hk, rfl, rfl, rfl⟩
    · rename_i hdoc hline hblank hend
      rcases List.mem_cons.1 h with rfl | h
      · have hvisible : t.isHidden = false := by
          unfold Token.isHidden
          cases hk : t.kind <;> simp_all [TokenKind.isTrivia]
        exact .inr ⟨t, List.mem_cons_self .., hvisible, rfl, rfl, rfl, rfl⟩
      · exact rest hend h

theorem itemAt_itemsOf_of_lt {stream : List Token} {k : Nat} (hk : k < (placedItems stream).length) :
    itemAt (itemsOf stream) k = ((placedItems stream)[k]).item :=
  itemAt_of_getElem? (by simp [itemsOf, List.getElem?_eq_getElem hk])

theorem sliced_of_mem_placedItems {text : String} :
    ∀ p ∈ placedItems (tokenize text).1, Sliced text p := by
  intro p hp
  have hends : ∀ t ∈ (tokenize text).1, t.start ≤ t.stop ∧ t.stop ≤ text.length := by
    intro t ht
    obtain ⟨s, hs, rfl⟩ := List.mem_map.1 ht
    exact Lexer.stop_le_of_mem_steps (by simp [Lexer.ofText, String.length_toList]) s hs
  obtain ⟨hle, hstop⟩ := stop_le_of_mem_placedItems hends p hp
  refine ⟨hle, hstop, ?_⟩
  rcases mem_placedItems hp with ⟨-, -, hempty, heq⟩ | ⟨t, ht, -, -, htext, hstart, hend⟩
  · simp [hempty, heq]
  · obtain ⟨s, hs, rfl⟩ := List.mem_map.1 ht
    rw [← htext, ← hstart, ← hend]
    rcases (Lexer.reads_ofText text).token_cases s hs with ⟨-, hslice⟩ | hatEnd
    · exact hslice.text_eq
    · simp [hatEnd, Token.atEnd]

namespace Registry

variable {r : Registry} {id : SourceId} {source : Source}

/-- The diagnostic on a fault is about its span. -/
theorem exists_spanOf_of_faultDiagnostic {f : Fault} {d : Diagnostic}
    (hd : r.faultDiagnostic id f = .ok d) :
    ∃ s, r.spanOf id f.start f.stop = .ok s ∧ d = f.cause.diagnostic s := by
  unfold faultDiagnostic at hd
  cases hspan : r.spanOf id f.start f.stop with
  | error e => simp [hspan, Except.map] at hd
  | ok s => exact ⟨s, rfl, by simpa [hspan, Except.map] using hd.symm⟩

/-- What is read from a registered source, with the spans of its faults and of its items. -/
theorem exists_read_eq (h : r.find id = .ok source) :
    ∃ lexical table, (tokenize source.text).2.mapM (r.faultDiagnostic id) = .ok lexical ∧
      r.spanTable id (placedItems (tokenize source.text).1) = .ok table ∧
      r.read id = .ok ⟨id, (readUnit (itemsOf (tokenize source.text).1)).1.map table.span,
        lexical ++ (readUnit (itemsOf (tokenize source.text).1)).2.map fun p =>
          (p.map table.span).diagnostic⟩ := by
  obtain ⟨lexical, hlexical⟩ := exists_mapM fun f hf => by
    obtain ⟨hle, hstop⟩ := within_of_mem_tokenize f hf
    obtain ⟨s, hs⟩ := exists_spanOf h hle hstop
    exact ⟨f.cause.diagnostic s, show r.faultDiagnostic id f = _ by rw [faultDiagnostic, hs]; rfl⟩
  obtain ⟨table, htable⟩ := exists_spanTable fun p hp => by
    obtain ⟨hle, hstop, -⟩ := sliced_of_mem_placedItems p hp
    exact exists_spanOf h hle hstop
  exact ⟨lexical, table, hlexical, htable, by simp only [read, h, hlexical, readTokens, htable]⟩

end Registry

/-! ## Words behind a dollar sign -/

theorem IsRun.dropWhile_dollar {run : List Char} (h : IsRun run) :
    ('$' :: run).dropWhile (· == '$') = run := by
  obtain ⟨d, ds, rfl⟩ := List.exists_cons_of_ne_nil h.1
  have hd : isWordPart d = true := h.2 d (by simp)
  -- no part of a word is a dollar sign
  have hne : (d == '$') = false := by
    rw [beq_eq_false_iff_ne]
    rintro rfl
    revert hd
    decide
  rw [List.dropWhile_cons_of_pos (by decide), List.dropWhile_cons_of_neg (by simp [hne])]

theorem Lexeme.exists_isRun_scan (afterOperand : Bool) (c : Char) (cs : List Char)
    (h : (scan afterOperand c cs).kind = .varWord) :
    ∃ run, IsRun run ∧ (scan afterOperand c cs).text = '$' :: run := by
  have hs := scanned_scan afterOperand c cs
  generalize scan afterOperand c cs = x at hs h ⊢
  cases hs with
  | dollar _ hc hp =>
    subst hc
    refine ⟨cs.takeWhile isWordPart, ⟨?_, List.all_eq_true.1 List.all_takeWhile⟩, rfl⟩
    cases cs with
    | nil => simp at hp
    | cons d ds =>
      have hd : isWordPart d = true := by simpa using hp
      simp [hd]
  | blank | lineComment | symbol | unexpected => cases h
  | blockComment =>
    unfold blockComment at h
    split at h <;> cases h
  | regex =>
    unfold regex at h
    dsimp only at h
    split at h <;> cases h
  | string =>
    unfold string at h
    dsimp only at h
    split at h <;> cases h
  | number =>
    unfold number at h
    dsimp only at h
    split at h <;> cases h
  | word =>
    have hkind : wordKind (String.ofList ((c :: cs).takeWhile isWordPart)) = .varWord := h
    rcases isKeyword_or_isWord_wordKind (String.ofList ((c :: cs).takeWhile isWordPart)) with hk | hk
    · rw [hkind] at hk
      cases hk
    · rw [hkind] at hk
      cases hk

theorem exists_isRun_itemAt (text : String) {i : Nat}
    (hk : kindAt (itemsOf (tokenize text).1) i = .varWord) :
    ∃ run, IsRun run ∧ (itemAt (itemsOf (tokenize text).1) i).text.toList = '$' :: run := by
  have hsteps : ∀ s ∈ (Lexer.ofText text).steps, s.token.kind = .varWord →
      ∃ run, IsRun run ∧ s.token.text.toList = '$' :: run := by
    refine Lexer.forall_mem_steps (I := fun _ => True) (fun _ _ => trivial) (fun l _ => ?_) trivial
    cases hr : l.rest with
    | nil =>
      rw [Lexer.next_of_rest_eq_nil hr]
      nofun
    | cons c cs =>
      rw [Lexer.next_of_rest_eq_cons hr]
      intro hk
      obtain ⟨run, hrun, htext⟩ := Lexeme.exists_isRun_scan l.afterOperand c cs hk
      exact ⟨run, hrun, by simp [Lexer.stepOver, htext]⟩
  rcases itemAt_itemsOf (tokenize text).1 i with he | ⟨t, ht, hkind, htext⟩
  · rw [he] at hk
    cases hk
  · obtain ⟨s, hs, rfl⟩ := List.mem_map.1 (mem_visibleTokens ht).1
    rw [htext]
    exact hsteps s hs (hkind ▸ hk)

theorem dollarsFirst_itemsOf (text : String) : DollarsFirst (itemsOf (tokenize text).1) := by
  intro i hk
  obtain ⟨run, hrun, htext⟩ := exists_isRun_itemAt text hk
  refine String.toList_injective ?_
  rw [Rule.withoutDollars, htext, hrun.dropWhile_dollar]
  simp

end SchemaLang
