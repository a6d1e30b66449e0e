import SchemaLang.Grammar.Item
import SchemaLang.Schema.Alias
import SchemaLang.Token.Stream

/-!
# What the grammar may expect of tokens

* `TokenKind.Spells k s`: keywords are spelled as such, and any other word may be an alias.
* `Lexeme.Sound`: a lexeme is spelled so, it is not the end of the text, and malformed text has a
  fault.
* `visibleTokens` are the tokens that become items.

Main statements: the token stream of a text ends with its only end of text and is spelled so
(`Lexer.exists_tokens_eq_append`), malformed tokens have faults (`Lexer.faults_ne_nil_of_mem_steps`),
and tokens lie in the text (`Lexer.stop_le_of_mem_steps`).
-/

set_option autoImplicit false

namespace SchemaLang

structure TokenKind.Spells (k : TokenKind) (s : String) : Prop where
  keyword : ∀ w, k = .keyword w → s = w.text
  builtin : ∀ b, k = .builtin b → s = b.text
  word : k.isWord = true → checkAlias s = .ok ()

/-- All items are spelled as tokens of their kinds are. -/
def WellSpelled (items : Items) : Prop :=
  ∀ i, (kindAt items i).Spells (itemAt items i).text

/-! ## Words -/

theorem text_of_keyword? {word : String} {k : TokenKind} (h : keyword? word = some k) :
    (∃ w, k = .keyword w ∧ w.text = word) ∨ ∃ b, k = .builtin b ∧ b.text = word := by
  unfold keyword? at h
  split at h
  · rename_i w hw
    cases h
    exact .inl ⟨w, rfl, by simpa using List.find?_some hw⟩
  · obtain ⟨b, hb, rfl⟩ := Option.map_eq_some_iff.1 h
    exact .inr ⟨b, rfl, by simpa using List.find?_some hb⟩

theorem keyword?_text (w : Keyword) : keyword? w.text = some (.keyword w) := by
  cases w <;> decide

theorem Keyword.text_injective : Function.Injective Keyword.text := by
  intro v w h
  have hv := keyword?_text v
  rw [h, keyword?_text w] at hv
  cases hv
  rfl

theorem isKeyword_or_isWord_wordKind (word : String) :
    (wordKind word).isKeyword = true ∨ (wordKind word).isWord = true := by
  unfold wordKind
  split
  · rename_i k hk
    rcases text_of_keyword? hk with ⟨w, rfl, -⟩ | ⟨b, rfl, -⟩
    · exact .inl rfl
    · exact .inl rfl
  · split
    · exact .inr rfl
    · exact .inr rfl

/-- A word is a keyword spelled as one, or it is not reserved. -/
theorem spells_wordKind {word : String} (h : hasAliasShape word.toList = true) :
    (wordKind word).Spells word := by
  unfold wordKind
  split
  · rename_i k hk
    rcases text_of_keyword? hk with ⟨w, rfl, rfl⟩ | ⟨b, rfl, rfl⟩
    · exact ⟨fun _ h => by cases h; rfl, nofun, nofun⟩
    · exact ⟨nofun, fun _ h => by cases h; rfl, nofun⟩
  · rename_i hk
    have hc : checkAlias word = .ok () := by
      simp [checkAlias, h, isReserved, hk]
    split
    · exact ⟨nofun, nofun, fun _ => hc⟩
    · exact ⟨nofun, nofun, fun _ => hc⟩

/-! ## Lexemes -/

namespace Lexeme

structure Sound (x : Lexeme) : Prop where
  ne_end : x.kind ≠ .endOfText
  faulty : x.kind = .invalid → x.faults ≠ []
  spells : x.kind.Spells (String.ofList x.text)

/-- Lexemes of most kinds may have any text. -/
theorem sound_of_kind {x : Lexeme} (hn : x.kind ≠ .endOfText)
    (hf : x.kind = .invalid → x.faults ≠ []) (hk : x.kind.isKeyword = false)
    (hw : x.kind.isWord = false) : x.Sound where
  ne_end := hn
  faulty := hf
  spells := {
    keyword := fun w h => by simp [h, TokenKind.isKeyword] at hk
    builtin := fun b h => by simp [h, TokenKind.isKeyword] at hk
    word := fun h => by simp [hw] at h }

theorem sound_word {c : Char} {cs : List Char} (hc : c.isAlpha = true) :
    (word (c :: cs)).Sound := by
  have hshape : hasAliasShape ((c :: cs).takeWhile isWordPart) = true := by
    have hp : isWordPart c = true := by simp [isWordPart, Char.isAlphanum, hc]
    rw [List.takeWhile_cons_of_pos hp]
    simp only [hasAliasShape, hc, Bool.true_and]
    exact List.all_takeWhile
  have hs : (word (c :: cs)).kind.Spells (String.ofList (word (c :: cs)).text) :=
    spells_wordKind (by rwa [String.toList_ofList])
  have hk : (word (c :: cs)).kind.isKeyword = true ∨ (word (c :: cs)).kind.isWord = true :=
    isKeyword_or_isWord_wordKind _
  refine ⟨fun h => ?_, fun h => ?_, hs⟩
  · rw [h] at hk
    simp [TokenKind.isKeyword, TokenKind.isWord] at hk
  · rw [h] at hk
    simp [TokenKind.isKeyword, TokenKind.isWord] at hk

theorem sound_scan (afterOperand : Bool) (c : Char) (cs : List Char) :
    (scan afterOperand c cs).Sound := by
  unfold scan
  split
  · exact sound_of_kind (by simp [whileTrue]) (by simp [whileTrue]) rfl rfl
  split
  · exact sound_of_kind (by simp [lineComment]) (by simp [lineComment]) rfl rfl
  split
  · unfold blockComment
    split <;> exact sound_of_kind (by simp) (by simp) rfl rfl
  split
  · unfold regex
    dsimp only
    split <;> exact sound_of_kind (by simp) (by simp) rfl rfl
  split
  · exact sound_of_kind (by simp) (by simp) rfl rfl
  split
  · unfold string
    dsimp only
    split <;> exact sound_of_kind (by simp) (by simp) rfl rfl
  split
  · unfold number
    dsimp only
    split <;> exact sound_of_kind (by simp) (by simp) rfl rfl
  split
  · exact sound_of_kind (by simp [whileTrue]) (by simp [whileTrue]) rfl rfl
  split
  · rename_i h
    exact sound_word h
  · exact sound_of_kind (by simp [unexpected]) (by simp [unexpected]) rfl rfl

end Lexeme

/-! ## Token streams -/

namespace Lexer

/-- What holds of every lexer that a text comes to holds of all its steps. -/
theorem forall_mem_steps {I : Lexer → Prop} {P : LexStep → Prop} (hI : ∀ l, I l → I l.next.lexer)
    (hP : ∀ l, I l → P l.next) {l : Lexer} (hl : I l) : ∀ s ∈ l.steps, P s := by
  fun_induction Lexer.steps l with
  | case1 l s h => simpa using hP l hl
  | case2 l s h ih =>
    simp only [List.mem_cons, forall_eq_or_imp]
    exact ⟨hP l hl, ih (hI l hl)⟩

theorem exists_tokens_eq_append (l : Lexer) :
    ∃ ts stop, l.tokens = ts ++ [Token.atEnd stop] ∧
      ∀ t ∈ ts, t.kind ≠ .endOfText ∧ t.kind.Spells t.text := by
  unfold tokens
  fun_induction Lexer.steps l with
  | case1 l s h =>
    refine ⟨[], l.offset, ?_, by simp⟩
    simp [s, next, h]
  | case2 l s h ih =>
    obtain ⟨ts, stop, hts, hall⟩ := ih
    refine ⟨s.token :: ts, stop, by simp [hts], ?_⟩
    simp only [List.mem_cons, forall_eq_or_imp]
    refine ⟨?_, hall⟩
    obtain ⟨c, cs, hr⟩ := List.exists_cons_of_ne_nil h
    have hs := Lexeme.sound_scan l.afterOperand c cs
    have hn : s.token = (l.stepOver (Lexeme.scan l.afterOperand c cs)).token := by
      simp [s, next, hr]
    rw [hn]
    exact ⟨hs.ne_end, hs.spells⟩

theorem faults_ne_nil_of_mem_steps {l : Lexer} :
    ∀ s ∈ l.steps, s.token.kind = .invalid → s.faults ≠ [] := by
  refine forall_mem_steps (I := fun _ => True) (fun _ _ => trivial) (fun l _ => ?_) trivial
  unfold next
  split
  · simp [Token.atEnd]
  · rename_i c cs _
    intro hk
    have := (Lexeme.sound_scan l.afterOperand c cs).faulty hk
    simpa [stepOver] using this

/-- Tokens do not reach beyond the end of the text. -/
theorem stop_le_of_mem_steps {l : Lexer} {size : Nat} (h : l.offset + l.rest.length = size) :
    ∀ s ∈ l.steps, s.token.start ≤ s.token.stop ∧ s.token.stop ≤ size := by
  refine forall_mem_steps (I := fun l => l.offset + l.rest.length = size) ?_ ?_ h
  · intro l hl
    unfold next
    split
    · exact hl
    · rename_i c cs hr
      have hs := congrArg List.length (Lexeme.splits_scan l.afterOperand c cs)
      rw [hr] at hl
      simp only [List.length_append] at hs
      simp only [stepOver]
      omega
  · intro l hl
    unfold next
    split
    · simp only [Token.atEnd]
      omega
    · rename_i c cs hr
      have hs := congrArg List.length (Lexeme.splits_scan l.afterOperand c cs)
      rw [hr] at hl
      simp only [List.length_append] at hs
      simp only [stepOver]
      omega

end Lexer

/-! ## Items -/

/-- The tokens that the grammar sees: those before the end of the text that are not hidden. -/
def visibleTokens (stream : List Token) : List Token :=
  (stream.takeWhile fun t => t.kind != .endOfText).filter fun t => !t.isHidden

theorem visibleTokens_cons {t : Token} {ts : List Token} (h : t.kind ≠ .endOfText) :
    visibleTokens (t :: ts) = if t.isHidden then visibleTokens ts else t :: visibleTokens ts := by
  cases hh : t.isHidden <;> simp [visibleTokens, h, hh]

theorem visibleTokens_append {ts us : List Token} (h : ∀ t ∈ ts, t.kind ≠ .endOfText) :
    visibleTokens (ts ++ us) = visibleTokens ts ++ visibleTokens us := by
  induction ts with
  | nil => rfl
  | cons t ts ih =>
    rw [List.forall_mem_cons] at h
    rw [List.cons_append, visibleTokens_cons h.1, visibleTokens_cons h.1, ih h.2]
    split <;> rfl

theorem mem_visibleTokens {stream : List Token} {t : Token} (h : t ∈ visibleTokens stream) :
    t ∈ stream ∧ t.kind ≠ .endOfText := by
  obtain ⟨h, -⟩ := List.mem_filter.1 h
  have hne := List.all_eq_true.1 List.all_takeWhile t h
  exact ⟨(List.takeWhile_sublist _).subset h, by simpa using hne⟩

/-- Each visible token is an item, and the end of the text is the last one. -/
theorem exists_placedItems_eq_append (stream : List Token) :
    ∃ ps last, placedItems stream = ps ++ [last] ∧ last.item.kind = .endOfText ∧
      ps.map (fun p => (⟨p.item.kind, p.item.text, p.start, p.stop⟩ : Token)) =
        visibleTokens stream := by
  suffices h : ∀ doc lineStart stop, ∃ ps last,
      placedItemsFrom doc lineStart stop stream = ps ++ [last] ∧ last.item.kind = .endOfText ∧
        ps.map (fun p => (⟨p.item.kind, p.item.text, p.start, p.stop⟩ : Token)) =
          visibleTokens stream from h _ _ _
  induction stream with
  | nil => exact fun _ _ _ => ⟨[], _, rfl, rfl, rfl⟩
  | cons t ts ih =>
    intro doc lineStart stop
    rw [placedItemsFrom]
    split
    · rename_i hk
      simpa [visibleTokens, hk, Token.isHidden, TokenKind.isTrivia] using ih _ _ _
    · rename_i hk
      simpa [visibleTokens, hk, Token.isHidden, TokenKind.isTrivia] using ih _ _ _
    · rename_i hk
      simpa [visibleTokens, hk, Token.isHidden, TokenKind.isTrivia] using ih _ _ _
    · rename_i hk
      exact ⟨[], _, rfl, rfl, by simp [visibleTokens, hk]⟩
    · rename_i hd hc hb he
      obtain ⟨ps, last, hp, hl, hm⟩ := ih none false t.stop
      have hidden : t.kind.isTrivia = false := by
        unfold TokenKind.isTrivia
        split <;> simp_all
      refine ⟨_ :: ps, last, by rw [hp]; rfl, hl, ?_⟩
      rw [visibleTokens_cons he, if_neg (by simp [Token.isHidden, hidden]), ← hm]
      rfl

/-- Items lie where tokens do. -/
theorem stop_le_of_mem_placedItems {stream : List Token} {size : Nat}
    (h : ∀ t ∈ stream, t.start ≤ t.stop ∧ t.stop ≤ size) :
    ∀ p ∈ placedItems stream, p.start ≤ p.stop ∧ p.stop ≤ size := by
  suffices h' : ∀ doc lineStart stop, stop ≤ size →
      ∀ p ∈ placedItemsFrom doc lineStart stop stream, p.start ≤ p.stop ∧ p.stop ≤ size from
    h' _ _ _ (Nat.zero_le _)
  induction stream with
  | nil =>
    intro doc lineStart stop hs p hp
    obtain rfl : p = _ := List.mem_singleton.1 hp
    exact ⟨Nat.le_refl _, hs⟩
  | cons t ts ih =>
    intro doc lineStart stop hs
    have ht := h t (List.mem_cons_self ..)
    have hts := ih fun t ht => h t (List.mem_cons_of_mem _ ht)
    rw [placedItemsFrom]
    split
    · exact hts _ _ _ ht.2
    · exact hts _ _ _ ht.2
    · exact hts _ _ _ ht.2
    · simpa using ht
    · simp only [List.mem_cons, forall_eq_or_imp]
      exact ⟨ht, hts _ _ _ ht.2⟩

end SchemaLang
