import SchemaLang.Proofs.Written.Lexemes

/-!
# Aliases are words

An alias must be one word for the lexer, so that it can stand before a point. The check on aliases does not
ask the lexer.

* `IsSingle p s`: the text `s` is cut into a single token, of a kind that `p` allows, without a fault.

Main statement: the check accepts just the words, and calls reserved just the keywords
(`checkAlias_agrees`).
-/

set_option autoImplicit false

namespace SchemaLang

def IsSingle (p : TokenKind → Bool) (s : String) : Prop :=
  (tokenize s).2 = [] ∧
    ∃ t e, (tokenize s).1 = [t, e] ∧ p t.kind = true ∧ e.kind = .endOfText

/-! ## Texts that are one word -/

theorem tokenize_of_hasAliasShape {s : String} (h : hasAliasShape s.toList = true) :
    tokenize s = ([⟨wordKind s, s, 0, s.length⟩, Token.atEnd s.length], []) := by
  obtain ⟨c, cs, hs⟩ : ∃ c cs, s.toList = c :: cs := by
    cases hs : s.toList with
    | nil => simp [hs, hasAliasShape] at h
    | cons c cs => exact ⟨c, cs, rfl⟩
  have hscan : Lexeme.scan false c cs = ⟨wordKind s, c :: cs, [], []⟩ := by
    have hword : Lexeme.scan false c (cs ++ []) = _ := Lexeme.scan_word (hs ▸ h) (by simp)
    rwa [List.append_nil, ← hs, String.ofList_toList, hs] at hword
  have hnext : (Lexer.ofText s).next = (Lexer.ofText s).stepOver ⟨wordKind s, c :: cs, [], []⟩ := by
    rw [Lexer.next_of_rest_eq_cons (show (Lexer.ofText s).rest = c :: cs from hs)]
    exact congrArg _ hscan
  have hlast : (Lexer.ofText s).next.lexer.steps =
      [⟨Token.atEnd s.length, [], (Lexer.ofText s).next.lexer⟩] := by
    rw [Lexer.steps, hnext]
    simp [Lexer.stepOver, Lexer.next, Lexer.ofText, ← String.length_toList, hs]
  have hsteps : (Lexer.ofText s).steps =
      [(Lexer.ofText s).next, ⟨Token.atEnd s.length, [], (Lexer.ofText s).next.lexer⟩] := by
    rw [Lexer.steps, dif_neg (by simp [Lexer.ofText, hs]), hlast]
  rw [tokenize, hsteps, hnext]
  simp [Lexer.stepOver, Lexer.ofText, ← hs, String.length_toList]

/-- A single token spells the whole text. -/
theorem IsSingle.spells {p : TokenKind → Bool} {s : String} (h : IsSingle p s) :
    ∃ k : TokenKind, p k = true ∧ k.Spells s := by
  obtain ⟨-, t, e, hte, hp, -⟩ := h
  obtain ⟨ts, stop, hts, hspells⟩ := Lexer.exists_tokens_eq_append (Lexer.ofText s)
  have hstream : [t] ++ [e] = ts ++ [Token.atEnd stop] := hte.symm.trans hts
  obtain ⟨rfl, he⟩ := List.append_inj' hstream rfl
  have hpieces := Lexer.toList_tokens (Lexer.ofText s)
  rw [show (Lexer.ofText s).tokens = [t, e] from hte, List.singleton_inj.1 he] at hpieces
  have htext : t.text = s :=
    String.toList_injective (by simpa [Token.atEnd, Lexer.ofText] using hpieces)
  exact ⟨t.kind, hp, htext ▸ (hspells t (by simp)).2⟩

theorem isSingle_of_hasAliasShape {p : TokenKind → Bool} {s : String}
    (h : hasAliasShape s.toList = true) (hp : p (wordKind s) = true) : IsSingle p s := by
  rw [IsSingle, tokenize_of_hasAliasShape h]
  exact ⟨rfl, _, _, rfl, hp, rfl⟩

/-! ## Keywords -/

/-- Keywords have the shape of aliases, so they are refused for what they are. -/
theorem checkAlias_keyword (w : Keyword) :
    checkAlias w.text = .error (.reservedKeyword w.text) := by
  cases w <;> rfl

theorem checkAlias_builtin (b : BuiltinKind) :
    checkAlias b.text = .error (.reservedKeyword b.text) := by
  cases b <;> rfl

theorem TokenKind.Spells.checkAlias_of_isKeyword {k : TokenKind} {s : String} (h : k.Spells s)
    (hk : k.isKeyword = true) : checkAlias s = .error (.reservedKeyword s) := by
  cases k with
  | keyword w => rw [h.keyword w rfl, checkAlias_keyword]
  | builtin b => rw [h.builtin b rfl, checkAlias_builtin]
  | _ => cases hk

/-! ## The check -/

variable {s : String}

theorem checkAlias_eq_ok_iff : checkAlias s = .ok () ↔ IsSingle TokenKind.isWord s := by
  constructor
  · intro h
    unfold checkAlias at h
    split at h
    · cases h
    rename_i hshape
    split at h
    · cases h
    rename_i hreserved
    refine isSingle_of_hasAliasShape (by simpa using hshape) ?_
    have hnone : keyword? s = none := by simpa [isReserved] using hreserved
    rw [wordKind, hnone]
    dsimp only
    split <;> rfl
  · intro h
    obtain ⟨k, hk, hs⟩ := h.spells
    exact hs.word hk

theorem checkAlias_eq_reservedKeyword_iff :
    checkAlias s = .error (.reservedKeyword s) ↔ IsSingle TokenKind.isKeyword s := by
  constructor
  · intro h
    unfold checkAlias at h
    split at h
    · cases h
    rename_i hshape
    split at h
    · rename_i hreserved
      refine isSingle_of_hasAliasShape (by simpa using hshape) ?_
      obtain ⟨k, hk⟩ := Option.isSome_iff_exists.1 hreserved
      rw [wordKind, hk]
      rcases text_of_keyword? hk with ⟨w, rfl, -⟩ | ⟨b, rfl, -⟩ <;> rfl
    · cases h
  · intro h
    obtain ⟨k, hk, hs⟩ := h.spells
    exact hs.checkAlias_of_isKeyword hk

theorem checkAlias_cases (s : String) : checkAlias s = .ok () ∨
    checkAlias s = .error (.reservedKeyword s) ∨ checkAlias s = .error (.invalidShape s) := by
  unfold checkAlias
  split
  · exact .inr (.inr rfl)
  split
  · exact .inr (.inl rfl)
  · exact .inl rfl

theorem checkAlias_eq_invalidShape_iff : checkAlias s = .error (.invalidShape s) ↔
    ¬ IsSingle TokenKind.isWord s ∧ ¬ IsSingle TokenKind.isKeyword s := by
  rw [← checkAlias_eq_ok_iff, ← checkAlias_eq_reservedKeyword_iff]
  constructor
  · intro h
    simp [h]
  · rintro ⟨hok, hreserved⟩
    exact ((checkAlias_cases s).resolve_left hok).resolve_left hreserved

/-- **Aliases are words.** A text passes the check if it is a single word for the lexer, it is refused as
reserved if it is a single keyword, and it is refused for its shape in all other cases. In any text, each
token that is a word passes. -/
theorem checkAlias_agrees :
    (∀ s : String, (checkAlias s = .ok () ↔ IsSingle TokenKind.isWord s) ∧
      (checkAlias s = .error (.reservedKeyword s) ↔ IsSingle TokenKind.isKeyword s) ∧
      (checkAlias s = .error (.invalidShape s) ↔
        ¬ IsSingle TokenKind.isWord s ∧ ¬ IsSingle TokenKind.isKeyword s)) ∧
    ∀ text : String, ∀ t ∈ (tokenize text).1, t.kind.isWord = true → checkAlias t.text = .ok () := by
  refine ⟨fun s => ⟨checkAlias_eq_ok_iff, checkAlias_eq_reservedKeyword_iff,
    checkAlias_eq_invalidShape_iff⟩, fun text t ht hword => ?_⟩
  obtain ⟨ts, stop, hts, hspells⟩ := Lexer.exists_tokens_eq_append (Lexer.ofText text)
  rw [show (tokenize text).1 = _ from hts] at ht
  rcases List.mem_append.1 ht with ht | ht
  · exact (hspells t ht).2.word hword
  · obtain rfl := List.mem_singleton.1 ht
    cases hword

end SchemaLang
