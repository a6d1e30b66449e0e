import SchemaLang.Proofs.Slashes

/-!
# Lexemes by how they are written

What is cut off a text that begins with a word or a symbol.

Main statements: a word is cut off as far as its letters go (`Lexeme.scan_word`), and a symbol of one
character is, unless the next character goes on with it (`Lexeme.scan_symbol`).
-/

set_option autoImplicit false

namespace SchemaLang

/-! ## Letters -/

theorem isAlpha_iff_toNat {c : Char} : c.isAlpha = true ↔
    (0x41 ≤ c.toNat ∧ c.toNat ≤ 0x5A) ∨ (0x61 ≤ c.toNat ∧ c.toNat ≤ 0x7A) := by
  show (decide (c.val ≥ 0x41 ∧ c.val ≤ 0x5A) || decide (c.val ≥ 0x61) && decide (c.val ≤ 0x7A)) = true ↔ _
  simp only [Bool.or_eq_true, Bool.and_eq_true, decide_eq_true_eq, ge_iff_le, UInt32.le_iff_toNat_le]
  rfl

theorem isDigit_iff_toNat {c : Char} : c.isDigit = true ↔ 0x30 ≤ c.toNat ∧ c.toNat ≤ 0x39 := by
  simp only [Char.isDigit, Bool.and_eq_true, decide_eq_true_eq, ge_iff_le, UInt32.le_iff_toNat_le]
  rfl

theorem isSpace_eq_false_of_isAlpha {c : Char} (h : c.isAlpha = true) : isSpace c = false := by
  have := isAlpha_iff_toNat.1 h
  simp only [isSpace, Text.isBlank, Bool.or_eq_false_iff, Bool.and_eq_false_iff,
    decide_eq_false_iff_not, beq_eq_false_iff_ne]
  omega

theorem isDigit_eq_false_of_isAlpha {c : Char} (h : c.isAlpha = true) : c.isDigit = false := by
  rw [Bool.eq_false_iff]
  intro hd
  have := isAlpha_iff_toNat.1 h
  have := isDigit_iff_toNat.1 hd
  omega

/-- A character that is not a letter is not the same as one that is. -/
theorem ne_of_isAlpha {c d : Char} (h : c.isAlpha = true) (hd : d.isAlpha = false) : c ≠ d := by
  rintro rfl
  simp [h] at hd

/-- The longest start with a property ends where the property does. -/
theorem takeWhile_dropWhile_append {p : Char → Bool} {cs rest : List Char} (h : ∀ c ∈ cs, p c = true)
    (hr : ∀ d ∈ rest.head?, p d = false) :
    (cs ++ rest).takeWhile p = cs ∧ (cs ++ rest).dropWhile p = rest := by
  have hnone : rest.takeWhile p = [] ∧ rest.dropWhile p = rest := by
    cases rest with
    | nil => exact ⟨rfl, rfl⟩
    | cons d ds => simp [hr d rfl]
  rw [List.takeWhile_append_of_pos h, List.dropWhile_append_of_pos h, hnone.1, hnone.2, List.append_nil]
  exact ⟨rfl, rfl⟩

/-! ## Symbols -/

namespace Symbol

theorem leading?_eq_none {c : Char} {cs : List Char} (h : ∀ s : Symbol, s.chars.head? ≠ some c) :
    leading? (c :: cs) = none := by
  cases hs : leading? (c :: cs) with
  | none => rfl
  | some s =>
    have hc := congrArg List.head? (chars_of_leading? hs)
    have hne : s.chars ≠ [] := by cases s <;> simp [chars]
    rw [List.head?_append_of_ne_nil _ hne] at hc
    exact absurd hc.symm (h s)

theorem leading?_eq_none_of_isAlpha {c : Char} {cs : List Char} (h : c.isAlpha = true) :
    leading? (c :: cs) = none := by
  refine leading?_eq_none fun s hs => ?_
  have hall : (s.chars.head?.all fun d => !d.isAlpha) = true := by cases s <;> decide
  simp [hs, h] at hall

theorem chars_injective : Function.Injective chars := by
  have hfind (s : Symbol) : all.find? (·.chars == s.chars) = some s := by cases s <;> decide
  intro s t h
  have hs := hfind s
  rw [h, hfind t] at hs
  exact (Option.some.inj hs).symm

/-- Whether a longer symbol begins with `s` and the character `d` behind it. -/
def goesOn (s : Symbol) (d : Char) : Bool := all.any fun t => (s.chars ++ [d]).isPrefixOf t.chars

/-- The symbol found is the longest one. -/
theorem length_chars_le_of_leading? {s t : Symbol} {cs : List Char} (h : leading? (s.chars ++ cs) = some t) :
    s.chars.length ≤ t.chars.length := by
  have hmem : s.chars.length ∈ [3, 2, 1] := by cases s <;> decide
  have hfind : (all.find? fun t => t.chars == (s.chars ++ cs).take s.chars.length) ≠ none := by
    rw [Ne, List.find?_eq_none]
    exact fun hn => hn s (mem_all s) (by simp)
  obtain ⟨longer, n, shorter, hlist, hn, hlonger⟩ := List.findSome?_eq_some_iff.1 h
  have ht : t.chars = (s.chars ++ cs).take n := by simpa using List.find?_some hn
  have hle : s.chars.length ≤ n := by
    have hsorted : (longer ++ n :: shorter).Pairwise (· > ·) := hlist ▸ by decide
    rw [hlist] at hmem
    rcases List.mem_append.1 hmem with hm | hm
    · exact absurd (hlonger _ hm) hfind
    · rcases List.mem_cons.1 hm with hm | hm
      · exact hm.le
      · exact ((List.pairwise_cons.1 (List.pairwise_append.1 hsorted).2.1).1 _ hm).le
  rw [ht, List.length_take, List.length_append]
  omega

/-- A symbol is found where no longer one goes on. -/
theorem leading?_append {s : Symbol} {cs : List Char} (h : ∀ d ∈ cs.head?, s.goesOn d = false) :
    leading? (s.chars ++ cs) = some s := by
  have hsome : leading? (s.chars ++ cs) ≠ none := by
    intro hn
    have hfind := List.findSome?_eq_none_iff.1 hn s.chars.length (by cases s <;> decide)
    rw [List.find?_eq_none] at hfind
    exact hfind s (mem_all s) (by simp)
  obtain ⟨t, ht⟩ := Option.ne_none_iff_exists'.1 hsome
  have hpre : s.chars <+: t.chars := List.prefix_of_prefix_length_le (List.prefix_append ..)
    ⟨_, (chars_of_leading? ht).symm⟩ (length_chars_le_of_leading? ht)
  obtain ⟨ds, hds⟩ := hpre
  rw [ht]
  congr 1
  cases ds with
  | nil => exact chars_injective (by rw [← hds, List.append_nil])
  | cons d ds =>
    -- a longer symbol would go on with the next character
    have hgoes : s.goesOn d = true :=
      List.any_eq_true.2 ⟨t, mem_all t, List.isPrefixOf_iff_prefix.2 ⟨ds, by rw [← hds]; simp⟩⟩
    have hcs := chars_of_leading? ht
    rw [← hds, List.append_assoc, List.append_cancel_left_eq] at hcs
    have hhead : cs.head? = some d := by
      rw [hcs]
      rfl
    rw [h d hhead] at hgoes
    cases hgoes

end Symbol

/-! ## Words -/

namespace Lexeme

theorem scan_of_isAlpha {afterOperand : Bool} {c : Char} {cs : List Char} (h : c.isAlpha = true) :
    scan afterOperand c cs = word (c :: cs) := by
  have hslash : c ≠ '/' := ne_of_isAlpha h rfl
  have hdouble : c ≠ '"' := ne_of_isAlpha h rfl
  have hsingle : c ≠ '\'' := ne_of_isAlpha h rfl
  have hdollar : c ≠ '$' := ne_of_isAlpha h rfl
  simp [scan, h, isSpace_eq_false_of_isAlpha h, hslash, hdouble, hsingle, hdollar,
    Symbol.leading?_eq_none_of_isAlpha h, isDigit_eq_false_of_isAlpha h]

/-- A word ends before the first character that no word has. -/
theorem scan_word {afterOperand : Bool} {c : Char} {cs rest : List Char}
    (h : hasAliasShape (c :: cs) = true) (hr : ∀ d ∈ rest.head?, isWordPart d = false) :
    scan afterOperand c (cs ++ rest) = ⟨wordKind (String.ofList (c :: cs)), c :: cs, rest, []⟩ := by
  simp only [hasAliasShape, Bool.and_eq_true] at h
  have hall : ∀ d ∈ c :: cs, isWordPart d = true := by
    intro d hd
    rcases List.mem_cons.1 hd with rfl | hd
    · simp [isWordPart, Char.isAlphanum, h.1]
    · exact List.all_eq_true.1 h.2 d hd
  obtain ⟨htake, hdrop⟩ := takeWhile_dropWhile_append hall hr
  rw [scan_of_isAlpha h.1, ← List.cons_append, word, htake, hdrop]

theorem scan_symbol {afterOperand : Bool} {s : Symbol} {c : Char} {rest : List Char}
    (hc : s.chars = [c]) (hs : s ≠ .slash) (hr : ∀ d ∈ rest.head?, s.goesOn d = false) :
    scan afterOperand c rest = ⟨.symbol s, [c], rest, []⟩ := by
  have hfirst : (s.chars.head?.all fun d => !isSpace d) = true := by cases s <;> decide
  have hspace : isSpace c = false := by simpa [hc] using hfirst
  have hslash : c ≠ '/' := by
    rintro rfl
    exact hs (Symbol.chars_injective hc)
  have hsymbol : Symbol.leading? (c :: rest) = some s := by
    rw [← List.singleton_append, ← hc]
    exact Symbol.leading?_append hr
  simp [scan, hspace, hslash, hsymbol, hc]

end Lexeme

end SchemaLang
