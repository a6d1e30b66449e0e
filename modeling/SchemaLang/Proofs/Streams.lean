import SchemaLang.Proofs.Lexed
import SchemaLang.Proofs.Phrase.Legible
import SchemaLang.Proofs.Silent

/-!
# Items of a token stream

* `itemsOf stream` are the items that the grammar sees of a token stream.

Main statements: they are the visible tokens and the end of the text (`exists_stretch_itemsOf`); those
of a text are spelled as tokens are (`wellSpelled_itemsOf`), and none is malformed if the text has no
fault (`noInvalid_itemsOf`).
-/

set_option autoImplicit false

namespace SchemaLang

abbrev itemsOf (stream : List Token) : Items := ((placedItems stream).map (·.item)).toArray

/-- The visible tokens are the items before the end of the text. -/
theorem exists_stretch_itemsOf (stream : List Token) :
    ∃ ts, Stretch (itemsOf stream) 0 ts ts.length ∧ NoEnd ts ∧
      kindAt (itemsOf stream) ts.length = .endOfText ∧ (itemsOf stream).size = ts.length + 1 ∧
      ts.map (fun t => (t.kind, t.text)) =
        (visibleTokens stream).map fun t => (t.kind, t.text) := by
  obtain ⟨ps, last, hp, hl, hm⟩ := exists_placedItems_eq_append stream
  have hi : itemsOf stream = (ps.map (·.item) ++ [last.item]).toArray := by simp [itemsOf, hp]
  have hmap : (ps.map (·.item)).map (fun t => (t.kind, t.text)) =
      (visibleTokens stream).map fun t => (t.kind, t.text) := by
    rw [← hm, List.map_map, List.map_map]
    rfl
  refine ⟨ps.map (·.item), ?_, fun t ht he => ?_, ?_, by simp [hi], hmap⟩
  · have := stretch_toArray [] (ps.map (·.item)) [last.item]
    rw [hi]
    simpa using this
  · have : (t.kind, t.text) ∈ (visibleTokens stream).map fun t => (t.kind, t.text) := by
      rw [← hmap]
      exact List.mem_map_of_mem ht
    obtain ⟨x, hx, hxt⟩ := List.mem_map.1 this
    simp only [Prod.mk.injEq] at hxt
    exact (mem_visibleTokens hx).2 (hxt.1.trans he)
  · rw [kindAt_of_getElem? (t := last.item) (by rw [hi]; simp), hl]

/-- An item is a visible token or the end of the text. -/
theorem itemAt_itemsOf (stream : List Token) (i : Nat) :
    kindAt (itemsOf stream) i = .endOfText ∨
      ∃ t ∈ visibleTokens stream, kindAt (itemsOf stream) i = t.kind ∧
        (itemAt (itemsOf stream) i).text = t.text := by
  obtain ⟨ts, hs, -, hend, hsize, hm⟩ := exists_stretch_itemsOf stream
  by_cases hlt : i < ts.length
  · have hget : (itemsOf stream)[i]? = some ts[i] := by
      have := hs.getElem? hlt
      simpa [List.getElem?_eq_getElem hlt] using this
    have hmem : (ts[i].kind, ts[i].text) ∈ (visibleTokens stream).map fun t => (t.kind, t.text) := by
      rw [← hm]
      exact List.mem_map_of_mem (List.getElem_mem hlt)
    obtain ⟨t, ht, he⟩ := List.mem_map.1 hmem
    simp only [Prod.mk.injEq] at he
    exact .inr ⟨t, ht, by rw [kindAt_of_getElem? hget, he.1],
      by rw [itemAt_of_getElem? hget, he.2]⟩
  · by_cases he : i = ts.length
    · exact .inl (he ▸ hend)
    · exact .inl (kindAt_of_size_le (by omega))

theorem wellSpelled_itemsOf (text : String) : WellSpelled (itemsOf (tokenize text).1) := by
  intro i
  obtain ⟨ts, stop, hts, hs⟩ := Lexer.exists_tokens_eq_append (Lexer.ofText text)
  rcases itemAt_itemsOf (tokenize text).1 i with h | ⟨t, ht, hk, htext⟩
  · rw [h]
    exact ⟨nofun, nofun, nofun⟩
  · rw [hk, htext]
    obtain ⟨ht, hne⟩ := mem_visibleTokens ht
    have ht : t ∈ ts ++ [Token.atEnd stop] := hts ▸ ht
    rcases List.mem_append.1 ht with ht | ht
    · exact (hs t ht).2
    · obtain rfl := List.mem_singleton.1 ht
      exact absurd rfl hne

theorem noInvalid_itemsOf {text : String} (h : (tokenize text).2 = []) :
    NoInvalid (itemsOf (tokenize text).1) := by
  intro i hk
  rcases itemAt_itemsOf (tokenize text).1 i with he | ⟨t, ht, ht', -⟩
  · rw [he] at hk
    cases hk
  · obtain ⟨s, hs, rfl⟩ := List.mem_map.1 (mem_visibleTokens ht).1
    exact Lexer.faults_ne_nil_of_mem_steps s hs (ht' ▸ hk) (List.flatMap_eq_nil_iff.1 h s hs)

end SchemaLang
