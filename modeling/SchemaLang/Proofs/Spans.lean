import SchemaLang.Proofs.Offsets.Positions
import SchemaLang.Reading

/-!
# Spans of a text

Main statement: between two places of its text, a registered source has the span of the positions there
(`Registry.spanOf_eq`).
-/

set_option autoImplicit false

namespace SchemaLang

namespace Registry

variable {r : Registry} {id : SourceId} {source : Source}

theorem find?_of_find (h : r.find id = .ok source) : r.find? id = some source := by
  unfold find at h
  split at h
  · rename_i s hs
    cases h
    exact hs
  · cases h

/-- The place before a code point is behind what stands before it. -/
theorem resolve_eq (h : r.find id = .ok source) {i : Nat} (hi : i ≤ source.size) :
    r.resolve id i = .ok (.behind (source.text.toList.take i)) := by
  have hf := find?_of_find h
  have hb : r.byteOf? id i = some (String.utf8Len (source.text.toList.take i)) := by
    rw [byteOf?, hf, Option.bind_some, Source.byteOf?_eq, if_pos hi]
  have hp : r.positionAt? id (String.utf8Len (source.text.toList.take i)) =
      some (.behind (source.text.toList.take i)) := by
    rw [positionAt?, hf, Option.bind_some, Source.positionAt?_utf8Len (List.take_prefix i _)]
  simp only [resolve, hb, hp]

/-- Behind the end of the text there is no place. -/
theorem resolve_eq_error (h : r.find id = .ok source) {i : Nat} (hi : source.size < i) :
    r.resolve id i = .error (.unresolvedOffset id i) := by
  have hb : r.byteOf? id i = none := by
    rw [byteOf?, find?_of_find h, Option.bind_some, Source.byteOf?_eq, if_neg (Nat.not_le.2 hi)]
  simp only [resolve, hb]

theorem spanOf_eq (h : r.find id = .ok source) {start stop : Nat} (hle : start ≤ stop)
    (hstop : stop ≤ source.size) : r.spanOf id start stop =
      .ok ⟨id, .behind (source.text.toList.take start), .behind (source.text.toList.take stop)⟩ := by
  simp only [spanOf, resolve_eq h (Nat.le_trans hle hstop), resolve_eq h hstop,
    if_neg (Nat.not_lt.2 hle)]

theorem exists_spanOf (h : r.find id = .ok source) {start stop : Nat} (hle : start ≤ stop)
    (hstop : stop ≤ source.size) : ∃ s, r.spanOf id start stop = .ok s :=
  ⟨_, spanOf_eq h hle hstop⟩

/-- Only a range of places has a span. -/
theorem le_of_spanOf (h : r.find id = .ok source) {start stop : Nat} {s : Span}
    (hs : r.spanOf id start stop = .ok s) : start ≤ stop ∧ stop ≤ source.size := by
  unfold spanOf at hs
  split at hs
  · cases hs
  rename_i hle
  refine ⟨Nat.le_of_not_lt hle, Nat.le_of_not_lt fun hlt => ?_⟩
  rw [resolve_eq_error h hlt] at hs
  split at hs <;> cases hs

/-- Going over a list does not fail where no element does. -/
theorem exists_mapM {α β ε : Type} {f : α → Except ε β} {as : List α}
    (h : ∀ a ∈ as, ∃ b, f a = .ok b) : ∃ bs, as.mapM f = .ok bs := by
  induction as with
  | nil => exact ⟨[], rfl⟩
  | cons a as ih =>
    obtain ⟨b, hb⟩ := h a (List.mem_cons_self ..)
    obtain ⟨bs, hbs⟩ := ih fun a' ha' => h a' (List.mem_cons_of_mem a ha')
    exact ⟨b :: bs, by rw [List.mapM_cons, hb, hbs]; rfl⟩

/-- If all items have spans, so has the text that they are read from. -/
theorem exists_spanTable {items : List PlacedItem}
    (h : ∀ p ∈ items, ∃ s, r.spanOf id p.start p.stop = .ok s) :
    ∃ table, r.spanTable id items = .ok table := by
  obtain ⟨spans, hspans⟩ := exists_mapM h
  exact ⟨⟨spans.toArray⟩, by rw [spanTable, hspans]; rfl⟩

end Registry

end SchemaLang
