import SchemaLang.Proofs.Spans

/-!
# Offsets are resolved exactly

A place of a text has three names: the number of code points before it, the number of bytes, and a line
with a column.

Main statement: of a registered text, each name of a place is turned into the others, whichever table
answers, and nothing else is; so a range of code points has a span exactly if it is one of the text
(`Registry.offsets_of_find`).
-/

set_option autoImplicit false

namespace SchemaLang

namespace Registry

variable {r : Registry} {id : SourceId} {source : Source}

theorem byteOf?_of_find (h : r.find id = .ok source) (i : Nat) : r.byteOf? id i =
    if i ≤ source.text.length then some (String.utf8Len (source.text.toList.take i)) else none := by
  rw [byteOf?, find?_of_find h, Option.bind_some, Source.byteOf?_eq, Source.size]

/-- The table that an ASCII text does without would answer alike. -/
theorem getElem?_byteOffsets_of_find (h : r.find id = .ok source) (i : Nat) :
    (byteOffsets 0 source.text.toList)[i]? = r.byteOf? id i := by
  rw [byteOf?_of_find h, getElem?_byteOffsets, String.length_toList, Nat.zero_add]

theorem positionAt?_of_find (h : r.find id = .ok source) {byte : Nat} {p : Position} :
    r.positionAt? id byte = some p ↔
      ∃ before, before <+: source.text.toList ∧ String.utf8Len before = byte ∧ p = .behind before := by
  rw [positionAt?, find?_of_find h, Option.bind_some, Source.positionAt?_eq_some_iff]

/-- What has a position is a boundary between the characters of the text. -/
theorem positionAt?_isSome_iff (h : r.find id = .ok source) {byte : Nat} :
    (r.positionAt? id byte).isSome ↔ String.Pos.Raw.IsValid source.text ⟨byte⟩ := by
  rw [Option.isSome_iff_exists, ← String.Pos.Raw.isValid_eq_true_iff, Source.isValid_iff]
  constructor
  · rintro ⟨p, hp⟩
    obtain ⟨before, hbefore, hbyte, -⟩ := (positionAt?_of_find h).1 hp
    exact ⟨before, hbefore, hbyte⟩
  · rintro ⟨before, hbefore, hbyte⟩
    exact ⟨_, (positionAt?_of_find h).2 ⟨before, hbefore, hbyte, rfl⟩⟩

/-- Nothing but the range itself keeps it from having a span. -/
theorem ne_unresolvedPosition_of_spanOf (h : r.find id = .ok source) (start stop : Nat)
    (other : SourceId) (byte : Nat) :
    r.spanOf id start stop ≠ .error (.unresolvedPosition other byte) := by
  have hresolve (i : Nat) : r.resolve id i ≠ .error (.unresolvedPosition other byte) := by
    rcases Nat.lt_or_ge source.size i with hi | hi
    · rw [resolve_eq_error h hi]
      nofun
    · rw [resolve_eq h hi]
      nofun
  intro hs
  unfold spanOf at hs
  split at hs
  · cases hs
  split at hs
  · rename_i e he
    cases hs
    exact hresolve start he
  split at hs
  · rename_i e he
    cases hs
    exact hresolve stop he
  · cases hs

/-- **Exact places.** The byte offset of a code point is the length in UTF-8 of what stands before it,
with a table and without. A byte offset has a position exactly if it is a boundary between characters,
and the position tells the newlines before it and the code points behind the last of them. Bytes order
positions as lines and columns do. Ranges of code points of the text have spans, and no others have. -/
theorem offsets_of_find (r : Registry) (id : SourceId) (source : Source)
    (h : r.find id = .ok source) :
    (∀ i, r.byteOf? id i =
      if i ≤ source.text.length then some (String.utf8Len (source.text.toList.take i)) else none) ∧
    (∀ i, (byteOffsets 0 source.text.toList)[i]? = r.byteOf? id i) ∧
    (∀ byte p, r.positionAt? id byte = some p ↔ ∃ before, before <+: source.text.toList ∧
      String.utf8Len before = byte ∧
        p = ⟨before.count '\n' + 1, (Text.lastPart before).length, byte⟩) ∧
    (∀ byte, (r.positionAt? id byte).isSome ↔ String.Pos.Raw.IsValid source.text ⟨byte⟩) ∧
    (∀ byte byte' p p', r.positionAt? id byte = some p → r.positionAt? id byte' = some p' →
      compare p p' = (compare p.line p'.line).then (compare p.column p'.column)) ∧
    (∀ start stop, (∃ span, r.spanOf id start stop = .ok span) ↔
      start ≤ stop ∧ stop ≤ source.text.length) ∧
    ∀ start stop other byte,
      r.spanOf id start stop ≠ .error (.unresolvedPosition other byte) := by
  refine ⟨byteOf?_of_find h, getElem?_byteOffsets_of_find h, fun byte p => ?_,
    fun byte => positionAt?_isSome_iff h, fun byte byte' p p' hp hp' => ?_, fun start stop => ?_,
    ne_unresolvedPosition_of_spanOf h⟩
  · rw [positionAt?_of_find h]
    constructor
    · rintro ⟨before, hbefore, rfl, rfl⟩
      exact ⟨before, hbefore, rfl, rfl⟩
    · rintro ⟨before, hbefore, rfl, rfl⟩
      exact ⟨before, hbefore, rfl, rfl⟩
  · obtain ⟨before, hbefore, -, rfl⟩ := (positionAt?_of_find h).1 hp
    obtain ⟨before', hbefore', -, rfl⟩ := (positionAt?_of_find h).1 hp'
    exact Position.compare_behind hbefore hbefore'
  · constructor
    · rintro ⟨span, hspan⟩
      exact le_of_spanOf h hspan
    · rintro ⟨hle, hstop⟩
      exact exists_spanOf h hle hstop

/-- Behind a character of two bytes and a newline there is the fourth byte, at the start of the second
line. No place is inside the character, and no span ends behind the text. -/
theorem offsets_of_find_twoLines :
    let source := Source.ofText "" "é\nx"
    let r : Registry := ⟨#[source]⟩
    r.find ⟨1⟩ = .ok source ∧ r.byteOf? ⟨1⟩ 2 = some 3 ∧ r.byteOf? ⟨1⟩ 4 = none ∧
      r.positionAt? ⟨1⟩ 3 = some ⟨2, 0, 3⟩ ∧ ¬ ∃ span, r.spanOf ⟨1⟩ 2 4 = .ok span := by
  intro source r
  have hfind : r.find ⟨1⟩ = .ok source := rfl
  obtain ⟨hbyte, -, hposition, -, -, hspan, -⟩ := offsets_of_find r ⟨1⟩ source hfind
  refine ⟨hfind, ?_, ?_, (hposition 3 _).2 ⟨['é', '\n'], ?_, by decide, by decide⟩, fun hs => ?_⟩
  · rw [hbyte]
    decide
  · rw [hbyte]
    decide
  · decide
  · exact absurd ((hspan 2 4).1 hs).2 (by decide)

end Registry

end SchemaLang
