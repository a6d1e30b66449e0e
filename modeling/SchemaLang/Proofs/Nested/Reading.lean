import Mathlib
import SchemaLang.Proofs.Nested.Unit
import SchemaLang.Proofs.Tiling

/-!
# Spans of schema trees

* `Span.order`: which spans lie within others, and which before others, by bytes.
* `Spaced`: placed items, one behind the other and none of them empty but the last.
* `SpanTable.Spaced`: the spans of such items.

The order of extents is kept by the spans of a text, so the tree that is read has nested spans as it has
nested extents.

Main statement: the spans of whatever is read from a source are nested (`Registry.nested_of_read`).
-/

set_option autoImplicit false

namespace SchemaLang

/-- A span before another one is not empty, so it starts before the other one as well. -/
def Span.order : PlaceOrder Span where
  within s t := s.source = t.source ∧ t.start.byte ≤ s.start.byte ∧ s.start.byte ≤ s.stop.byte ∧
    s.stop.byte ≤ t.stop.byte
  before s t := s.start.byte < s.stop.byte ∧ s.stop.byte ≤ t.start.byte

/-! ## Bytes -/

theorem Source.lt_of_byteOf? {s : Source} {i j b c : Nat} (hi : s.byteOf? i = some b)
    (hj : s.byteOf? j = some c) (hij : i < j) : b < c := by
  have hlen : s.text.toList.length = s.size := String.length_toList
  rw [byteOf?_eq] at hi hj
  split at hi
  · split at hj
    · rename_i hj'
      cases hi
      cases hj
      have hbetween : (s.text.toList.drop i).take (j - i) ≠ [] := by
        simp only [ne_eq, List.take_eq_nil_iff, List.drop_eq_nil_iff]
        omega
      have hpos := utf8Len_pos hbetween
      rw [← Nat.add_sub_cancel' (Nat.le_of_lt hij), List.take_add, String.utf8Len_append]
      omega
    · cases hj
  · cases hi

theorem Source.le_of_byteOf? {s : Source} {i j b c : Nat} (hi : s.byteOf? i = some b)
    (hj : s.byteOf? j = some c) (hij : i ≤ j) : b ≤ c := by
  rcases Nat.eq_or_lt_of_le hij with rfl | hlt
  · exact Nat.le_of_eq (Option.some.inj (hi.symm.trans hj))
  · exact Nat.le_of_lt (Source.lt_of_byteOf? hi hj hlt)

namespace Registry

variable {r : Registry} {id : SourceId} {source : Source}

/-- The bytes of a span are those of its code points. -/
theorem bytes_of_spanOf (h : r.find id = .ok source) {start stop : Nat} {s : Span}
    (hs : r.spanOf id start stop = .ok s) :
    s.source = id ∧ source.byteOf? start = some s.start.byte ∧
      source.byteOf? stop = some s.stop.byte := by
  obtain ⟨hle, hstop⟩ := le_of_spanOf h hs
  rw [spanOf_eq h hle hstop] at hs
  cases hs
  exact ⟨rfl, by rw [Source.byteOf?_eq, if_pos (Nat.le_trans hle hstop)]; rfl,
    by rw [Source.byteOf?_eq, if_pos hstop]; rfl⟩

end Registry

/-! ## Items -/

structure Spaced (ps : List PlacedItem) : Prop where
  le : ∀ p ∈ ps, p.start ≤ p.stop
  pairwise : ps.Pairwise fun p q => p.start < p.stop ∧ p.stop ≤ q.start

/-- Hidden tokens only make gaps. -/
theorem spaced_placedItemsFrom {stream : List Token} {doc : Option String} {lineStart : Bool}
    {stop : Nat} (hadj : stream.IsChain fun t u => u.start = t.stop)
    (hlt : ∀ t ∈ stream, t.start ≤ t.stop ∧ (t.kind ≠ .endOfText → t.start < t.stop))
    (hstop : ∀ t ∈ stream.head?, stop ≤ t.start) :
    Spaced (placedItemsFrom doc lineStart stop stream) ∧
      ∀ p ∈ placedItemsFrom doc lineStart stop stream, stop ≤ p.start := by
  induction stream generalizing doc lineStart stop with
  | nil => exact ⟨⟨by simp [placedItemsFrom], List.pairwise_singleton ..⟩, by simp [placedItemsFrom]⟩
  | cons t ts ih =>
    obtain ⟨⟨hle, hne⟩, hts⟩ := List.forall_mem_cons.1 hlt
    have hstart : stop ≤ t.start := hstop t rfl
    have hhead : ∀ u ∈ ts.head?, t.stop ≤ u.start := by
      intro u hu
      obtain ⟨us, rfl⟩ := List.head?_eq_some_iff.1 hu
      exact Nat.le_of_eq (List.isChain_cons_cons.1 hadj).1.symm
    have rest (doc : Option String) (lineStart : Bool) :=
      @ih doc lineStart t.stop hadj.tail hts hhead
    have widen {ps : List PlacedItem} (h : Spaced ps ∧ ∀ p ∈ ps, t.stop ≤ p.start) :
        Spaced ps ∧ ∀ p ∈ ps, stop ≤ p.start :=
      ⟨h.1, fun p hp => Nat.le_trans (Nat.le_trans hstart hle) (h.2 p hp)⟩
    rw [placedItemsFrom]
    split
    · exact widen (rest _ _)
    · exact widen (rest _ _)
    · exact widen (rest _ _)
    · exact ⟨⟨by simpa using hle, List.pairwise_singleton ..⟩, by simpa using hstart⟩
    · rename_i hk
      obtain ⟨hspaced, hbehind⟩ := rest none false
      have hlt := hne hk
      refine ⟨⟨?_, .cons (fun q hq => ⟨hlt, hbehind q hq⟩) hspaced.pairwise⟩, ?_⟩
      · exact List.forall_mem_cons.2 ⟨hle, hspaced.le⟩
      · exact List.forall_mem_cons.2 ⟨hstart, (widen ⟨hspaced, hbehind⟩).2⟩

theorem spaced_placedItems (text : String) : Spaced (placedItems (tokenize text).1) := by
  refine (spaced_placedItemsFrom (Lexer.isChain_adjacent _) (fun t ht => ?_) fun t _ =>
    Nat.zero_le _).1
  obtain ⟨s, hs, rfl⟩ := List.mem_map.1 ht
  rcases (Lexer.reads_ofText text).token_cases s hs with ⟨-, hslice⟩ | hend
  · exact ⟨Nat.le_of_lt hslice.start_lt, fun _ => hslice.start_lt⟩
  · rw [hend]
    exact ⟨Nat.le_refl _, fun hne => absurd rfl hne⟩

/-! ## Tables -/

/-- The spans of the first `size` items of a table stand in their order, and only the last of them may be
empty. -/
structure SpanTable.Spaced (t : SpanTable) (id : SourceId) (size : Nat) : Prop where
  source : ∀ i < size, (t.at_ i).source = id
  le : ∀ i < size, (t.at_ i).start.byte ≤ (t.at_ i).stop.byte
  lt : ∀ i j, i < j → j < size → (t.at_ i).start.byte < (t.at_ i).stop.byte ∧
    (t.at_ i).stop.byte ≤ (t.at_ j).start.byte

namespace SpanTable.Spaced

variable {t : SpanTable} {id : SourceId} {size i j : Nat}

theorem start_mono (h : t.Spaced id size) (hij : i ≤ j) (hj : j < size) :
    (t.at_ i).start.byte ≤ (t.at_ j).start.byte := by
  rcases Nat.eq_or_lt_of_le hij with rfl | hlt
  · exact Nat.le_refl _
  · have := h.lt i j hlt hj
    omega

theorem stop_mono (h : t.Spaced id size) (hij : i ≤ j) (hj : j < size) :
    (t.at_ i).stop.byte ≤ (t.at_ j).stop.byte := by
  rcases Nat.eq_or_lt_of_le hij with rfl | hlt
  · exact Nat.le_refl _
  · have := h.lt i j hlt hj
    have := h.le j hj
    omega

theorem stop_span (h : t.Spaced id size) {e : Extent} (hle : e.first ≤ e.last)
    (hlast : e.last < size) : (t.span e).stop.byte = (t.at_ e.last).stop.byte := by
  show ((t.at_ e.first).stop.later (t.at_ e.last).stop).byte = _
  rw [Position.byte_later, Nat.max_eq_right (h.stop_mono hle hlast)]

/-- Spans of extents within each other, or before each other, lie in the same way. -/
theorem nested_map (h : t.Spaced id size) {u : SchemaUnit Extent} (hu : u.Nested Extent.order)
    (hplace : u.place.first ≤ u.place.last ∧ u.place.last < size) :
    (u.map t.span).Nested Span.order := by
  refine hu.map t.span (fun e => e.first ≤ e.last ∧ e.last < size) ?_ ?_ ?_ hplace
  · rintro d e ⟨-, hle, hlast⟩ ⟨-, he⟩
    exact ⟨hle, by omega⟩
  · rintro d e ⟨hfirst, hle, hlast⟩ ⟨hle', he⟩
    refine ⟨?_, h.start_mono hfirst (by omega), ?_, ?_⟩
    · exact (h.source d.first (by omega)).trans (h.source e.first (by omega)).symm
    · rw [h.stop_span hle (by omega)]
      exact Nat.le_trans (h.start_mono hle (by omega)) (h.le d.last (by omega))
    · rw [h.stop_span hle (by omega), h.stop_span hle' he]
      exact h.stop_mono hlast he
  · rintro d e hbefore ⟨hle, hd⟩ ⟨hle', he⟩
    have hbefore : d.last < e.first := hbefore
    have hend := h.lt d.last e.first hbefore (by omega)
    show (t.span d).start.byte < (t.span d).stop.byte ∧ (t.span d).stop.byte ≤ (t.span e).start.byte
    rw [h.stop_span hle hd]
    exact ⟨Nat.lt_of_le_of_lt (h.start_mono hle hd) hend.1, hend.2⟩

end SpanTable.Spaced

namespace Registry

variable {r : Registry} {id : SourceId} {source : Source}

theorem forall₂_of_mapM {α β ε : Type} {f : α → Except ε β} {as : List α} {bs : List β}
    (h : as.mapM f = .ok bs) : List.Forall₂ (fun a b => f a = .ok b) as bs := by
  induction as generalizing bs with
  | nil =>
    cases h
    exact .nil
  | cons a as ih =>
    rw [List.mapM_cons] at h
    cases hf : f a with
    | error e => simp [hf, bind, Except.bind] at h
    | ok b =>
      cases hm : as.mapM f with
      | error e => simp [hf, hm, bind, Except.bind] at h
      | ok bs' =>
        simp only [hf, hm, bind, Except.bind, pure, Except.pure, Except.ok.injEq] at h
        subst h
        exact .cons hf (ih hm)

/-- A table holds the span of each item. -/
theorem forall₂_spanTable {ps : List PlacedItem} {table : SpanTable}
    (ht : r.spanTable id ps = .ok table) :
    List.Forall₂ (fun p s => r.spanOf id p.start p.stop = .ok s) ps table.spans.toList := by
  unfold spanTable at ht
  cases hm : ps.mapM fun p => r.spanOf id p.start p.stop with
  | error e => simp [hm, Except.map] at ht
  | ok spans =>
    obtain rfl : ⟨spans.toArray⟩ = table := by simpa [hm, Except.map] using ht
    exact forall₂_of_mapM hm

theorem spanOf_at {ps : List PlacedItem} {table : SpanTable}
    (ht : r.spanTable id ps = .ok table) {i : Nat} (hi : i < ps.length) :
    r.spanOf id ps[i].start ps[i].stop = .ok (table.at_ i) := by
  have hall := forall₂_spanTable ht
  have hi' : i < table.spans.toList.length := hall.length_eq ▸ hi
  have hat : table.at_ i = table.spans.toList[i] := by
    rw [SpanTable.at_, Array.getD_eq_getD_getElem?, ← Array.getElem?_toList,
      List.getElem?_eq_getElem hi', Option.getD_some]
  rw [hat]
  exact hall.get hi hi'

theorem spaced_spanTable (h : r.find id = .ok source) {ps : List PlacedItem} (hps : Spaced ps)
    {table : SpanTable} (ht : r.spanTable id ps = .ok table) : table.Spaced id ps.length := by
  have hbytes (i : Nat) (hi : i < ps.length) := bytes_of_spanOf h (spanOf_at ht hi)
  refine ⟨fun i hi => (hbytes i hi).1, fun i hi => ?_, fun i j hij hj => ?_⟩
  · obtain ⟨-, hstart, hstop⟩ := hbytes i hi
    exact Source.le_of_byteOf? hstart hstop (hps.le _ (List.getElem_mem hi))
  · have hi := Nat.lt_trans hij hj
    obtain ⟨-, hstart, hstop⟩ := hbytes i hi
    obtain ⟨hlt, hle⟩ := List.pairwise_iff_getElem.1 hps.pairwise i j hi hj hij
    exact ⟨Source.lt_of_byteOf? hstart hstop hlt, Source.le_of_byteOf? hstop (hbytes j hj).2.1 hle⟩

/-! ## Readings -/

theorem unitExtent_le {items : Items} (h : 0 < items.size) :
    (unitExtent items).first ≤ (unitExtent items).last ∧ (unitExtent items).last < items.size := by
  unfold unitExtent
  split
  · exact ⟨Nat.le_refl _, Nat.sub_lt h Nat.zero_lt_one⟩
  · exact ⟨Nat.zero_le _, Nat.sub_lt h Nat.zero_lt_two⟩

/-- **Nested spans.** Whatever a source holds, in the unit that is read from it each node has its span
within its parent's, and siblings have disjoint spans one behind the other. -/
theorem nested_of_read (r : Registry) (id : SourceId) (reading : Reading)
    (h : r.read id = .ok reading) : reading.unit.Nested Span.order := by
  unfold read at h
  split at h
  · cases h
  rename_i source hsource
  dsimp only at h
  split at h
  · cases h
  split at h
  · cases h
  rename_i u hu
  cases h
  unfold readTokens at hu
  dsimp only at hu
  split at hu
  · cases hu
  rename_i table htable
  cases hu
  have hended := ended_itemsOf (tokenize source.text).1
  have hspaced := spaced_spanTable hsource (spaced_placedItems source.text) htable
  have hsize : (itemsOf (tokenize source.text).1).size =
      (placedItems (tokenize source.text).1).length := by simp [itemsOf]
  exact hspaced.nested_map hended.nested (hsize ▸ unitExtent_le hended.pos)

/-- The body of the association is not closed, nor are the parentheses of the constraint. -/
theorem nested_of_read_unclosed :
    let r : Registry := ⟨#[Source.ofText ""
      "schema\"s\"type T\x7b-->a U/b\x7bc Date!\"\"(d+e"]⟩
    ∃ reading, r.read ⟨1⟩ = .ok reading ∧ reading.diagnostics ≠ [] ∧
      reading.unit.Nested Span.order := by
  have hproblems : (read ⟨#[Source.ofText ""
      "schema\"s\"type T\x7b-->a U/b\x7bc Date!\"\"(d+e"]⟩ ⟨1⟩).map
        (fun x => x.diagnostics.isEmpty) = .ok false := by decide +kernel
  intro r
  cases h : r.read ⟨1⟩ with
  | error e => simp [r, h, Except.map] at hproblems
  | ok reading =>
    have hd : reading.diagnostics ≠ [] := by
      intro hnil
      simp [r, h, Except.map, hnil] at hproblems
    exact ⟨reading, rfl, hd, nested_of_read r ⟨1⟩ reading h⟩

end Registry

end SchemaLang
