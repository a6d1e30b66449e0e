import SchemaLang.Proofs.Overlap.Thinning
import SchemaLang.Report.Wording

/-!
# Missing closing braces

* `withoutItems items gone` are the items but those at some positions.
* `placeWithout gone i` is where item `i` stands then, or what stands behind it if it is left out.

Main statement: if closing braces of types are left out of a text without problems, the same unit is read,
and there is one problem for each of them, at what stands behind it (`readUnit_withoutItems`).
-/

set_option autoImplicit false

namespace SchemaLang

def withoutItems (items : Items) (gone : Finset Nat) : Items :=
  (((List.range items.size).filter (· ∉ gone)).map (itemAt items)).toArray

def placeWithout (gone : Finset Nat) (i : Nat) : Nat := Nat.count (· ∉ gone) i

theorem length_filter_range (gone : Finset Nat) (n : Nat) :
    ((List.range n).filter (· ∉ gone)).length = placeWithout gone n := by
  rw [placeWithout, Nat.count, List.countP_eq_length_filter]

theorem getElem?_filter_range {gone : Finset Nat} {i n : Nat} (hi : i ∉ gone) (hn : i < n) :
    ((List.range n).filter (· ∉ gone))[placeWithout gone i]? = some i := by
  induction n with
  | zero => omega
  | succ n ih =>
    rw [List.range_succ, List.filter_append]
    rcases Nat.lt_or_eq_of_le (Nat.le_of_lt_succ hn) with hlt | rfl
    · have hget := ih hlt
      rw [List.getElem?_append_left (List.getElem?_eq_some_iff.1 hget).1, hget]
    · rw [List.getElem?_append_right (length_filter_range ..).le, length_filter_range]
      simp [hi]

section

variable {items : Items} {gone : Finset Nat} {i : Nat}

theorem size_withoutItems : (withoutItems items gone).size = placeWithout gone items.size := by
  rw [withoutItems, List.size_toArray, List.length_map, length_filter_range]

theorem itemAt_withoutItems (hi : i ∉ gone) :
    itemAt (withoutItems items gone) (placeWithout gone i) = itemAt items i := by
  rcases Nat.lt_or_ge i items.size with hlt | hge
  · rw [itemAt, withoutItems, Array.getD_eq_getD_getElem?, List.getElem?_toArray, List.getElem?_map,
      getElem?_filter_range hi hlt]
    rfl
  · have hle : (withoutItems items gone).size ≤ placeWithout gone i :=
      size_withoutItems ▸ Nat.count_monotone _ hge
    rw [itemAt, itemAt, Array.getD_eq_getD_getElem?, Array.getD_eq_getD_getElem?,
      Array.getElem?_eq_none hle, Array.getElem?_eq_none hge]

/-- Closing braces left out of a text without malformed text. -/
def thinning (hended : Ended items) (hi : NoInvalid items)
    (hbrace : ∀ g ∈ gone, kindAt items g = .symbol .rBrace) : Thinning where
  whole := items
  rest := withoutItems items gone
  gone := gone
  ended := hended
  noInvalid := hi
  size_eq := size_withoutItems
  same := fun _ hg => (itemAt_withoutItems hg).symm ▸ Item.same_refl _
  brace := hbrace

end

/-! ## Last items of types -/

namespace Rule

variable {items : Items} {i j : Nat}

theorem closed_of_yields_block {α : Type} {entry : Rule α} {what : Enclosure} {opened n : Nat}
    {as : List α} (hs : ∀ i, ¬ entry.Silent items i)
    (h : (block entry what opened n).Yields items i as j) :
    kindAt items (j - 1) = .symbol .rBrace := by
  induction n generalizing i as with
  | zero => simp [block, Yields] at h
  | succ n ih =>
    rcases (yields_block_succ (hs i)).1 h with ⟨hk, -, rfl⟩ | ⟨-, -, -, a, k, rest, -, hrest, -⟩
    · exact hk
    · exact ih hrest

theorem closed_of_yields_declaration {t : TypeDecl Extent} (hi : NoInvalid items)
    (h : declaration.Yields items i (.type t) j) :
    kindAt items (j - 1) = .symbol .rBrace := by
  obtain ⟨m, l, -, -, -, -, h⟩ := Overlap.exists_of_yields_declaration h
  simp [Overlap.typeFrom, Overlap.typeRest, typeBody] at h
  obtain ⟨ps, k, -, -, ms, hms, -⟩ := h
  exact closed_of_yields_block (fun _ => not_silent_typeMember hi) hms

end Rule

section

variable {items : Items} (hended : Ended items) (hi : NoInvalid items)

include hended hi

theorem closed_of_mem_unitBody {n i : Nat} {aliases : AliasTable} {declared : Bool}
    {t : TypeDecl Extent} (hclean : (unitBody items n aliases declared i).problems = [])
    (ht : .type t ∈ (unitBody items n aliases declared i).declarations) :
    kindAt items t.place.last = .symbol .rBrace := by
  induction n generalizing i aliases declared with
  | zero => cases ht
  | succ n ih =>
    by_cases hk : kindAt items i = .endOfText
    · rw [unitBody_of_end hk] at ht
      cases ht
    · rcases unitBody_cases hi hk hclean with ⟨d, j, aliases', -, -, -, hb⟩ | ⟨d, j, hd, hb⟩
      · rw [hb] at hclean ht
        exact ih hclean ht
      · rw [hb] at hclean ht
        rcases List.mem_cons.1 ht with rfl | ht
        · have hplace : t.place = ⟨i, j - 1⟩ :=
            (Rule.place_of_yields_entry hended.readWithin hd).2
          rcases Rule.kindAt_of_yields_entry hd with ⟨-, d', hd'⟩ | ⟨-, d', hd', hy⟩
          · cases hd'
          · cases hd'
            rw [hplace]
            exact Rule.closed_of_yields_declaration hi hy
        · exact ih hclean ht

theorem closed_of_mem_types {t : TypeDecl Extent} (hclean : (readUnit items).2 = [])
    (ht : t ∈ (readUnit items).1.types) : kindAt items t.place.last = .symbol .rBrace :=
  closed_of_mem_unitBody hended hi (List.append_eq_nil_iff.1 hclean).2 (SchemaUnit.mem_types.1 ht)

/-- **Missing closing braces cost one problem each.** From a text without problems, closing braces of
types may be left out. What is read is the same, and there is one problem for each of them: the brace is
missing at the item that stands behind it, the end of the text or the first word of a declaration. -/
theorem readUnit_withoutItems (hclean : (readUnit items).2 = []) (gone : Finset Nat)
    (hgone : ∀ g ∈ gone, ∃ t ∈ (readUnit items).1.types, t.place.last = g) :
    (∀ g ∈ gone, kindAt items g = .symbol .rBrace) ∧
      (readUnit (withoutItems items gone)).1.map forget = (readUnit items).1.map forget ∧
      List.Forall₂
        (fun (t : TypeDecl Extent) (p : Problem Extent) =>
          (kindAt items (t.place.last + 1) = .endOfText ∨
            atDeclaration items (t.place.last + 1) = true) ∧
          itemAt (withoutItems items gone) (placeWithout gone t.place.last) =
            itemAt items (t.place.last + 1) ∧
          ∀ f : Extent → Span, (p.map f).diagnostic.code = some "E213" ∧
            (p.map f).diagnostic.span = some (f (.single (placeWithout gone t.place.last))))
        ((readUnit items).1.types.filter (·.place.last ∈ gone))
        (readUnit (withoutItems items gone)).2 := by
  have hbrace : ∀ g ∈ gone, kindAt items g = .symbol .rBrace := by
    intro g hg
    obtain ⟨t, ht, rfl⟩ := hgone g hg
    exact closed_of_mem_types hended hi hclean ht
  let T := thinning hended hi hbrace
  obtain ⟨hunit, hproblems⟩ := T.readUnit_rest hclean hgone
  refine ⟨hbrace, hunit, hproblems.imp ?_⟩
  rintro t _ ⟨hg, hnext, opened, rfl⟩
  have hbehind : t.place.last + 1 ∉ gone := by
    intro h
    have hhalts : (kindAt items (t.place.last + 1)).Halts := Thinning.halts_of_next hnext
    rw [hbrace _ h] at hhalts
    simp [TokenKind.Halts] at hhalts
  have hrank : placeWithout gone t.place.last = placeWithout gone (t.place.last + 1) :=
    (T.rank_succ_gone hg).symm
  refine ⟨hnext, ?_, fun f => ⟨rfl, rfl⟩⟩
  rw [hrank, itemAt_withoutItems hbehind]

end

/-- A type with a member, and one without. -/
def closedItems : List Item :=
  [⟨.keyword .schemaWord, "schema", none, true⟩, ⟨.stringLit, "\"\"", none, false⟩,
    ⟨.keyword .typeWord, "type", none, true⟩, ⟨.upperWord, "T", none, false⟩,
    ⟨.symbol .lBrace, "\x7b", none, false⟩, ⟨.lowerWord, "a", none, false⟩,
    ⟨.builtin .date, "Date", none, false⟩, ⟨.symbol .rBrace, "\x7d", none, false⟩,
    ⟨.keyword .partWord, "part", none, false⟩, ⟨.keyword .typeWord, "type", none, false⟩,
    ⟨.upperWord, "U", none, false⟩, ⟨.symbol .lBrace, "\x7b", none, false⟩,
    ⟨.symbol .rBrace, "\x7d", none, false⟩]

theorem readUnit_withoutItems_closedItems :
    let items := (closedItems ++ [Item.atEnd false]).toArray
    let rest := withoutItems items {7, 12}
    (readUnit items).2 = [] ∧ (readUnit items).1.types.map (·.place.last) = [7, 12] ∧
      (readUnit rest).1.map forget = (readUnit items).1.map forget ∧
      ∀ f : Extent → Span, (readUnit rest).2.map (fun p => (p.map f).diagnostic.span) =
        [some (f (.single 7)), some (f (.single 11))] := by
  intro items rest
  have hended : Ended items := ended_toArray (by decide) rfl
  have hi : NoInvalid items := noInvalid_toArray (by decide)
  have hclean : (readUnit items).2 = [] := by decide +kernel
  have htypes : (readUnit items).1.types.map (·.place.last) = [7, 12] := by decide +kernel
  have hgone : ∀ g ∈ ({7, 12} : Finset Nat), ∃ t ∈ (readUnit items).1.types, t.place.last = g := by
    intro g hg
    have hmem : g ∈ (readUnit items).1.types.map (·.place.last) := by
      rw [htypes]
      simpa using hg
    simpa using hmem
  obtain ⟨-, hunit, hproblems⟩ := readUnit_withoutItems hended hi hclean {7, 12} hgone
  refine ⟨hclean, htypes, hunit, fun f => ?_⟩
  obtain ⟨t, ts, hts, ht, htail⟩ := List.map_eq_cons_iff.1 htypes
  obtain ⟨u, us, rfl, hu, hnil⟩ := List.map_eq_cons_iff.1 htail
  obtain rfl := List.map_eq_nil_iff.1 hnil
  have hfilter : (readUnit items).1.types.filter (·.place.last ∈ ({7, 12} : Finset Nat)) = [t, u] := by
    simp [hts, ht, hu]
  rw [hfilter] at hproblems
  have hfirst : placeWithout {7, 12} t.place.last = 7 := by
    rw [ht]
    decide
  have hsecond : placeWithout {7, 12} u.place.last = 11 := by
    rw [hu]
    decide
  rw [← hfirst, ← hsecond]
  obtain ⟨p, ps, ⟨-, -, hp⟩, hrest, hps⟩ := List.forall₂_cons_left_iff.1 hproblems
  obtain ⟨q, qs, ⟨-, -, hq⟩, hnone, rfl⟩ := List.forall₂_cons_left_iff.1 hrest
  obtain rfl := List.forall₂_nil_left_iff.1 hnone
  show (readUnit (withoutItems items {7, 12})).2.map _ = _
  rw [hps, List.map_cons, List.map_cons, List.map_nil, (hp f).2, (hq f).2]

end SchemaLang
