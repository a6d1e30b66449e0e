import SchemaLang.Proofs.Overlap.Thinning
import SchemaLang.Reading

/-!
# Layout

* `PlacedItem.word` is what an item says, without its place and without the lines of the text.
* `Diagnostic.unplaced` is a diagnostic without its spans.

Main statement: two streams of tokens that say the same are read alike (`Registry.exists_readTokens`). If
nothing is wrong with one of them, nothing is wrong with the other, and the same unit is read. If lines start
at the same items as well, the same is read and reported, whatever is wrong.
-/

set_option autoImplicit false

namespace SchemaLang

def PlacedItem.word (p : PlacedItem) : TokenKind × String × Option String :=
  (p.item.kind, p.item.text, p.item.doc)

def Diagnostic.unplaced (d : Diagnostic) : Diagnostic :=
  { d with
    span := d.span.map fun _ => Span.zero
    hints := d.hints.map fun h => { h with span := h.span.map fun _ => Span.zero } }

/-- What a problem is told as does not depend on places. -/
theorem Problem.unplaced_diagnostic {σ : Type} (p : Problem σ) (f g : σ → Span) :
    (p.map f).diagnostic.unplaced = (p.map g).diagnostic.unplaced := by
  obtain ⟨cause, place⟩ := p
  cases cause <;> rfl

theorem unplaced_diagnostics {σ : Type} (ps : List (Problem σ)) (f g : σ → Span) :
    (ps.map fun p => (p.map f).diagnostic).map Diagnostic.unplaced =
      (ps.map fun p => (p.map g).diagnostic).map Diagnostic.unplaced := by
  rw [List.map_map, List.map_map]
  exact List.map_congr_left fun p _ => p.unplaced_diagnostic f g

/-! ## Items that say the same -/

theorem Item.eq_of_fields {t u : Item} (hk : t.kind = u.kind) (ht : t.text = u.text)
    (hd : t.doc = u.doc) (hl : t.lineStart = u.lineStart) : t = u := by
  cases t
  cases u
  exact Item.mk.injEq .. ▸ ⟨hk, ht, hd, hl⟩

section

variable {ps ps' : List PlacedItem} (h : ps.map PlacedItem.word = ps'.map PlacedItem.word)

include h

theorem size_eq_of_word : (ps'.map (·.item)).toArray.size = (ps.map (·.item)).toArray.size := by
  have := congrArg List.length h
  simpa using this.symm

theorem same_of_word (i : Nat) :
    (itemAt (ps.map (·.item)).toArray i).Same (itemAt (ps'.map (·.item)).toArray i) := by
  have hword (qs : List PlacedItem) :
      ((itemAt (qs.map (·.item)).toArray i).kind, (itemAt (qs.map (·.item)).toArray i).text,
        (itemAt (qs.map (·.item)).toArray i).doc) =
      ((qs.map PlacedItem.word)[i]?).getD (.endOfText, "", none) := by
    simp only [itemAt, Array.getD_eq_getD_getElem?, List.getElem?_toArray, List.getElem?_map]
    cases qs[i]? <;> rfl
  have heq := (hword ps).trans ((congrArg (fun l => (l[i]?).getD _) h).trans (hword ps').symm)
  simp only [Prod.mk.injEq] at heq
  exact ⟨heq.1.symm, heq.2.1.symm, heq.2.2.symm⟩

theorem item_eq_of_word
    (hl : ps.map (fun p => p.item.lineStart) = ps'.map fun p => p.item.lineStart) :
    ps.map (·.item) = ps'.map (·.item) := by
  induction ps generalizing ps' with
  | nil =>
    obtain rfl := List.map_eq_nil_iff.1 h.symm
    rfl
  | cons p ps ih =>
    obtain ⟨p', ps', rfl, hp, hps⟩ := List.map_eq_cons_iff.1 h.symm
    simp only [List.map_cons, List.cons.injEq] at hl
    rw [List.map_cons, List.map_cons, ih hps.symm hl.2]
    have hword : p.word = p'.word := hp.symm
    simp only [PlacedItem.word, Prod.mk.injEq] at hword
    obtain ⟨hkind, htext, hdoc⟩ := hword
    rw [show p.item = p'.item from Item.eq_of_fields hkind htext hdoc hl.1]

end

/-- Nothing is left out, but lines may start elsewhere. -/
def relaid {items items' : Items} (hended : Ended items) (hi : NoInvalid items)
    (hsize : items'.size = items.size) (hsame : ∀ i, (itemAt items i).Same (itemAt items' i)) :
    Thinning where
  whole := items
  rest := items'
  gone := ∅
  ended := hended
  noInvalid := hi
  size_eq := by simpa using hsize
  same := fun i _ => by simpa using hsame i
  brace := by simp

/-- What reads without a problem does so in any layout, and as the same unit. -/
theorem readUnit_of_same {items items' : Items} (hended : Ended items) (hi : NoInvalid items)
    (hsize : items'.size = items.size) (hsame : ∀ i, (itemAt items i).Same (itemAt items' i))
    (hclean : (readUnit items).2 = []) :
    (readUnit items').2 = [] ∧ (readUnit items').1.map forget = (readUnit items).1.map forget := by
  obtain ⟨hunit, hproblems⟩ :=
    (relaid hended hi hsize hsame).readUnit_rest hclean fun g hg => absurd hg (Finset.notMem_empty g)
  have hnone : (readUnit items).1.types.filter (·.place.last ∈ (∅ : Finset Nat)) = [] := by simp
  refine ⟨?_, hunit⟩
  have hproblems : List.Forall₂ _ ((readUnit items).1.types.filter (·.place.last ∈ (∅ : Finset Nat)))
    (readUnit items').2 := hproblems
  rw [hnone] at hproblems
  exact List.forall₂_nil_left_iff.1 hproblems

namespace Registry

/-- The tokens of a text lie in it. -/
structure Holds (r : Registry) (id : SourceId) (stream : List Token) : Prop where
  find : ∃ source, r.find id = .ok source ∧ ∀ t ∈ stream, t.start ≤ t.stop ∧ t.stop ≤ source.size

theorem Holds.exists_table {r : Registry} {id : SourceId} {stream : List Token}
    (h : r.Holds id stream) : ∃ table, r.spanTable id (placedItems stream) = .ok table := by
  obtain ⟨source, hs, htokens⟩ := h.find
  have hitems := stop_le_of_mem_placedItems htokens
  exact exists_spanTable fun p hp => exists_spanOf hs (hitems p hp).1 (hitems p hp).2

theorem diagnostics_eq_nil_iff {r : Registry} {id : SourceId} {stream : List Token} {u : UnitReading}
    (h : r.readTokens id stream = .ok u) :
    u.diagnostics = [] ↔ (readUnit (itemsOf stream)).2 = [] := by
  unfold readTokens at h
  dsimp only at h
  split at h
  · cases h
  · cases h
    exact List.map_eq_nil_iff

/-- **Layout does not change meaning.** Streams of tokens that say the same and have the same documentation
are read alike. Without malformed text, one of them has diagnostics if and only if the other one has, and
the same unit is read if they have none. If lines start at the same items as well, the units are the same and
so are the diagnostics. All this is up to spans. -/
theorem exists_readTokens (r : Registry) (id id' : SourceId) (stream stream' : List Token)
    (hs : r.Holds id stream) (hs' : r.Holds id' stream')
    (hword : (placedItems stream).map PlacedItem.word = (placedItems stream').map PlacedItem.word) :
    ∃ u u', r.readTokens id stream = .ok u ∧ r.readTokens id' stream' = .ok u' ∧
      ((∀ p ∈ placedItems stream, p.item.kind ≠ .invalid) →
        (u.diagnostics = [] ↔ u'.diagnostics = []) ∧
          (u.diagnostics = [] → u'.unit.map forget = u.unit.map forget)) ∧
      ((placedItems stream).map (fun p => p.item.lineStart) =
          (placedItems stream').map (fun p => p.item.lineStart) →
        u'.unit.map forget = u.unit.map forget ∧
          u'.diagnostics.map Diagnostic.unplaced = u.diagnostics.map Diagnostic.unplaced) := by
  obtain ⟨table, htable⟩ := hs.exists_table
  obtain ⟨table', htable'⟩ := hs'.exists_table
  refine ⟨_, _, by rw [readTokens, htable], by rw [readTokens, htable'], fun hi => ?_, fun hl => ?_⟩
  · have hsame := same_of_word hword
    have hsize := size_eq_of_word hword
    have hi : NoInvalid (itemsOf stream) := noInvalid_toArray fun t ht => by
      obtain ⟨p, hp, rfl⟩ := List.mem_map.1 ht
      exact hi p hp
    have hi' : NoInvalid (itemsOf stream') := fun i h =>
      hi i ((hsame i).kind_eq.symm.trans h)
    have hthere := readUnit_of_same (ended_itemsOf stream) hi hsize hsame
    have hback := readUnit_of_same (ended_itemsOf stream') hi' hsize.symm fun i => (hsame i).symm
    simp only [List.map_eq_nil_iff, SchemaUnit.map_map]
    exact ⟨⟨fun h => (hthere h).1, fun h => (hback h).1⟩, fun h => (hthere h).2⟩
  · have hitems : itemsOf stream' = itemsOf stream :=
      congrArg List.toArray (item_eq_of_word hword hl).symm
    simp only [hitems, SchemaUnit.map_map]
    exact ⟨rfl, unplaced_diagnostics _ _ _⟩

/-- The tokens of a registered text lie in it. -/
theorem holds_tokenize {r : Registry} {id : SourceId} {source : Source} (h : r.find id = .ok source) :
    r.Holds id (tokenize source.text).1 := by
  refine ⟨source, h, fun t ht => ?_⟩
  obtain ⟨step, hstep, rfl⟩ := List.mem_map.1 ht
  exact Lexer.stop_le_of_mem_steps (by simp [Lexer.ofText, Source.size, String.length_toList]) step
    hstep

/-- A text in one line, and the same in more lines and with a comment. -/
theorem exists_readTokens_lines :
    let source := Source.ofText "" "schema\"\"type T\x7ba Date\x7d"
    let source' := Source.ofText "" "schema\n\"\"\ntype T\n\x7b// b\n a\nDate\x7d"
    let r : Registry := ⟨#[source, source']⟩
    ∃ u u', r.readTokens ⟨1⟩ (tokenize source.text).1 = .ok u ∧
      r.readTokens ⟨2⟩ (tokenize source'.text).1 = .ok u' ∧ u.diagnostics = [] ∧
      u'.diagnostics = [] ∧ u'.unit.map forget = u.unit.map forget := by
  intro source source' r
  obtain ⟨u, u', hu, hu', hclean, -⟩ := exists_readTokens r ⟨1⟩ ⟨2⟩ (tokenize source.text).1
    (tokenize source'.text).1 (holds_tokenize rfl) (holds_tokenize rfl) (by decide +kernel)
  obtain ⟨hiff, hunit⟩ := hclean (by decide +kernel)
  have hnone : u.diagnostics = [] := (diagnostics_eq_nil_iff hu).2 (by decide +kernel)
  exact ⟨u, u', hu, hu', hnone, hiff.1 hnone, hunit hnone⟩

end Registry

end SchemaLang
