import SchemaLang.Proofs.Ensures
import SchemaLang.Proofs.Nested.Tree

/-!
# Places of references and datatypes

* `PlaceTree.Covers t i j`: the tree `t` is nested, and it has the items from `i` up to `j` for its place.
* `PlaceTree.Fill ts i j`: the trees `ts` cover stretches of these items, one behind the other.

What fills the items from `i` to `j` makes up a node that covers them (`PlaceTree.Fill.covers_node`). So
each rule has a lemma that says which items the tree of what it reads covers, or which it fills.
-/

set_option autoImplicit false

namespace SchemaLang

/-- One extent lies before another if it ends before the other starts. -/
def Extent.order : PlaceOrder Extent where
  within d e := e.first ≤ d.first ∧ d.first ≤ d.last ∧ d.last ≤ e.last
  before d e := d.last < e.first

namespace PlaceTree

structure Covers (t : PlaceTree Extent) (i j : Nat) : Prop where
  lt : i < j
  place_eq : t.place = ⟨i, j - 1⟩
  nested : t.Nested Extent.order

def Fill : List (PlaceTree Extent) → Nat → Nat → Prop
  | [], i, j => i ≤ j
  | t :: ts, i, j => ∃ a b, i ≤ a ∧ t.Covers a b ∧ Fill ts b j

variable {t u : PlaceTree Extent} {ts us : List (PlaceTree Extent)} {i j k : Nat}

theorem covers_leaf (h : i < j) : (leaf ⟨i, j - 1⟩).Covers i j := ⟨h, rfl, nested_leaf _ _⟩

theorem covers_single (i : Nat) : (leaf (Extent.single i)).Covers i (i + 1) :=
  covers_leaf (Nat.lt_succ_self i)

@[simp] theorem fill_nil : Fill [] i j ↔ i ≤ j := Iff.rfl

theorem Fill.cons {a b : Nat} (ht : t.Covers a b) (hts : Fill ts b j) (hi : i ≤ a) :
    Fill (t :: ts) i j := ⟨a, b, hi, ht, hts⟩

theorem Fill.le (h : Fill ts i j) : i ≤ j := by
  induction ts generalizing i with
  | nil => exact h
  | cons t ts ih =>
    obtain ⟨a, b, hi, ht, hts⟩ := h
    have := ih hts
    have := ht.lt
    omega

theorem Fill.mono {i' j' : Nat} (h : Fill ts i j) (hi : i' ≤ i) (hj : j ≤ j') : Fill ts i' j' := by
  induction ts generalizing i i' with
  | nil => exact Nat.le_trans (Nat.le_trans hi h) hj
  | cons t ts ih =>
    obtain ⟨a, b, ha, ht, hts⟩ := h
    exact ⟨a, b, Nat.le_trans hi ha, ht, ih hts (Nat.le_refl b)⟩

theorem Fill.append (hts : Fill ts i j) (hus : Fill us j k) : Fill (ts ++ us) i k := by
  induction ts generalizing i with
  | nil => exact hus.mono hts (Nat.le_refl k)
  | cons t ts ih =>
    obtain ⟨a, b, hi, ht, hts⟩ := hts
    exact ⟨a, b, hi, ht, ih hts⟩

theorem Covers.fill (h : t.Covers i j) : Fill [t] i j := ⟨i, j, Nat.le_refl i, h, Nat.le_refl j⟩

theorem Fill.bounds (h : Fill ts i j) :
    ∀ t ∈ ts, t.Nested Extent.order ∧ i ≤ t.place.first ∧ t.place.first ≤ t.place.last ∧
      t.place.last < j := by
  induction ts generalizing i with
  | nil => nofun
  | cons t ts ih =>
    obtain ⟨a, b, hi, ht, hts⟩ := h
    have hb := hts.le
    have hlt := ht.lt
    intro u hu
    rcases List.mem_cons.1 hu with rfl | hu
    · rw [ht.place_eq]
      exact ⟨ht.nested, hi, by dsimp only; omega, by dsimp only; omega⟩
    · obtain ⟨hn, hfirst, hle, hlast⟩ := ih hts u hu
      exact ⟨hn, by omega, hle, hlast⟩

theorem Fill.pairwise (h : Fill ts i j) :
    ts.Pairwise fun t u => Extent.order.before t.place u.place := by
  induction ts generalizing i with
  | nil => exact .nil
  | cons t ts ih =>
    obtain ⟨a, b, hi, ht, hts⟩ := h
    refine .cons (fun u hu => ?_) (ih hts)
    have hlt := ht.lt
    have := (hts.bounds u hu).2.1
    rw [ht.place_eq]
    show b - 1 < u.place.first
    omega

theorem Fill.covers_node (h : Fill ts i j) (hij : i < j) : (node ⟨i, j - 1⟩ ts).Covers i j := by
  refine ⟨hij, rfl, .node (fun t ht => (h.bounds t ht).1) (fun t ht => ?_) h.pairwise⟩
  obtain ⟨-, hfirst, hle, hlast⟩ := h.bounds t ht
  exact ⟨hfirst, hle, by dsimp only; omega⟩

/-- A node may be put into a wider place. -/
theorem Covers.widen {i' j' : Nat} (h : t.Covers i j) (hi : i' ≤ i) (hj : j ≤ j') :
    (node ⟨i', j' - 1⟩ t.parts).Covers i' j' := by
  have hlt := h.lt
  refine ⟨by omega, rfl, ?_⟩
  obtain ⟨-, hp, hn⟩ := h
  cases hn with
  | @node p ts hts hw hb =>
    obtain rfl : p = ⟨i, j - 1⟩ := hp
    refine .node hts (fun t ht => ?_) hb
    obtain ⟨hfirst, hle, hlast⟩ := hw t ht
    dsimp only at hfirst hlast
    exact ⟨by dsimp only; omega, hle, by dsimp only; omega⟩

end PlaceTree

/-! ## Rules -/

namespace Rule

open PlaceTree

variable {items : Items} {i : Nat}

theorem covers_name (s : String) (i : Nat) : (⟨s, .single i⟩ : Name Extent).placeTree.Covers i (i + 1) :=
  covers_single i

/-- Entries behind commas fill what is read, if each of them covers what is read of it. -/
theorem ensures_fill_further {α : Type} {tree : α → PlaceTree Extent} {ends : TokenKind → Prop}
    [DecidablePred ends] {entry : Rule α} {n : Nat}
    (he : ∀ j, entry.Ensures items j fun a k => (tree a).Covers j k) :
    (further ends entry n).Ensures items i fun as j => Fill (as.map tree) i j := by
  induction n generalizing i with
  | zero => simp [further]
  | succ n ih =>
    simp only [further, ensures_bind, ensures_peekKind, ensures_ite, ensures_take, ensures_pure]
    refine ⟨fun _ => ⟨fun _ => Nat.le_succ i, fun _ => ?_⟩, fun _ => Nat.le_refl i⟩
    exact (he _).imp fun a j ha => ih.imp fun as k has => Fill.cons ha has (Nat.le_succ i)

theorem ensures_qualifier :
    qualifier.Ensures items i fun q j => q.placeTree.Covers i (i + 1) ∧ j = i + 2 := by
  simp [qualifier, covers_name]

theorem ensures_typeRef : typeRef.Ensures items i fun r j => r.placeTree.Covers i j := by
  simp only [typeRef, ensures_bind, ensures_position, ensures_peekKind, ensures_peekSecond,
    ensures_ite, ensures_reject, implies_true, and_true]
  refine ⟨fun _ => ?_, fun _ _ => ?_⟩
  · refine ensures_qualifier.imp ?_
    rintro q _ ⟨hq, rfl⟩
    simp only [ensures_expectName, ensures_extentFrom, ensures_pure]
    intro _
    exact (Fill.cons hq ((covers_name _ _).fill.mono (by omega) (Nat.le_refl _))
      (Nat.le_refl i)).covers_node (by omega)
  · simp only [ensures_takeName, ensures_extentFrom, ensures_pure]
    exact (covers_name _ i).fill.covers_node (by omega)

/-! ## Numbers and bounds -/

theorem ensures_integerValue {negative : Bool} :
    (integerValue negative).Ensures items i fun _ j => j = i + 1 := by
  simp [integerValue_eq]

theorem ensures_lengthValue : lengthValue.Ensures items i fun _ j => j = i + 1 := by
  simp [lengthValue_eq]

theorem ensures_floatValue {negative : Bool} :
    (floatValue negative).Ensures items i fun _ j => j = i + 1 := by
  simp [floatValue_eq]

theorem ensures_signedBound {α : Type} {isValue : TokenKind → Bool} {value : Bool → Rule α}
    {missing wanted : Expected}
    (hv : ∀ negative j, (value negative).Ensures items j fun _ k => k = j + 1) :
    (signedBound isValue value missing wanted).Ensures items i fun _ j => i < j := by
  have beyond (negative : Bool) (j : Nat) (hj : i ≤ j) :
      (value negative).Ensures items j fun _ k => i < k :=
    (hv negative j).imp fun _ _ _ => by omega
  simp +contextual [signedBound, beyond]

theorem ensures_integerBound : integerBound.Ensures items i fun _ j => i < j := by
  rw [integerBound_eq]
  exact ensures_signedBound fun _ _ => ensures_integerValue

theorem ensures_floatBound : floatBound.Ensures items i fun _ j => i < j := by
  rw [floatBound_eq]
  exact ensures_signedBound fun _ _ => ensures_floatValue

theorem ensures_lengthBound : lengthBound.Ensures items i fun _ j => i < j := by
  have value : lengthValue.Ensures items i fun _ k => i < k :=
    ensures_lengthValue.imp fun _ _ _ => by omega
  simp +contextual [lengthBound, value]

theorem ensures_optionalBounds {α : Type} {bound : Rule (Bound α)} {less : α → α → Bool}
    {write : α → String} (hb : ∀ j, bound.Ensures items j fun _ k => j < k) :
    (optionalBounds bound less write).Ensures items i fun _ j => i ≤ j := by
  simp only [optionalBounds, ensures_bind, ensures_peekKind, ensures_ite, ensures_position,
    ensures_take, ensures_pure, Nat.le_refl, implies_true, and_true]
  intro _
  refine (hb _).imp fun _ j hj => ?_
  rw [ensures_expect]
  intro _
  refine (hb _).imp fun _ k hk => ?_
  simp only [ensures_close, ensures_extentFrom, ensures_report]
  exact fun _ => ⟨fun _ => by omega, fun _ => by omega⟩

/-! ## Parameters of built-in datatypes -/

theorem ensures_enumValues {opened n : Nat} :
    (enumValues opened n).Ensures items i fun _ j => i < j := by
  induction n generalizing i with
  | zero => simp [enumValues]
  | succ n ih =>
    simp only [enumValues, ensures_bind, ensures_peekKind, ensures_ite, ensures_take, ensures_pure,
      ensures_expect, ensures_close]
    refine ⟨fun _ => by omega, fun _ _ => ⟨fun _ => ?_, fun _ _ => by omega⟩⟩
    exact ih.imp fun _ _ _ => by omega

/-- A datatype whose parameters hold no places takes its keyword and whatever stands behind. -/
theorem fill_placeTrees_nil {j : Nat} {b : Builtin Extent} (h : i ≤ j) (hb : b.placeTrees = []) :
    Fill b.placeTrees i j := by
  rw [hb]
  exact h

theorem ensures_enum {keyword : Nat} :
    (enum keyword).Ensures items i fun b j => Fill b.placeTrees i j := by
  simp only [enum, ensures_bind, ensures_position, ensures_expect, ensures_remaining]
  intro _
  refine ensures_enumValues.imp fun values j hj => ?_
  simp only [ensures_ite, ensures_bind, ensures_extentFrom, ensures_report, ensures_pure]
  exact ⟨fun _ => fill_placeTrees_nil (by omega) rfl, fun _ => fill_placeTrees_nil (by omega) rfl⟩

theorem ensures_patternText : patternText.Ensures items i fun _ j => j = i + 1 := by
  simp [patternText]

theorem ensures_pattern : pattern.Ensures items i fun b j => Fill b.placeTrees i j := by
  simp only [pattern, ensures_bind, ensures_position, ensures_expect]
  intro _
  refine ensures_patternText.imp ?_
  rintro regex _ rfl
  simp only [ensures_peekKind, ensures_ite, ensures_bind, ensures_take, ensures_expect,
    ensures_close, ensures_pure]
  exact ⟨fun _ _ _ => fill_placeTrees_nil (by omega) rfl,
    fun _ _ => fill_placeTrees_nil (by omega) rfl⟩

theorem ensures_timestamp : timestamp.Ensures items i fun b j => Fill b.placeTrees i j := by
  simp only [timestamp, ensures_bind, ensures_peekKind, ensures_ite, ensures_position, ensures_take,
    ensures_expect, ensures_close, ensures_pure]
  exact ⟨fun _ _ _ => fill_placeTrees_nil (by omega) rfl,
    fun _ => fill_placeTrees_nil (Nat.le_refl i) rfl⟩

theorem ensures_vector : vector.Ensures items i fun b j => Fill b.placeTrees i j := by
  simp only [vector, ensures_bind, ensures_position, ensures_expect]
  intro _ _
  split
  · simp only [ensures_bind, ensures_close, ensures_pure]
    exact fun _ => fill_placeTrees_nil (by omega) rfl
  · simp

/-! ## Datatypes -/

section

variable {element : Rule (DatatypeRef Extent)}
  (he : ∀ j, element.Ensures items j fun d k => d.placeTree.Covers j k)

include he

theorem ensures_listType :
    (listType element).Ensures items i fun b j => Fill b.placeTrees i j := by
  simp only [listType, ensures_bind, ensures_position, ensures_expect]
  intro _
  refine (he _).imp fun e j hcover => ?_
  rw [ensures_close]
  intro _
  refine (ensures_optionalBounds fun _ => ensures_lengthBound).imp fun _ k hk => ?_
  rw [ensures_pure]
  exact hcover.fill.mono (by omega) (by omega)

theorem ensures_builtinParameters {keyword : Nat} (kind : BuiltinKind) :
    (builtinParameters element keyword kind).Ensures items i
      fun b j => Fill b.placeTrees i j := by
  cases kind with
  | integer =>
    refine ensures_bind.2 ((ensures_optionalBounds fun _ => ensures_integerBound).imp ?_)
    exact fun _ _ h => ensures_pure.2 (fill_placeTrees_nil h rfl)
  | float =>
    refine ensures_bind.2 ((ensures_optionalBounds fun _ => ensures_floatBound).imp ?_)
    exact fun _ _ h => ensures_pure.2 (fill_placeTrees_nil h rfl)
  | string =>
    refine ensures_bind.2 ((ensures_optionalBounds fun _ => ensures_lengthBound).imp ?_)
    exact fun _ _ h => ensures_pure.2 (fill_placeTrees_nil h rfl)
  | boolean | date | uuid => exact ensures_pure.2 (fill_placeTrees_nil (Nat.le_refl i) rfl)
  | enum => exact ensures_enum
  | pattern => exact ensures_pattern
  | timestamp => exact ensures_timestamp
  | vector => exact ensures_vector
  | list => exact ensures_listType he

theorem ensures_builtinOf {kind : BuiltinKind} :
    (builtinOf element kind).Ensures items i fun b j => b.placeTree.Covers i j := by
  simp only [builtinOf, ensures_bind, ensures_position, ensures_take]
  refine (ensures_builtinParameters he kind).imp fun type j hfill => ?_
  simp only [ensures_extentFrom, ensures_pure]
  have hle := hfill.le
  exact (hfill.mono (by omega) (Nat.le_refl j)).covers_node (by omega)

end

theorem ensures_datatypeRefWithin {n : Nat} :
    (datatypeRefWithin n).Ensures items i fun d j => d.placeTree.Covers i j := by
  induction n generalizing i with
  | zero => exact ensures_reject
  | succ n ih =>
    simp only [datatypeRefWithin, ensures_bind, ensures_peekKind]
    split
    · exact ensures_bind.2 ((ensures_builtinOf fun _ => ih).imp fun _ _ h => ensures_pure.2 h)
    · exact ensures_bind.2 (ensures_typeRef.imp fun _ _ h => ensures_pure.2 h)
    · simp only [ensures_bind, ensures_peekSecond, ensures_ite, ensures_reject, implies_true,
        and_true]
      exact fun _ => ensures_typeRef.imp fun _ _ h => ensures_pure.2 h
    · exact ensures_reject

theorem ensures_datatypeRef :
    datatypeRef.Ensures items i fun d j => d.placeTree.Covers i j := by
  simp only [datatypeRef, ensures_bind, ensures_remaining]
  exact ensures_datatypeRefWithin

theorem ensures_builtin {kind : BuiltinKind} :
    (builtin kind).Ensures items i fun b j => b.placeTree.Covers i j :=
  ensures_builtinOf fun _ => ensures_datatypeRef

end Rule

end SchemaLang
