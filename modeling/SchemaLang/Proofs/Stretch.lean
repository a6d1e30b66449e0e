import SchemaLang.Grammar.Item

/-!
# Stretches of items

* `Stretch items i ts j`: the items from position `i` up to, not including, `j` are `ts`.

Main statements: stretches join (`Stretch.append`) and come apart (`stretch_append`), a stretch fixes
where it ends (`Stretch.end_eq`), and an item that is not the end of the text is a stretch
(`stretch_of_kindAt`).
-/

set_option autoImplicit false

namespace SchemaLang

def Stretch (items : Items) : Nat → List Item → Nat → Prop
  | i, [], j => j = i
  | i, t :: ts, j => items[i]? = some t ∧ Stretch items (i + 1) ts j

variable {items : Items} {i j k : Nat} {t : Item} {ts us : List Item}

@[simp] theorem stretch_nil : Stretch items i [] j ↔ j = i := Iff.rfl

@[simp] theorem stretch_cons :
    Stretch items i (t :: ts) j ↔ items[i]? = some t ∧ Stretch items (i + 1) ts j := Iff.rfl

theorem stretch_append :
    Stretch items i (ts ++ us) k ↔ ∃ j, Stretch items i ts j ∧ Stretch items j us k := by
  induction ts generalizing i with
  | nil => simp
  | cons t ts ih => simp only [List.cons_append, stretch_cons, ih, exists_and_left, and_assoc]

namespace Stretch

theorem append (h : Stretch items i ts j) (h' : Stretch items j us k) :
    Stretch items i (ts ++ us) k := stretch_append.2 ⟨j, h, h'⟩

theorem end_eq (h : Stretch items i ts j) : j = i + ts.length := by
  induction ts generalizing i with
  | nil => exact h
  | cons t ts ih =>
    have := ih h.2
    simp only [List.length_cons]
    omega

theorem le (h : Stretch items i ts j) : i ≤ j := by
  have := h.end_eq
  omega

theorem lt (h : Stretch items i (t :: ts) j) : i < j := by
  have := h.end_eq
  simp only [List.length_cons] at this
  omega

theorem getElem? (h : Stretch items i ts j) {n : Nat} (hn : n < ts.length) :
    items[i + n]? = ts[n]? := by
  induction ts generalizing i n with
  | nil => simp at hn
  | cons t ts ih =>
    cases n with
    | zero => simpa using h.1
    | succ n =>
      have := ih h.2 (n := n) (by simpa using hn)
      rw [show i + (n + 1) = i + 1 + n by omega, this]
      simp

end Stretch

theorem itemAt_of_getElem? (h : items[i]? = some t) : itemAt items i = t := by
  simp [itemAt, Array.getD_eq_getD_getElem?, h]

theorem kindAt_of_getElem? (h : items[i]? = some t) : kindAt items i = t.kind := by
  simp [kindAt, itemAt_of_getElem? h]

theorem lt_size_of_getElem? (h : items[i]? = some t) : i < items.size := by
  obtain ⟨hi, -⟩ := Array.getElem?_eq_some_iff.1 h
  exact hi

theorem getElem?_of_kindAt {kind : TokenKind} (h : kindAt items i = kind)
    (hk : kind ≠ .endOfText) : items[i]? = some (itemAt items i) := by
  have hi : i < items.size := lt_size_of_kindAt_ne (h ▸ hk)
  rw [Array.getElem?_eq_getElem hi]
  simp [itemAt, Array.getD_eq_getD_getElem?, Array.getElem?_eq_getElem hi]

@[simp] theorem kind_itemAt : (itemAt items i).kind = kindAt items i := rfl

theorem stretch_of_kindAt {kind : TokenKind} (h : kindAt items i = kind)
    (hk : kind ≠ .endOfText) : Stretch items i [itemAt items i] (i + 1) :=
  ⟨getElem?_of_kindAt h hk, rfl⟩

theorem Stretch.cons {kind : TokenKind} (h : kindAt items i = kind) (hk : kind ≠ .endOfText)
    (hs : Stretch items (i + 1) ts j) : Stretch items i (itemAt items i :: ts) j :=
  ⟨getElem?_of_kindAt h hk, hs⟩

theorem Stretch.concat {kind : TokenKind} (hs : Stretch items i ts j) (h : kindAt items j = kind)
    (hk : kind ≠ .endOfText) : Stretch items i (ts ++ [itemAt items j]) (j + 1) :=
  hs.append (stretch_of_kindAt h hk)

theorem stretch_toArray (us ts vs : List Item) :
    Stretch (us ++ ts ++ vs).toArray us.length ts (us.length + ts.length) := by
  induction ts generalizing us with
  | nil => rfl
  | cons t ts ih =>
    refine ⟨by simp, ?_⟩
    have := ih (us ++ [t])
    simp only [List.append_assoc, List.singleton_append, List.length_append, List.length_cons,
      List.length_nil] at this ⊢
    rwa [show us.length + (ts.length + 1) = us.length + (0 + 1) + ts.length by omega]

/-- What stands at the start of a stretch that is not empty. -/
theorem Stretch.kindAt_head (h : Stretch items i (t :: ts) j) : kindAt items i = t.kind :=
  kindAt_of_getElem? h.1

end SchemaLang
