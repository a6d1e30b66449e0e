import SchemaLang.Proofs.Reported

/-!
# Problems keep off malformed text

* `Valid items i j`: from item `i` to the one before item `j`, which is not before `i`, none is malformed.
* `Extent.Clear items e`: the extent `e` has an item, and none of its items is malformed.
* `Rule.Spares r items i`: whatever `r` complains about from item `i` on, the places are clear.

A problem is placed at one item that has been looked at, or at a stretch of items that have all been read.
What a rule reads is valid if the rule has a value, and this is said by `Rule.Ensures`. So a sequence of
rules spares malformed text if the first one does, and the second one does so behind whatever the first one
reads (`Rule.spares_bind`).
-/

set_option autoImplicit false

namespace SchemaLang

variable {items : Items} {i j k : Nat}

/-! ## Stretches -/

structure Valid (items : Items) (i j : Nat) : Prop where
  le : i ≤ j
  ne_invalid : ∀ k, i ≤ k → k < j → kindAt items k ≠ .invalid

theorem Valid.trans (hij : Valid items i j) (hjk : Valid items j k) : Valid items i k := by
  refine ⟨Nat.le_trans hij.le hjk.le, fun l hil hlk => ?_⟩
  by_cases hlj : l < j
  · exact hij.ne_invalid l hil hlj
  · exact hjk.ne_invalid l (Nat.le_of_not_lt hlj) hlk

@[simp] theorem valid_succ : Valid items i (i + 1) ↔ kindAt items i ≠ .invalid :=
  ⟨fun h => h.ne_invalid i (Nat.le_refl i) (Nat.lt_succ_self i), fun h => ⟨Nat.le_succ i, fun k hik hk => by
    obtain rfl : k = i := by omega
    exact h⟩⟩

theorem Valid.succ (h : Valid items i j) (hj : kindAt items j ≠ .invalid) : Valid items i (j + 1) :=
  h.trans (valid_succ.2 hj)

structure Extent.Clear (items : Items) (e : Extent) : Prop where
  le : e.first ≤ e.last
  valid : Valid items e.first (e.last + 1)

@[simp] theorem Extent.clear_single :
    (Extent.single i).Clear items ↔ kindAt items i ≠ .invalid :=
  ⟨fun h => valid_succ.1 h.valid, fun h => ⟨Nat.le_refl i, valid_succ.2 h⟩⟩

/-- The extent that a rule has read. -/
theorem Valid.clear (h : Valid items i j) (hlt : i < j) : Extent.Clear items ⟨i, j - 1⟩ := by
  refine ⟨Nat.le_sub_one_of_lt hlt, ?_⟩
  rwa [Nat.sub_add_cancel (Nat.one_le_of_lt hlt)]

namespace Rule

variable {α β : Type}

/-! ## Rules -/

def Spares (r : Rule α) (items : Items) (i : Nat) : Prop :=
  ∀ p ∈ (r items i).problems, p.place.Clear items

@[simp] theorem spares_bind {r : Rule β} {f : β → Rule α} :
    (r >>= f).Spares items i ↔
      r.Spares items i ∧ r.Ensures items i fun b j => (f b).Spares items j :=
  reports_bind

theorem spares_of_problems_eq_nil {r : Rule α} (h : (r items i).problems = []) :
    r.Spares items i :=
  reports_of_problems_eq_nil h

@[simp] theorem spares_pure {a : α} : (pure a : Rule α).Spares items i :=
  spares_of_problems_eq_nil rfl

@[simp] theorem spares_giveUp : (giveUp : Rule α).Spares items i :=
  spares_of_problems_eq_nil rfl

@[simp] theorem spares_giveUpBehind : (giveUpBehind : Rule α).Spares items i :=
  spares_of_problems_eq_nil rfl

@[simp] theorem spares_peek : peek.Spares items i :=
  spares_of_problems_eq_nil rfl

@[simp] theorem spares_peekKind : peekKind.Spares items i :=
  spares_of_problems_eq_nil rfl

@[simp] theorem spares_peekSecond : peekSecond.Spares items i :=
  spares_of_problems_eq_nil rfl

@[simp] theorem spares_nextDoc : nextDoc.Spares items i :=
  spares_of_problems_eq_nil rfl

@[simp] theorem spares_position : position.Spares items i :=
  spares_of_problems_eq_nil rfl

@[simp] theorem spares_extentFrom {first : Nat} : (extentFrom first).Spares items i :=
  spares_of_problems_eq_nil rfl

@[simp] theorem spares_remaining : remaining.Spares items i :=
  spares_of_problems_eq_nil rfl

@[simp] theorem spares_take : take.Spares items i :=
  spares_of_problems_eq_nil rfl

@[simp] theorem spares_report {cause : Cause Extent} {place : Extent} :
    (report cause place).Spares items i ↔ place.Clear items :=
  reports_report

/-- Malformed text is not complained about. -/
@[simp] theorem spares_blame {cause : Found → Cause Extent} : (blame cause).Spares items i :=
  reports_blame.2 Extent.clear_single.2

@[simp] theorem spares_reject {cause : Found → Cause Extent} :
    (reject cause : Rule α).Spares items i := by
  simp [reject]

@[simp] theorem spares_rejectBehind {cause : Found → Cause Extent} :
    (rejectBehind cause : Rule α).Spares items i := by
  simp [rejectBehind]

@[simp] theorem spares_ite {p : Prop} [Decidable p] {r s : Rule α} :
    (if p then r else s).Spares items i ↔
      (p → r.Spares items i) ∧ (¬ p → s.Spares items i) :=
  reports_ite

/-! ## Single items -/

@[simp] theorem spares_expect {kind : TokenKind} : (expect kind).Spares items i := by
  simp [expect]

@[simp] theorem spares_takeName : takeName.Spares items i := by
  simp [takeName]

@[simp] theorem spares_expectName {allowed : TokenKind → Bool} {what : Expected} :
    (expectName allowed what).Spares items i := by
  simp [expectName]

@[simp] theorem spares_close {closer : Symbol} {opened : Nat} {what : Enclosure} :
    (close closer opened what).Spares items i := by
  simp [close]

end Rule

end SchemaLang
