import Mathlib.Tactic.Simproc.ExistsAndEq
import SchemaLang.Proofs.Shapes
import SchemaLang.Proofs.Stretch

/-!
# Readings without problems

* `Rule.Yields r items i a j`: from item `i` on, `r` reads `a` without any problem and stops before
  item `j`.

Each step that rules are made of has a lemma on `Yields` that opens it, so `simp` turns a rule into
what must stand there.
-/

set_option autoImplicit false

namespace SchemaLang.Rule

variable {α β : Type} {items : Items} {i j : Nat}

def Yields (r : Rule α) (items : Items) (i : Nat) (a : α) (j : Nat) : Prop :=
  r items i = ⟨some a, j, []⟩

/-! ## Opening sequences -/

@[simp low] theorem yields_bind {r : Rule α} {f : α → Rule β} {b : β} :
    (r >>= f).Yields items i b j ↔ ∃ a k, r.Yields items i a k ∧ (f a).Yields items k b j := by
  show andThen r f items i = _ ↔ _
  unfold andThen Yields
  rcases r items i with ⟨_ | a, k, ps⟩
  · simp
  · constructor
    · intro h
      simp only [Reply.mk.injEq, List.append_eq_nil_iff] at h
      obtain ⟨hv, hn, hp, hq⟩ := h
      refine ⟨a, k, by rw [hp], ?_⟩
      rw [← hv, ← hn, ← hq]
    · rintro ⟨a', k', hr, hf⟩
      simp only [Reply.mk.injEq, Option.some.injEq] at hr
      obtain ⟨rfl, rfl, rfl⟩ := hr
      simp [hf]

/-- What follows such a rule goes on as if it stood alone. -/
theorem Yields.bind_eq {r : Rule α} {f : α → Rule β} {a : α} (h : r.Yields items i a j) :
    (r >>= f) items i = f a items j := by
  show andThen r f items i = _
  unfold andThen
  rw [h]
  rfl

/-- A rule reads one thing only. -/
theorem Yields.unique {r : Rule α} {a b : α} {k : Nat} (h : r.Yields items i a j)
    (h' : r.Yields items i b k) : a = b ∧ j = k := by
  unfold Yields at h h'
  rw [h] at h'
  simpa using h'

@[simp] theorem yields_pure {a b : α} : (pure a : Rule α).Yields items i b j ↔ b = a ∧ j = i := by
  simp only [Yields, pure, Reply.mk.injEq, Option.some.injEq, and_true]
  exact and_congr eq_comm eq_comm

@[simp] theorem yields_peek_bind {f : Item → Rule β} {b : β} :
    (peek >>= f).Yields items i b j ↔ (f (itemAt items i)).Yields items i b j := Iff.rfl

@[simp] theorem yields_peekKind_bind {f : TokenKind → Rule β} {b : β} :
    (peekKind >>= f).Yields items i b j ↔ (f (kindAt items i)).Yields items i b j := Iff.rfl

@[simp] theorem yields_peekSecond_bind {f : TokenKind → Rule β} {b : β} :
    (peekSecond >>= f).Yields items i b j ↔ (f (kindAt items (i + 1))).Yields items i b j := Iff.rfl

@[simp] theorem yields_position_bind {f : Nat → Rule β} {b : β} :
    (position >>= f).Yields items i b j ↔ (f i).Yields items i b j := Iff.rfl

@[simp] theorem yields_extentFrom_bind {first : Nat} {f : Extent → Rule β} {b : β} :
    (extentFrom first >>= f).Yields items i b j ↔ (f ⟨first, i - 1⟩).Yields items i b j := Iff.rfl

@[simp] theorem yields_take_bind {f : Item → Rule β} {b : β} :
    (take >>= f).Yields items i b j ↔ (f (itemAt items i)).Yields items (i + 1) b j := Iff.rfl

@[simp] theorem yields_remaining_bind {f : Nat → Rule β} {b : β} :
    (remaining >>= f).Yields items i b j ↔ (f (items.size - i)).Yields items i b j := Iff.rfl

@[simp] theorem yields_take {t : Item} :
    take.Yields items i t j ↔ t = itemAt items i ∧ j = i + 1 := by
  simp only [Yields, take, Reply.mk.injEq, Option.some.injEq, and_true]
  exact and_congr eq_comm eq_comm

@[simp] theorem yields_giveUp {a : α} : ¬ (giveUp : Rule α).Yields items i a j := by
  simp [Yields, giveUp]

@[simp] theorem yields_giveUpBehind {a : α} : ¬ (giveUpBehind : Rule α).Yields items i a j := by
  simp [Yields, giveUpBehind]

@[simp] theorem yields_report_bind {cause : Cause Extent} {place : Extent} {f : Unit → Rule β}
    {b : β} : ¬ (report cause place >>= f).Yields items i b j := by
  rw [yields_bind]
  rintro ⟨u, k, h, -⟩
  simp [Yields, report] at h

theorem yields_blame_bind {cause : Found → Cause Extent} {f : Unit → Rule β} {b : β} :
    (blame cause >>= f).Yields items i b j ↔
      kindAt items i = .invalid ∧ (f ()).Yields items i b j := by
  rw [yields_bind]
  constructor
  · rintro ⟨u, k, hb, hf⟩
    simp only [Yields, blame, Reply.mk.injEq] at hb
    obtain ⟨-, rfl, hp⟩ := hb
    refine ⟨?_, hf⟩
    split at hp
    · assumption
    · cases hp
  · rintro ⟨hk, hf⟩
    refine ⟨(), i, ?_, hf⟩
    simp [Yields, blame, hk]

@[simp] theorem yields_reject {cause : Found → Cause Extent} {a : α} :
    ¬ (reject cause : Rule α).Yields items i a j := by
  simp [reject, yields_blame_bind]

@[simp] theorem yields_rejectBehind {cause : Found → Cause Extent} {a : α} :
    ¬ (rejectBehind cause : Rule α).Yields items i a j := by
  simp [rejectBehind, yields_blame_bind]

@[simp] theorem yields_ite {p : Prop} [Decidable p] {r s : Rule α} {a : α} :
    (if p then r else s).Yields items i a j ↔
      (p ∧ r.Yields items i a j) ∨ (¬ p ∧ s.Yields items i a j) := by
  split <;> simp_all

/-! ## Single items -/

@[simp] theorem yields_expect {kind : TokenKind} {t : Item} :
    (expect kind).Yields items i t j ↔
      kindAt items i = kind ∧ t = itemAt items i ∧ j = i + 1 := by
  simp [expect]

@[simp] theorem yields_takeName {n : Name Extent} :
    takeName.Yields items i n j ↔ n = ⟨(itemAt items i).text, .single i⟩ ∧ j = i + 1 := by
  simp [takeName]

@[simp] theorem yields_expectName {allowed : TokenKind → Bool} {what : Expected}
    {n : Name Extent} :
    (expectName allowed what).Yields items i n j ↔
      allowed (kindAt items i) = true ∧ n = ⟨(itemAt items i).text, .single i⟩ ∧ j = i + 1 := by
  simp [expectName]

@[simp] theorem yields_close {closer : Symbol} {opened : Nat} {what : Enclosure} {u : Unit} :
    (close closer opened what).Yields items i u j ↔
      kindAt items i = .symbol closer ∧ j = i + 1 := by
  simp [close]

@[simp] theorem yields_literalValue {read? : String → Option α} {cause : String → Cause Extent} {v : α} :
    (literalValue read? cause).Yields items i v j ↔
      read? (itemAt items i).text = some v ∧ j = i + 1 := by
  rw [literalValue, yields_peek_bind]
  split
  · rename_i w hw
    simp [hw, eq_comm]
  · rename_i hw
    simp [hw]

end SchemaLang.Rule
