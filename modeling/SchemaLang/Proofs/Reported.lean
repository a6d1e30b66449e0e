import SchemaLang.Proofs.Ensures

/-!
# What holds of whatever is reported

* `Rule.Reports P r items i`: `P` holds of all problems that `r` reports from item `i` on.
* `Rule.Runs P r items i Q`: this, and `Q` holds of what `r` reads and of the position where it goes on.

Each step that rules are made of has a lemma on `Reports` that opens it, and a sequence is opened by
`reports_bind`: what is read first is known by `Rule.Ensures` where the rest reports.

Where the problems of a rule depend on what has been read before it, both are followed at once: `runs_bind`
opens a sequence, and a step that has no other problems is left to its lemma on `Ensures`.
-/

set_option autoImplicit false

namespace SchemaLang

namespace Rule

variable {α β : Type} {P : Problem Extent → Prop} {items : Items} {i : Nat}

def Reports (P : Problem Extent → Prop) (r : Rule α) (items : Items) (i : Nat) : Prop :=
  ∀ p ∈ (r items i).problems, P p

@[simp] theorem reports_bind {r : Rule β} {f : β → Rule α} :
    (r >>= f).Reports P items i ↔
      r.Reports P items i ∧ r.Ensures items i fun b j => (f b).Reports P items j := by
  unfold Reports Ensures
  rw [problems_bind]
  simp only [List.forall_mem_append]
  apply and_congr_right
  intro _
  cases (r items i).value with
  | none => simp
  | some b => simp

/-! ## Steps -/

theorem reports_of_problems_eq_nil {r : Rule α} (h : (r items i).problems = []) :
    r.Reports P items i := by
  simp [Reports, h]

@[simp] theorem reports_pure {a : α} : (pure a : Rule α).Reports P items i :=
  reports_of_problems_eq_nil rfl

@[simp] theorem reports_giveUp : (giveUp : Rule α).Reports P items i :=
  reports_of_problems_eq_nil rfl

@[simp] theorem reports_giveUpBehind : (giveUpBehind : Rule α).Reports P items i :=
  reports_of_problems_eq_nil rfl

@[simp] theorem reports_peek : peek.Reports P items i :=
  reports_of_problems_eq_nil rfl

@[simp] theorem reports_peekKind : peekKind.Reports P items i :=
  reports_of_problems_eq_nil rfl

@[simp] theorem reports_peekSecond : peekSecond.Reports P items i :=
  reports_of_problems_eq_nil rfl

@[simp] theorem reports_nextDoc : nextDoc.Reports P items i :=
  reports_of_problems_eq_nil rfl

@[simp] theorem reports_position : position.Reports P items i :=
  reports_of_problems_eq_nil rfl

@[simp] theorem reports_extentFrom {first : Nat} : (extentFrom first).Reports P items i :=
  reports_of_problems_eq_nil rfl

@[simp] theorem reports_remaining : remaining.Reports P items i :=
  reports_of_problems_eq_nil rfl

@[simp] theorem reports_take : take.Reports P items i :=
  reports_of_problems_eq_nil rfl

@[simp] theorem reports_report {cause : Cause Extent} {place : Extent} :
    (report cause place).Reports P items i ↔ P ⟨cause, place⟩ := by
  simp [Reports, report]

/-- Malformed text is not reported. -/
@[simp] theorem reports_blame {cause : Found → Cause Extent} :
    (blame cause).Reports P items i ↔
      (kindAt items i ≠ .invalid → P ⟨cause (itemAt items i).found, .single i⟩) := by
  by_cases hk : (itemAt items i).kind = .invalid
  · simp [Reports, blame, kindAt, hk]
  · simp [Reports, blame, kindAt, hk]

@[simp] theorem reports_reject {cause : Found → Cause Extent} :
    (reject cause : Rule α).Reports P items i ↔
      (kindAt items i ≠ .invalid → P ⟨cause (itemAt items i).found, .single i⟩) := by
  simp [reject]

@[simp] theorem reports_rejectBehind {cause : Found → Cause Extent} :
    (rejectBehind cause : Rule α).Reports P items i ↔
      (kindAt items i ≠ .invalid → P ⟨cause (itemAt items i).found, .single i⟩) := by
  simp [rejectBehind]

@[simp] theorem reports_ite {p : Prop} [Decidable p] {r s : Rule α} :
    (if p then r else s).Reports P items i ↔
      (p → r.Reports P items i) ∧ (¬ p → s.Reports P items i) := by
  split <;> simp_all

@[simp] theorem reports_takeName : takeName.Reports P items i := by
  simp [takeName]

/-! ## Shapes -/

/-- A text that cannot be read is reported where it stands. -/
@[simp] theorem reports_literalValue {read? : String → Option α} {cause : String → Cause Extent} :
    (literalValue read? cause).Reports P items i ↔
      (read? (itemAt items i).text = none → P ⟨cause (itemAt items i).text, .single i⟩) := by
  rw [literalValue, reports_bind, ensures_peek]
  split
  · rename_i v hv
    simp [hv]
  · rename_i hnone
    simp [hnone]

theorem reports_further {ends : TokenKind → Prop} [DecidablePred ends] {entry : Rule α}
    (he : ∀ j, entry.Reports P items j) {n : Nat} : (further ends entry n).Reports P items i := by
  induction n generalizing i with
  | zero => simp [further]
  | succ n ih => simp [further, he, ih]

/-! ## Problems and what is read -/

structure Runs (P : Problem Extent → Prop) (r : Rule α) (items : Items) (i : Nat) (Q : α → Nat → Prop) :
    Prop where
  reports : r.Reports P items i
  ensures : r.Ensures items i Q

variable {Q : α → Nat → Prop}

theorem Runs.imp {r : Rule α} {R : α → Nat → Prop} (h : r.Runs P items i R)
    (hR : ∀ a j, R a j → Q a j) : r.Runs P items i Q := ⟨h.reports, h.ensures.imp hR⟩

@[simp] theorem runs_bind {r : Rule β} {f : β → Rule α} :
    (r >>= f).Runs P items i Q ↔ r.Runs P items i fun b j => (f b).Runs P items j Q := by
  constructor
  · rintro ⟨hreports, hensures⟩
    obtain ⟨hr, hf⟩ := reports_bind.1 hreports
    exact ⟨hr, fun b hb => ⟨hf b hb, ensures_bind.1 hensures b hb⟩⟩
  · rintro ⟨hr, h⟩
    exact ⟨reports_bind.2 ⟨hr, h.imp fun _ _ hf => hf.reports⟩,
      ensures_bind.2 (h.imp fun _ _ hf => hf.ensures)⟩

@[simp] theorem runs_ite {p : Prop} [Decidable p] {r s : Rule α} :
    (if p then r else s).Runs P items i Q ↔
      (p → r.Runs P items i Q) ∧ (¬ p → s.Runs P items i Q) := by
  split <;> simp_all

/-- A rule that has been found to report nothing else is followed by what it ensures. -/
@[simp] theorem runs_iff_ensures {r : Rule α} (h : r.Reports P items i) :
    r.Runs P items i Q ↔ r.Ensures items i Q := ⟨Runs.ensures, fun he => ⟨h, he⟩⟩

theorem runs_literalValue {read? : String → Option α} {cause : String → Cause Extent} :
    (literalValue read? cause).Runs P items i Q ↔
      (read? (itemAt items i).text = none → P ⟨cause (itemAt items i).text, .single i⟩) ∧
        ∀ v, read? (itemAt items i).text = some v → Q v (i + 1) := by
  rw [← reports_literalValue, ← ensures_literalValue]
  exact ⟨fun h => ⟨h.reports, h.ensures⟩, fun h => ⟨h.1, h.2⟩⟩

/-- What holds before each comma holds in the end if commas and entries keep it. -/
theorem runs_further {I : Nat → Prop} {ends : TokenKind → Prop} [DecidablePred ends] {entry : Rule α}
    (hcomma : ∀ j, I j → kindAt items j = .symbol .comma → I (j + 1))
    (he : ∀ j, I j → kindAt items j = .symbol .comma → entry.Runs P items (j + 1) fun _ k => I k)
    {n : Nat} (h : I i) : (further ends entry n).Runs P items i fun _ j => I j := by
  induction n generalizing i with
  | zero => simpa [further, runs_iff_ensures] using h
  | succ n ih =>
    simp only [further, runs_bind, runs_ite, runs_iff_ensures, reports_peekKind, ensures_peekKind,
      reports_take, ensures_take, reports_pure, ensures_pure]
    refine ⟨fun hk => ⟨fun _ => hcomma i h hk, fun _ => ?_⟩, fun _ => h⟩
    exact (he i h hk).imp fun a j hj => (ih hj).imp fun as k hk => hk

end Rule

end SchemaLang
