import SchemaLang.Proofs.Ensures
import SchemaLang.Proofs.Totality

/-!
# What stands before a declaration

A text may be cut off where a type begins, whatever stands before. To say what is read up to there, the text
is compared with what is before the cut and nothing behind it.

* `Cut` is a text with a type at its wall, and the same text up to the wall.
* `Lacks wall ps`: one of these problems is that a member name or an alias is missing at the wall.
* `Cut.StopsAt i r r'`: from item `i` on, `r` in the text up to the wall lacks a name there, or it replies what
  `r'` replies in the whole text, problems apart, and goes on at the wall or before it.
* `Cut.Stops r`: so does `r` from each item up to the wall. `Cut.StopsBelow r`: from each item before it.

A rule that takes the first word of the type would go beyond the wall. No rule does so but for a name of a
member and an alias, which may be any keyword; these lack a name where the text ends instead. Sequences of
rules that stop do so, too (`Cut.StopsAt.bind`).
-/

set_option autoImplicit false

namespace SchemaLang

/-- The name of a member or an alias is missing. -/
def Cause.lacksName {σ : Type} : Cause σ → Bool
  | .unexpected .memberName _ | .unexpected .aliasName _ => true
  | _ => false

/-- Such a name is missing at an item. -/
def Lacks (wall : Nat) (ps : List (Problem Extent)) : Prop :=
  ∃ p ∈ ps, p.place = .single wall ∧ p.cause.lacksName = true

instance {wall : Nat} {ps : List (Problem Extent)} : Decidable (Lacks wall ps) :=
  inferInstanceAs (Decidable (∃ p ∈ ps, p.place = .single wall ∧ p.cause.lacksName = true))

theorem Lacks.mono {wall : Nat} {ps qs : List (Problem Extent)} (h : Lacks wall ps) (hs : ps ⊆ qs) :
    Lacks wall qs :=
  let ⟨p, hp, hlacks⟩ := h
  ⟨p, hs hp, hlacks⟩

structure Cut where
  left : Items
  right : Items
  wall : Nat
  same : ∀ i < wall, itemAt right i = itemAt left i
  size_eq : right.size = left.size
  end_iff : ∀ i, kindAt left i = .endOfText ↔ wall ≤ i
  ended : Ended right
  starts : kindAt right wall = .keyword .typeWord
  declares : atDeclaration right wall = true
  /-- The words that may stand before a type and belong to it. -/
  unmodified : ∀ i, i + 1 = wall →
    kindAt left i ≠ .keyword .abstractWord ∧ kindAt left i ≠ .keyword .partWord

/-- A test that neither the end of the text passes nor the first word of a type. -/
def Unheeded (p : TokenKind → Prop) : Prop := ¬ p .endOfText ∧ ¬ p (.keyword .typeWord)

namespace Cut

variable (C : Cut) {i : Nat}

theorem kindAt_of_le (h : C.wall ≤ i) : kindAt C.left i = .endOfText := (C.end_iff i).2 h

theorem kindAt_eq (h : i < C.wall) : kindAt C.right i = kindAt C.left i := by
  rw [kindAt, C.same i h, kindAt]

/-- The word of a type is followed by its name. -/
theorem kindAt_succ_wall : kindAt C.right (C.wall + 1) = .upperWord := by
  have h := C.declares
  simp only [atDeclaration, C.starts, decide_eq_true_eq] at h
  exact h.1

/-- Both pass the same tests, up to the wall. -/
theorem kindAt_iff {p : TokenKind → Prop} (hp : Unheeded p) (h : i ≤ C.wall) :
    p (kindAt C.right i) ↔ p (kindAt C.left i) := by
  rcases Nat.lt_or_eq_of_le h with hlt | rfl
  · rw [C.kindAt_eq hlt]
  · rw [C.starts, C.kindAt_of_le (Nat.le_refl _)]
    exact iff_of_false hp.2 hp.1

/-! ## Replies -/

variable {α β : Type}

structure Alike (x x' : Reply α) : Prop where
  value_eq : x'.value = x.value
  next_eq : x'.next = x.next
  next_le : x.next ≤ C.wall

def StopsAt (i : Nat) (r r' : Rule α) : Prop :=
  Lacks C.wall (r C.left i).problems ∨ C.Alike (r C.left i) (r' C.right i)

def Stops (r : Rule α) : Prop := ∀ i ≤ C.wall, C.StopsAt i r r

def StopsBelow (r : Rule α) : Prop := ∀ i < C.wall, C.StopsAt i r r

variable {C} {r r' s s' : Rule α} {f f' : α → Rule β}

theorem Stops.below (h : C.Stops r) : C.StopsBelow r := fun i hi => h i (Nat.le_of_lt hi)

theorem StopsAt.bind (hr : C.StopsAt i r r') (hf : ∀ a, ∀ j ≤ C.wall, C.StopsAt j (f a) (f' a)) :
    C.StopsAt i (r >>= f) (r' >>= f') := by
  unfold StopsAt at hr
  show Lacks C.wall (Rule.andThen r f C.left i).problems ∨
    C.Alike (Rule.andThen r f C.left i) (Rule.andThen r' f' C.right i)
  unfold Rule.andThen
  generalize r C.left i = x at hr
  generalize r' C.right i = x' at hr
  obtain ⟨v, j, ps⟩ := x
  obtain ⟨v', j', ps'⟩ := x'
  rcases hr with hlacks | ⟨rfl, rfl, hle⟩
  · cases v with
    | none => exact .inl hlacks
    | some a => exact .inl (hlacks.mono (List.subset_append_left ..))
  · cases v' with
    | none => exact .inr ⟨rfl, rfl, hle⟩
    | some a =>
      rcases hf a j' hle with hlacks | ⟨hv, hn, hle'⟩
      · exact .inl (hlacks.mono (List.subset_append_right ..))
      · exact .inr ⟨hv, hn, hle'⟩

theorem Stops.bind (hr : C.Stops r) (hf : ∀ a, C.Stops (f a)) : C.Stops (r >>= f) :=
  fun i hi => (hr i hi).bind hf

theorem StopsBelow.bind (hr : C.StopsBelow r) (hf : ∀ a, C.Stops (f a)) : C.StopsBelow (r >>= f) :=
  fun i hi => (hr i hi).bind hf

/-! ## Steps -/

theorem stops_pure {a : α} : C.Stops (pure a) := fun _ hi => .inr ⟨rfl, rfl, hi⟩

theorem stops_giveUp : C.Stops (Rule.giveUp : Rule α) := fun _ hi => .inr ⟨rfl, rfl, hi⟩

theorem stops_giveUpBehind : C.Stops (Rule.giveUpBehind : Rule α) :=
  fun i hi => .inr ⟨rfl, rfl, Nat.le_trans (Nat.sub_le i 1) hi⟩

theorem stops_position_bind {f : Nat → Rule β} (h : ∀ i, C.Stops (f i)) :
    C.Stops (Rule.position >>= f) := fun i hi => h i i hi

theorem stopsBelow_position_bind {f : Nat → Rule β} (h : ∀ i, C.StopsBelow (f i)) :
    C.StopsBelow (Rule.position >>= f) := fun i hi => h i i hi

theorem stops_extentFrom_bind {k : Nat} {f : Extent → Rule β} (h : ∀ e, C.Stops (f e)) :
    C.Stops (Rule.extentFrom k >>= f) := fun i hi => h _ i hi

theorem stops_remaining_bind {f : Nat → Rule β} (h : ∀ n, C.Stops (f n)) :
    C.Stops (Rule.remaining >>= f) := by
  intro i hi
  show C.StopsAt i (f (C.left.size - i)) (f (C.right.size - i))
  rw [C.size_eq]
  exact h _ i hi

theorem stopsAt_report_bind {cause : Cause Extent} {place : Extent} {f f' : Unit → Rule β}
    (h : C.StopsAt i (f ()) (f' ())) :
    C.StopsAt i (Rule.report cause place >>= f) (Rule.report cause place >>= f') :=
  h.imp (·.mono (List.subset_append_right ..)) fun ⟨hv, hn, hle⟩ => ⟨hv, hn, hle⟩

theorem stops_report_bind {cause : Cause Extent} {place : Extent} {f : Unit → Rule β}
    (h : C.Stops (f ())) : C.Stops (Rule.report cause place >>= f) :=
  fun i hi => stopsAt_report_bind (h i hi)

theorem stops_blame {cause : Found → Cause Extent} : C.Stops (Rule.blame cause) :=
  fun _ hi => .inr ⟨rfl, rfl, hi⟩

theorem stops_reject {cause : Found → Cause Extent} : C.Stops (Rule.reject cause : Rule α) :=
  stops_blame.bind fun _ => stops_giveUp

theorem stops_rejectBehind {cause : Found → Cause Extent} :
    C.Stops (Rule.rejectBehind cause : Rule α) := stops_blame.bind fun _ => stops_giveUpBehind

/-- What is missing at the end of the text is reported. -/
theorem blame_wall {cause : Found → Cause Extent} :
    (Rule.blame cause C.left C.wall).problems =
      [⟨cause (itemAt C.left C.wall).found, .single C.wall⟩] := by
  have hk : (itemAt C.left C.wall).kind ≠ .invalid := by
    rw [← kindAt, C.kindAt_of_le (Nat.le_refl _)]
    decide
  exact if_neg hk

theorem lacks_memberName :
    Lacks C.wall (Rule.rejectBehind (.unexpected .memberName) C.left C.wall : Reply α).problems := by
  rw [Rule.rejectBehind, Rule.problems_bind, blame_wall]
  exact ⟨_, List.mem_append_left _ (List.mem_singleton_self _), rfl, rfl⟩

theorem lacks_aliasName :
    Lacks C.wall (Rule.reject (.unexpected .aliasName) C.left C.wall : Reply α).problems := by
  rw [Rule.reject, Rule.problems_bind, blame_wall]
  exact ⟨_, List.mem_append_left _ (List.mem_singleton_self _), rfl, rfl⟩

theorem stopsAt_peekKind_bind (hi : i < C.wall) {f f' : TokenKind → Rule β}
    (h : C.StopsAt i (f (kindAt C.left i)) (f' (kindAt C.left i))) :
    C.StopsAt i (Rule.peekKind >>= f) (Rule.peekKind >>= f') := by
  show C.StopsAt i (f (kindAt C.left i)) (f' (kindAt C.right i))
  rwa [C.kindAt_eq hi]

theorem stopsBelow_peekKind_bind {f : TokenKind → Rule β} (h : ∀ κ, C.StopsBelow (f κ)) :
    C.StopsBelow (Rule.peekKind >>= f) :=
  fun i hi => stopsAt_peekKind_bind hi (h _ i hi)

/-- At the wall, the end of the text and the first word of a type have to be met alike. -/
theorem stops_peekKind_bind {f : TokenKind → Rule β} (h : ∀ κ, C.StopsBelow (f κ))
    (hwall : C.StopsAt C.wall (f .endOfText) (f (.keyword .typeWord))) :
    C.Stops (Rule.peekKind >>= f) := by
  intro i hi
  rcases Nat.lt_or_eq_of_le hi with hlt | rfl
  · exact stopsAt_peekKind_bind hlt (h _ i hlt)
  · show C.StopsAt C.wall (f (kindAt C.left C.wall)) (f (kindAt C.right C.wall))
    rwa [C.starts, C.kindAt_of_le (Nat.le_refl _)]

theorem stops_ite {p : Prop} [Decidable p] (hr : p → C.Stops r) (hs : ¬ p → C.Stops s) :
    C.Stops (if p then r else s) := by
  split
  · exact hr ‹_›
  · exact hs ‹_›

theorem stopsBelow_ite {p : Prop} [Decidable p] (hr : p → C.StopsBelow r)
    (hs : ¬ p → C.StopsBelow s) : C.StopsBelow (if p then r else s) := by
  split
  · exact hr ‹_›
  · exact hs ‹_›

/-- What is only read if something stands there that is not at the wall. -/
theorem stops_peekKind_ite {p : TokenKind → Prop} [DecidablePred p] (hp : Unheeded p)
    (hr : C.StopsBelow r) (hs : C.Stops s) :
    C.Stops (Rule.peekKind >>= fun κ => if p κ then r else s) := by
  refine stops_peekKind_bind (fun κ => stopsBelow_ite (fun _ => hr) fun _ => hs.below) ?_
  rw [if_neg hp.1, if_neg hp.2]
  exact hs _ (Nat.le_refl _)

theorem stopsBelow_peek_bind {f : Item → Rule β} (h : ∀ t, C.StopsBelow (f t)) :
    C.StopsBelow (Rule.peek >>= f) := by
  intro i hi
  show C.StopsAt i (f (itemAt C.left i)) (f (itemAt C.right i))
  rw [C.same i hi]
  exact h _ i hi

theorem stops_peek_bind {f : Item → Rule β} (h : ∀ t, C.StopsBelow (f t))
    (hwall : ∀ t t', t.kind = .endOfText → t'.kind = .keyword .typeWord →
      C.StopsAt C.wall (f t) (f t')) : C.Stops (Rule.peek >>= f) := by
  intro i hi
  rcases Nat.lt_or_eq_of_le hi with hlt | rfl
  · exact stopsBelow_peek_bind h i hlt
  · exact hwall _ _ (C.kindAt_of_le (Nat.le_refl _)) C.starts

theorem stopsBelow_nextDoc_bind {f : Option String → Rule β} (h : ∀ d, C.StopsBelow (f d)) :
    C.StopsBelow (Rule.nextDoc >>= f) := by
  intro i hi
  show C.StopsAt i (f (itemAt C.left i).doc) (f (itemAt C.right i).doc)
  rw [C.same i hi]
  exact h _ i hi

/-- What stands behind an item before the wall may be at the wall. If the test is passed, it is not. -/
theorem stopsBelow_peekSecond_ite {p : TokenKind → Prop} [DecidablePred p] (hp : Unheeded p)
    (hr : ∀ i, i + 1 < C.wall → C.StopsAt i r r) (hs : C.StopsBelow s) :
    C.StopsBelow (Rule.peekSecond >>= fun κ => if p κ then r else s) := by
  intro i hi
  show C.StopsAt i (if p (kindAt C.left (i + 1)) then r else s)
    (if p (kindAt C.right (i + 1)) then r else s)
  have hiff := C.kindAt_iff hp (Nat.succ_le_of_lt hi)
  by_cases h : p (kindAt C.left (i + 1))
  · rw [if_pos h, if_pos (hiff.2 h)]
    refine hr i (Nat.lt_of_le_of_ne hi fun hwall => hp.1 ?_)
    rwa [← C.kindAt_of_le (Nat.le_of_eq hwall.symm)]
  · rw [if_neg h, if_neg (mt hiff.1 h)]
    exact hs i hi

/-! ## Single items -/

theorem stopsBelow_take : C.StopsBelow Rule.take :=
  fun i hi => .inr ⟨congrArg some (C.same i hi), rfl, hi⟩

theorem stopsAt_take_bind (hi : i < C.wall) {f f' : Item → Rule β}
    (h : ∀ t, C.StopsAt (i + 1) (f t) (f' t)) : C.StopsAt i (Rule.take >>= f) (Rule.take >>= f') := by
  show C.StopsAt (i + 1) (f (itemAt C.left i)) (f' (itemAt C.right i))
  rw [C.same i hi]
  exact h _

theorem stopsBelow_take_bind {f : Item → Rule β} (h : ∀ t, C.Stops (f t)) :
    C.StopsBelow (Rule.take >>= f) := stopsBelow_take.bind h

theorem stopsBelow_expect {kind : TokenKind} : C.StopsBelow (Rule.expect kind) :=
  stopsBelow_peekKind_bind fun _ =>
    stopsBelow_ite (fun _ => stopsBelow_take) fun _ => stops_rejectBehind.below

theorem stops_expect {kind : TokenKind} (hk : Unheeded (· = kind)) : C.Stops (Rule.expect kind) :=
  stops_peekKind_ite hk stopsBelow_take stops_rejectBehind

theorem stopsAt_takeName_bind (hi : i < C.wall) {f f' : Name Extent → Rule β}
    (h : ∀ name, C.StopsAt (i + 1) (f name) (f' name)) :
    C.StopsAt i (Rule.takeName >>= f) (Rule.takeName >>= f') := by
  show C.StopsAt (i + 1) (f ⟨(itemAt C.left i).text, .single i⟩)
    (f' ⟨(itemAt C.right i).text, .single i⟩)
  rw [C.same i hi]
  exact h _

theorem stopsBelow_takeName : C.StopsBelow Rule.takeName :=
  stopsBelow_position_bind fun _ => stopsBelow_take_bind fun _ => stops_pure

theorem stops_expectName {allowed : TokenKind → Bool} {what : Expected}
    (ha : Unheeded (allowed · = true)) : C.Stops (Rule.expectName allowed what) :=
  stops_peekKind_ite ha stopsBelow_takeName stops_rejectBehind

theorem stops_close {closer : Symbol} {opened : Nat} {what : Enclosure} :
    C.Stops (Rule.close closer opened what) := by
  refine stops_peekKind_ite ⟨by simp, by simp⟩ (stopsBelow_take_bind fun _ => stops_pure) ?_
  refine stops_peekKind_bind (fun κ => ?_) ?_
  · exact stopsBelow_ite (fun _ => stops_rejectBehind.below) fun _ => stops_rejectBehind.below
  · exact .inr ⟨rfl, rfl, Nat.sub_le _ 1⟩

end Cut

end SchemaLang
