import SchemaLang.Proofs.Ensures
import SchemaLang.Proofs.Silent
import SchemaLang.Proofs.Totality

/-!
# What two texts have in common

A rule reads the same from the same items, wherever they stand. To say so, two sequences of items are
compared that have a stretch in common, up to a wall.

* `Item.Same`: two items that differ in nothing but whether a line starts there.
* `Wall k k'`: what stands behind the stretch is of one kind, or it is a closing brace in the first
  sequence, and in the second one the end of the text or the first word of a declaration.
* `Overlap` is such a pair of sequences.
* `Overlap.Carries r r' Q`: whatever `r` reads in the first sequence without any problem, `r'` reads in
  the second one, up to a value of which `Q` holds, unless `r` goes beyond the wall.

`Carries` speaks of all items from which the rule may start, and nothing but values passes from one rule
to the next. So a sequence of rules is carried over if all of them are (`Overlap.Carries.bind`). Beyond the
wall it only says that reading does not go back.

A rule that takes an item at least cannot end at the wall if it starts there. So what it finds behind the
wall does not matter (`Overlap.carries_of_lt`).
-/

set_option autoImplicit false

namespace SchemaLang

theorem Rule.Ensures.of_yields {α : Type} {r : Rule α} {items : Items} {i j : Nat} {a : α}
    {Q : α → Nat → Prop} (h : r.Ensures items i Q) (ha : r.Yields items i a j) : Q a j := by
  have hQ := h a (by rw [ha])
  rwa [ha] at hQ

structure Item.Same (t u : Item) : Prop where
  kind_eq : u.kind = t.kind
  text_eq : u.text = t.text
  doc_eq : u.doc = t.doc

theorem Item.same_refl (t : Item) : t.Same t := ⟨rfl, rfl, rfl⟩

theorem Item.Same.symm {t u : Item} (h : t.Same u) : u.Same t :=
  ⟨h.kind_eq.symm, h.text_eq.symm, h.doc_eq.symm⟩

/-- No rule but one for a whole declaration starts at such an item. -/
def TokenKind.Halts (k : TokenKind) : Prop :=
  k = .endOfText ∨ k = .keyword .typeWord ∨ k = .keyword .abstractWord ∨ k = .keyword .partWord

def Wall (k k' : TokenKind) : Prop := k' = k ∨ (k = .symbol .rBrace ∧ k'.Halts)

/-- A test that neither a closing brace passes nor what may stand for one. -/
def Unwalled (p : TokenKind → Prop) : Prop :=
  ¬ p (.symbol .rBrace) ∧ ¬ p .endOfText ∧ ¬ p (.keyword .typeWord) ∧
    ¬ p (.keyword .abstractWord) ∧ ¬ p (.keyword .partWord)

theorem Wall.iff {k k' : TokenKind} {p : TokenKind → Prop} (h : Wall k k') (hp : Unwalled p) :
    p k' ↔ p k := by
  obtain ⟨hbrace, he, ht, ha, hpart⟩ := hp
  rcases h with rfl | ⟨rfl, rfl | rfl | rfl | rfl⟩
  · exact Iff.rfl
  · exact iff_of_false he hbrace
  · exact iff_of_false ht hbrace
  · exact iff_of_false ha hbrace
  · exact iff_of_false hpart hbrace

structure Overlap where
  left : Items
  right : Items
  start : Nat
  start' : Nat
  /-- The number of items in common. -/
  size : Nat
  same : ∀ k < size, (itemAt left (start + k)).Same (itemAt right (start' + k))
  wall : Wall (kindAt left (start + size)) (kindAt right (start' + size))
  /-- As many items remain in both. -/
  sizes : left.size + start' = right.size + start
  ended : Ended left
  noInvalid : NoInvalid left

namespace Overlap

variable (S : Overlap) {k : Nat}

theorem kindAt_eq (h : k < S.size) :
    kindAt S.right (S.start' + k) = kindAt S.left (S.start + k) := (S.same k h).kind_eq

/-- Up to the wall, both pass the same tests. -/
theorem kindAt_iff {p : TokenKind → Prop} (hp : Unwalled p) (h : k ≤ S.size) :
    p (kindAt S.right (S.start' + k)) ↔ p (kindAt S.left (S.start + k)) := by
  rcases Nat.lt_or_eq_of_le h with hlt | rfl
  · rw [S.kindAt_eq hlt]
  · exact S.wall.iff hp

theorem remaining_eq (k : Nat) :
    S.right.size - (S.start' + k) = S.left.size - (S.start + k) := by
  have := S.sizes
  omega

/-! ## Readings -/

variable {α β : Type}

def CarriesAt (k : Nat) (r r' : Rule α) (Q : α → α → Prop) : Prop :=
  ∀ a j, r.Yields S.left (S.start + k) a j → S.start + S.size < j ∨
    ∃ m a', k ≤ m ∧ m ≤ S.size ∧ j = S.start + m ∧
      r'.Yields S.right (S.start' + k) a' (S.start' + m) ∧ Q a a'

def Carries (r r' : Rule α) (Q : α → α → Prop) : Prop := ∀ k, S.CarriesAt k r r' Q

variable {S} {r r' s s' : Rule α} {f f' : α → Rule β} {P : α → α → Prop} {Q : β → β → Prop}

/-- What goes beyond the wall is carried over to anything. The rules behind it have to be right about
some value then, and they are about the one that was read. -/
theorem CarriesAt.bind (hr : S.CarriesAt k r r' P) (hP : ∀ a, P a a)
    (hf : ∀ a a', P a a' → S.Carries (f a) (f' a') Q) :
    S.CarriesAt k (r >>= f) (r' >>= f') Q := by
  intro b j hb
  obtain ⟨a, l, ha, hb⟩ := Rule.yields_bind.1 hb
  rcases hr a l ha with hcross | ⟨m, a', hkm, hm, rfl, ha', hQ⟩
  · obtain ⟨n, rfl⟩ : ∃ n, l = S.start + n := ⟨l - S.start, by omega⟩
    rcases hf a a (hP a) n b j hb with hcross' | ⟨m, -, hnm, hm, -⟩
    · exact .inl hcross'
    · omega
  · rcases hf a a' hQ m b j hb with hcross | ⟨m', b', hmm', hm', hj, hb', hQ'⟩
    · exact .inl hcross
    · exact .inr ⟨m', b', Nat.le_trans hkm hmm', hm', hj, Rule.yields_bind.2 ⟨a', _, ha', hb'⟩, hQ'⟩

theorem Carries.bind (hr : S.Carries r r' P) (hP : ∀ a, P a a)
    (hf : ∀ a a', P a a' → S.Carries (f a) (f' a') Q) : S.Carries (r >>= f) (r' >>= f') Q :=
  fun k => (hr k).bind hP hf

/-- A rule that takes an item has to be looked at before the wall only. -/
theorem carries_of_lt (hr : ∀ i, r.Ensures S.left i fun _ j => i < j)
    (h : ∀ k < S.size, S.CarriesAt k r r' P) : S.Carries r r' P := by
  intro k a j ha
  by_cases hk : k < S.size
  · exact h k hk a j ha
  · have hj := (hr (S.start + k)).of_yields ha
    exact .inl (by omega)

theorem carries_of_not_yields (h : ∀ i a j, ¬ r.Yields S.left i a j) : S.Carries r r' P :=
  fun _ a j ha => absurd ha (h _ a j)

theorem carries_pure {a a' : α} (h : P a a') : S.Carries (pure a) (pure a') P := by
  intro k b j hb
  obtain ⟨rfl, rfl⟩ := Rule.yields_pure.1 hb
  by_cases hk : k ≤ S.size
  · exact .inr ⟨k, a', Nat.le_refl k, hk, rfl, Rule.yields_pure.2 ⟨rfl, rfl⟩, h⟩
  · exact .inl (by omega)

theorem carries_reject {cause : Found → Cause Extent} :
    S.Carries (Rule.reject cause : Rule α) r' P :=
  carries_of_not_yields fun _ _ _ => Rule.yields_reject

theorem carries_rejectBehind {cause : Found → Cause Extent} :
    S.Carries (Rule.rejectBehind cause : Rule α) r' P :=
  carries_of_not_yields fun _ _ _ => Rule.yields_rejectBehind

theorem carries_report_bind {cause : Cause Extent} {place : Extent} {f : Unit → Rule α} :
    S.Carries (Rule.report cause place >>= f) r' P :=
  carries_of_not_yields fun _ _ _ => Rule.yields_report_bind

/-! ## Looking -/

theorem carriesAt_position_bind {f f' : Nat → Rule β} (h : ∀ i i', S.CarriesAt k (f i) (f' i') Q) :
    S.CarriesAt k (Rule.position >>= f) (Rule.position >>= f') Q := h _ _

theorem carries_position_bind {f f' : Nat → Rule β} (h : ∀ i i', S.Carries (f i) (f' i') Q) :
    S.Carries (Rule.position >>= f) (Rule.position >>= f') Q := fun k => h _ _ k

theorem carries_extentFrom_bind {i i' : Nat} {f f' : Extent → Rule β}
    (h : ∀ e e', S.Carries (f e) (f' e') Q) :
    S.Carries (Rule.extentFrom i >>= f) (Rule.extentFrom i' >>= f') Q := fun k => h _ _ k

theorem carriesAt_remaining_bind {f f' : Nat → Rule β} (h : ∀ n, S.CarriesAt k (f n) (f' n) Q) :
    S.CarriesAt k (Rule.remaining >>= f) (Rule.remaining >>= f') Q := by
  have hright (b : β) (j : Nat) : (Rule.remaining >>= f').Yields S.right (S.start' + k) b j ↔
      (f' (S.left.size - (S.start + k))).Yields S.right (S.start' + k) b j := by
    rw [Rule.yields_remaining_bind, S.remaining_eq]
  intro b j hb
  simp only [hright]
  exact h _ b j hb

theorem carries_remaining_bind {f f' : Nat → Rule β} (h : ∀ n, S.Carries (f n) (f' n) Q) :
    S.Carries (Rule.remaining >>= f) (Rule.remaining >>= f') Q :=
  fun k => carriesAt_remaining_bind fun n => h n k

theorem carriesAt_peekKind_bind (hk : k < S.size) {f f' : TokenKind → Rule β}
    (h : S.CarriesAt k (f (kindAt S.left (S.start + k))) (f' (kindAt S.left (S.start + k))) Q) :
    S.CarriesAt k (Rule.peekKind >>= f) (Rule.peekKind >>= f') Q := by
  rw [← S.kindAt_eq hk] at h
  intro b j hb
  rw [Rule.yields_peekKind_bind, ← S.kindAt_eq hk] at hb
  exact h b j hb

theorem carriesAt_peek_bind (hk : k < S.size) {f f' : Item → Rule β}
    (h : ∀ t t', t.Same t' → S.CarriesAt k (f t) (f' t') Q) :
    S.CarriesAt k (Rule.peek >>= f) (Rule.peek >>= f') Q := h _ _ (S.same k hk)

theorem carriesAt_nextDoc_bind (hk : k < S.size) {f f' : Option String → Rule β}
    (h : ∀ d, S.CarriesAt k (f d) (f' d) Q) :
    S.CarriesAt k (Rule.nextDoc >>= f) (Rule.nextDoc >>= f') Q := by
  intro b j hb
  have hdoc := (S.same k hk).doc_eq
  have hb : (f (itemAt S.left (S.start + k)).doc).Yields S.left (S.start + k) b j := hb
  rw [← hdoc] at hb
  exact h _ b j hb

/-- What stands behind an item before the wall may be the wall. -/
theorem carriesAt_peekSecond_bind (hk : k < S.size) {f f' : TokenKind → Rule β}
    (h : ∀ κ κ', Wall κ κ' → S.CarriesAt k (f κ) (f' κ') Q) :
    S.CarriesAt k (Rule.peekSecond >>= f) (Rule.peekSecond >>= f') Q := by
  refine h _ _ ?_
  rcases Nat.lt_or_eq_of_le hk with hlt | heq
  · exact .inl (S.kindAt_eq hlt)
  · have hwall := S.wall
    rw [← heq] at hwall
    exact hwall

theorem carries_peekKind_bind {f f' : TokenKind → Rule β}
    (h : ∀ κ κ', Wall κ κ' → S.Carries (f κ) (f' κ') Q) :
    S.Carries (Rule.peekKind >>= f) (Rule.peekKind >>= f') Q := by
  intro k b j hb
  rw [Rule.yields_peekKind_bind] at hb
  rcases Nat.lt_trichotomy k S.size with hlt | rfl | hgt
  · exact h _ _ (.inl (S.kindAt_eq hlt)) k b j hb
  · exact h _ _ S.wall S.size b j hb
  · rcases h _ _ (.inl rfl) k b j hb with hcross | ⟨m, -, hkm, hm, -⟩
    · exact .inl hcross
    · omega

theorem carriesAt_ite {p p' : Prop} [Decidable p] [Decidable p'] (hp : p' ↔ p)
    (hr : p → S.CarriesAt k r r' P) (hs : ¬ p → S.CarriesAt k s s' P) :
    S.CarriesAt k (if p then r else s) (if p' then r' else s') P := by
  by_cases h : p
  · rw [if_pos h, if_pos (hp.2 h)]
    exact hr h
  · rw [if_neg h, if_neg (mt hp.1 h)]
    exact hs h

/-- What is missing at the wall of one sequence is missing at that of the other one. -/
theorem carries_peekKind_ite {p : TokenKind → Prop} [DecidablePred p] (hp : Unwalled p)
    (hr : S.Carries r r' P) (hs : S.Carries s s' P) :
    S.Carries (Rule.peekKind >>= fun κ => if p κ then r else s)
      (Rule.peekKind >>= fun κ => if p κ then r' else s') P :=
  carries_peekKind_bind fun _ _ hκ k => carriesAt_ite (hκ.iff hp) (fun _ => hr k) fun _ => hs k

theorem carries_ite {p : Prop} [Decidable p] (hr : p → S.Carries r r' P)
    (hs : ¬ p → S.Carries s s' P) :
    S.Carries (if p then r else s) (if p then r' else s') P := by
  split
  · exact hr ‹_›
  · exact hs ‹_›

/-! ## Single items -/

theorem carries_take : S.Carries Rule.take Rule.take Item.Same := by
  refine carries_of_lt (fun i => Rule.ensures_take.2 (Nat.lt_succ_self i)) fun k hk t j ht => ?_
  obtain ⟨rfl, rfl⟩ := Rule.yields_take.1 ht
  exact .inr ⟨k + 1, _, Nat.le_succ k, hk, rfl, Rule.yields_take.2 ⟨rfl, rfl⟩, S.same k hk⟩

theorem carries_take_bind {f f' : Item → Rule β} (h : ∀ t t', t.Same t' → S.Carries (f t) (f' t') Q) :
    S.Carries (Rule.take >>= f) (Rule.take >>= f') Q :=
  carries_take.bind Item.same_refl h

theorem carries_expect {kind : TokenKind} :
    S.Carries (Rule.expect kind) (Rule.expect kind) Item.Same := by
  have hlt (i : Nat) : (Rule.expect kind).Ensures S.left i fun _ j => i < j :=
    Rule.ensures_expect.2 fun _ => Nat.lt_succ_self i
  refine carries_of_lt hlt fun k hk => carriesAt_peekKind_bind hk ?_
  exact carriesAt_ite Iff.rfl (fun _ => carries_take k) fun _ => carries_rejectBehind k

theorem carries_expect_bind {kind : TokenKind} {f f' : Item → Rule β}
    (h : ∀ t t', t.Same t' → S.Carries (f t) (f' t') Q) :
    S.Carries (Rule.expect kind >>= f) (Rule.expect kind >>= f') Q :=
  carries_expect.bind Item.same_refl h

/-- Names in which the same is written. -/
def SameText (n n' : Name Extent) : Prop := n'.text = n.text

theorem carries_takeName : S.Carries Rule.takeName Rule.takeName SameText :=
  carries_position_bind fun _ _ => carries_take_bind fun _ _ ht => carries_pure ht.text_eq

theorem carries_expectName {allowed : TokenKind → Bool} {what : Expected} :
    S.Carries (Rule.expectName allowed what) (Rule.expectName allowed what) SameText := by
  have hlt (i : Nat) : (Rule.expectName allowed what).Ensures S.left i fun _ j => i < j :=
    Rule.ensures_expectName.2 fun _ => Nat.lt_succ_self i
  refine carries_of_lt hlt fun k hk => carriesAt_peekKind_bind hk ?_
  exact carriesAt_ite Iff.rfl (fun _ => carries_takeName k) fun _ => carries_rejectBehind k

theorem carries_expectName_bind {allowed : TokenKind → Bool} {what : Expected}
    {f f' : Name Extent → Rule β}
    (h : ∀ text p p', S.Carries (f ⟨text, p⟩) (f' ⟨text, p'⟩) Q) :
    S.Carries (Rule.expectName allowed what >>= f) (Rule.expectName allowed what >>= f') Q := by
  refine carries_expectName.bind (fun _ => rfl) ?_
  rintro ⟨text, p⟩ ⟨_, p'⟩ rfl
  exact h _ p p'

theorem carries_close {closer : Symbol} {opened opened' : Nat} {what : Enclosure} :
    S.Carries (Rule.close closer opened what) (Rule.close closer opened' what) fun _ _ => True := by
  have hlt (i : Nat) : (Rule.close closer opened what).Ensures S.left i fun _ j => i < j :=
    Rule.ensures_close.2 fun _ => Nat.lt_succ_self i
  refine carries_of_lt hlt fun k hk => carriesAt_peekKind_bind hk ?_
  refine carriesAt_ite Iff.rfl (fun _ => ?_) fun _ => ?_
  · exact carries_take_bind (fun _ _ _ => carries_pure trivial) k
  · refine carriesAt_peekKind_bind hk ?_
    exact carriesAt_ite Iff.rfl (fun _ => carries_rejectBehind k) fun _ => carries_rejectBehind k

theorem carries_close_bind {closer : Symbol} {opened opened' : Nat} {what : Enclosure}
    {f f' : Unit → Rule β} (h : S.Carries (f ()) (f' ()) Q) :
    S.Carries (Rule.close closer opened what >>= f) (Rule.close closer opened' what >>= f') Q :=
  carries_close.bind (fun _ => trivial) fun _ _ _ => h

end Overlap

end SchemaLang
