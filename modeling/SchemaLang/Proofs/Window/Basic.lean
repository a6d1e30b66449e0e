import SchemaLang.Grammar.Member

/-!
# Rules in a body

What stands in braces is read as if it stood alone. To say so, a rule within a text is compared with the
same rule on the items of the body alone and a closing brace.

* `Window` is a body within a text, and the same body alone. Its braces match, and no declaration starts
  in it.
* `Window.Path floor i`: from item `floor` to item `i` of the body, no brace closes that was open before.
* `Window.Alike floor d d' r r' i Q`: from item `i` on, which stands at depth `d`, the rules `r` within the
  text and `r'` on the body alone reply with two values of which `Q` holds, or give up both. They go on at
  the same item of the body, up to which there is a path from `floor`. Behind what they read that is at
  depth `d'`.

Each step that rules are made of has a lemma on `Alike`. Places and problems need not agree.
-/

set_option autoImplicit false

namespace SchemaLang

/-- Neither a brace nor the end of the text. -/
@[simp] def TokenKind.isPlain : TokenKind → Bool
  | .endOfText | .symbol .lBrace | .symbol .rBrace => false
  | _ => true

/-- What is allowed is plain. -/
def AllowsPlain (allowed : TokenKind → Bool) : Prop :=
  allowed .endOfText = false ∧ allowed (.symbol .lBrace) = false ∧
    allowed (.symbol .rBrace) = false

theorem AllowsPlain.isPlain {allowed : TokenKind → Bool} {k : TokenKind} (h : AllowsPlain allowed)
    (hk : allowed k = true) : k.isPlain = true := by
  obtain ⟨he, hl, hr⟩ := h
  unfold TokenKind.isPlain
  split <;> simp_all

structure Window where
  text : Items
  start : Nat
  body : Items
  /-- The number of items before the closing brace. -/
  size : Nat
  /-- How many braces are open before an item of the body. -/
  depth : Nat → Nat
  itemAt_eq : ∀ i < size, itemAt text (start + i) = itemAt body i
  closed_text : kindAt text (start + size) = .symbol .rBrace
  closed_body : kindAt body size = .symbol .rBrace
  noEnd : ∀ i < size, kindAt body i ≠ .endOfText
  noDeclaration : ∀ i < size, atDeclaration body i = false
  depth_plain : ∀ i < size, (kindAt body i).isPlain = true → depth (i + 1) = depth i
  depth_open : ∀ i < size, kindAt body i = .symbol .lBrace → depth (i + 1) = depth i + 1
  depth_close : ∀ i < size, kindAt body i = .symbol .rBrace → depth (i + 1) + 1 = depth i
  depth_zero : depth 0 = 0
  depth_size : depth size = 0

namespace Window

variable (W : Window) {i : Nat}

theorem kindAt_eq (h : i ≤ W.size) : kindAt W.text (W.start + i) = kindAt W.body i := by
  rcases Nat.lt_or_eq_of_le h with hlt | rfl
  · rw [kindAt, W.itemAt_eq i hlt, kindAt]
  · rw [W.closed_text, W.closed_body]

variable {W}

/-- Only the closing brace stands at the end. -/
theorem lt_size (h : i ≤ W.size) (hk : kindAt W.body i ≠ .symbol .rBrace) : i < W.size := by
  rcases Nat.lt_or_eq_of_le h with hlt | rfl
  · exact hlt
  · exact absurd W.closed_body hk

theorem lt_size_of_isPlain (h : i ≤ W.size) (hk : (kindAt W.body i).isPlain = true) :
    i < W.size :=
  lt_size h fun he => by simp [he] at hk

/-- A brace that is open in the body is closed in it. -/
theorem lt_size_of_depth {d : Nat} (h : i ≤ W.size) (hd : W.depth i = d + 1) : i < W.size := by
  rcases Nat.lt_or_eq_of_le h with hlt | rfl
  · exact hlt
  · rw [W.depth_size] at hd
    cases hd

/-! ## Paths -/

variable (W) in
structure Path (floor i : Nat) : Prop where
  le : floor ≤ i
  le_size : i ≤ W.size
  low : ∀ k, floor ≤ k → k ≤ i → W.depth floor ≤ W.depth k

variable {floor : Nat}

theorem path_refl (h : i ≤ W.size) : W.Path i i :=
  ⟨Nat.le_refl i, h, fun _ hk hk' => Nat.le_of_eq (congrArg W.depth (Nat.le_antisymm hk hk'))⟩

theorem Path.depth_le (h : W.Path floor i) : W.depth floor ≤ W.depth i :=
  h.low i h.le (Nat.le_refl i)

theorem Path.succ (h : W.Path floor i) (hi : i < W.size)
    (hd : W.depth floor ≤ W.depth (i + 1)) : W.Path floor (i + 1) := by
  refine ⟨Nat.le_succ_of_le h.le, hi, fun k hk hk' => ?_⟩
  rcases Nat.lt_or_eq_of_le hk' with hlt | rfl
  · exact h.low k hk (Nat.le_of_lt_succ hlt)
  · exact hd

theorem Path.pred (h : W.Path floor i) (hi : floor < i) : W.Path floor (i - 1) :=
  ⟨by omega, Nat.le_trans (Nat.sub_le i 1) h.le_size, fun k hk hk' => h.low k hk (by omega)⟩

theorem Path.trans {k : Nat} (h : W.Path floor i) (h' : W.Path i k) : W.Path floor k := by
  refine ⟨Nat.le_trans h.le h'.le, h'.le_size, fun m hm hm' => ?_⟩
  rcases Nat.le_total m i with hle | hle
  · exact h.low m hm hle
  · exact Nat.le_trans h.depth_le (h'.low m hle hm')

theorem Path.plain (h : W.Path floor i) (hk : (kindAt W.body i).isPlain = true) :
    W.Path floor (i + 1) ∧ W.depth (i + 1) = W.depth i := by
  have hi := lt_size_of_isPlain h.le_size hk
  have hd := W.depth_plain i hi hk
  exact ⟨h.succ hi (hd ▸ h.depth_le), hd⟩

theorem Path.opening (h : W.Path floor i) (hk : kindAt W.body i = .symbol .lBrace) :
    W.Path floor (i + 1) ∧ W.depth (i + 1) = W.depth i + 1 := by
  have hi := lt_size h.le_size (by simp [hk])
  have hd := W.depth_open i hi hk
  exact ⟨h.succ hi (hd ▸ Nat.le_succ_of_le h.depth_le), hd⟩

theorem kindAt_body_ne (h : i ≤ W.size) : kindAt W.body i ≠ .endOfText := by
  rcases Nat.lt_or_eq_of_le h with hlt | rfl
  · exact W.noEnd i hlt
  · simp [W.closed_body]

/-- Every item but a closing brace leads on. -/
theorem Path.step (h : W.Path floor i) (hk : kindAt W.body i ≠ .symbol .rBrace) :
    W.Path floor (i + 1) := by
  by_cases hl : kindAt W.body i = .symbol .lBrace
  · exact (h.opening hl).1
  · refine (h.plain ?_).1
    have hne := kindAt_body_ne h.le_size
    unfold TokenKind.isPlain
    split <;> simp_all

/-- A brace opened behind `floor` is closed. -/
theorem Path.closing {d : Nat} (h : W.Path floor i) (hk : kindAt W.body i = .symbol .rBrace)
    (hd : W.depth i = d + 1) (hle : W.depth floor ≤ d) :
    W.Path floor (i + 1) ∧ W.depth (i + 1) = d := by
  have hi := lt_size_of_depth h.le_size hd
  have hd' : W.depth (i + 1) = d := by
    have := W.depth_close i hi hk
    omega
  exact ⟨h.succ hi (hd' ▸ hle), hd'⟩

/-! ## Replies -/

variable {α β : Type} {d d' e : Nat}

variable (W) in
/-- What two alike rules reply. -/
structure Outcome (floor d : Nat) (Q : α → α → Nat → Prop) (x x' : Reply α) : Prop where
  next_eq : x.next = W.start + x'.next
  path : W.Path floor x'.next
  values : (x.value = none ∧ x'.value = none) ∨
    ∃ a a', x.value = some a ∧ x'.value = some a' ∧ W.depth x'.next = d ∧ Q a a' x'.next

variable (W) in
def Alike (floor d d' : Nat) (r r' : Rule α) (i : Nat) (Q : α → α → Nat → Prop) : Prop :=
  W.Path floor i → W.depth i = d →
    W.Outcome floor d' Q (r W.text (W.start + i)) (r' W.body i)

variable {r r' s s' : Rule α} {f f' : α → Rule β} {P : α → α → Nat → Prop}
  {Q : β → β → Nat → Prop}

theorem alike_of_path (h : W.Path floor i → W.depth i = d → W.Alike floor d d' r r' i P) :
    W.Alike floor d d' r r' i P := fun hi hd => h hi hd hi hd

theorem alike_of_le (h : i ≤ W.size → W.Alike floor d d' r r' i P) :
    W.Alike floor d d' r r' i P := fun hi => h hi.le_size hi

theorem Alike.imp {P' : α → α → Nat → Prop} (h : W.Alike floor d d' r r' i P)
    (hP : ∀ a a' j, P a a' j → P' a a' j) : W.Alike floor d d' r r' i P' := by
  intro hi hd
  obtain ⟨hn, hp, hv⟩ := h hi hd
  refine ⟨hn, hp, hv.imp_right ?_⟩
  rintro ⟨a, a', ha, ha', hdepth, hQ⟩
  exact ⟨a, a', ha, ha', hdepth, hP _ _ _ hQ⟩

theorem Alike.bind (hr : W.Alike floor d e r r' i P)
    (hf : ∀ a a' j, P a a' j → W.Alike floor e d' (f a) (f' a') j Q) :
    W.Alike floor d d' (r >>= f) (r' >>= f') i Q := by
  intro hi hd
  obtain ⟨hn, hp, hv⟩ := hr hi hd
  show W.Outcome floor d' Q (Rule.andThen r f W.text (W.start + i)) (Rule.andThen r' f' W.body i)
  unfold Rule.andThen
  generalize r W.text (W.start + i) = x at hn hv
  generalize r' W.body i = x' at hn hp hv
  obtain ⟨v, j, ps⟩ := x
  obtain ⟨v', j', ps'⟩ := x'
  dsimp only at hn hp hv
  subst hn
  rcases hv with ⟨rfl, rfl⟩ | ⟨a, a', rfl, rfl, hdepth, hQ⟩
  · exact ⟨rfl, hp, .inl ⟨rfl, rfl⟩⟩
  · obtain ⟨hn, hp, hv⟩ := hf a a' j' hQ hp hdepth
    exact ⟨hn, hp, hv⟩

/-! ## Steps -/

theorem alike_pure {a a' : α} (h : P a a' i) : W.Alike floor d d (pure a) (pure a') i P :=
  fun hi hd => ⟨rfl, hi, .inr ⟨a, a', rfl, rfl, hd, h⟩⟩

theorem alike_giveUp :
    W.Alike floor d d' (Rule.giveUp : Rule α) (Rule.giveUp : Rule α) i P :=
  fun hi _ => ⟨rfl, hi, .inl ⟨rfl, rfl⟩⟩

theorem alike_giveUpBehind (hl : floor < i) :
    W.Alike floor d d' (Rule.giveUpBehind : Rule α) (Rule.giveUpBehind : Rule α) i P :=
  fun hi _ => ⟨Nat.add_sub_assoc (by omega) W.start, hi.pred hl, .inl ⟨rfl, rfl⟩⟩

@[simp] theorem alike_ite {p : Prop} [Decidable p] :
    W.Alike floor d d' (if p then r else s) (if p then r' else s') i P ↔
      (p → W.Alike floor d d' r r' i P) ∧ (¬ p → W.Alike floor d d' s s' i P) := by
  split <;> simp_all

@[simp] theorem alike_peekKind_bind {f f' : TokenKind → Rule β} :
    W.Alike floor d d' (Rule.peekKind >>= f) (Rule.peekKind >>= f') i Q ↔
      W.Alike floor d d' (f (kindAt W.body i)) (f' (kindAt W.body i)) i Q := by
  refine forall_congr' fun hi => ?_
  have peekKind : (Rule.peekKind >>= f) W.text (W.start + i) =
    f (kindAt W.text (W.start + i)) W.text (W.start + i) := rfl
  rw [peekKind, W.kindAt_eq hi.le_size]
  rfl

theorem alike_peek_bind {f f' : Item → Rule β} (hi : i < W.size)
    (hf : W.Alike floor d d' (f (itemAt W.body i)) (f' (itemAt W.body i)) i Q) :
    W.Alike floor d d' (Rule.peek >>= f) (Rule.peek >>= f') i Q := by
  intro hp
  have peek : (Rule.peek >>= f) W.text (W.start + i) =
    f (itemAt W.text (W.start + i)) W.text (W.start + i) := rfl
  rw [peek, W.itemAt_eq i hi]
  exact hf hp

/-- Of the closing braces only the kind is the same. -/
theorem alike_peek_bind_end {f f' : Item → Rule β}
    (hf : ∀ t t', t.kind = .symbol .rBrace → t'.kind = .symbol .rBrace →
      W.Alike floor d d' (f t) (f' t') W.size Q) :
    W.Alike floor d d' (Rule.peek >>= f) (Rule.peek >>= f') W.size Q :=
  hf (itemAt W.text (W.start + W.size)) (itemAt W.body W.size) W.closed_text W.closed_body

theorem alike_nextDoc_bind {f f' : Option String → Rule β} (hi : i < W.size)
    (hf : W.Alike floor d d' (f (itemAt W.body i).doc) (f' (itemAt W.body i).doc) i Q) :
    W.Alike floor d d' (Rule.nextDoc >>= f) (Rule.nextDoc >>= f') i Q := by
  intro hp
  have nextDoc : (Rule.nextDoc >>= f) W.text (W.start + i) =
    f (itemAt W.text (W.start + i)).doc W.text (W.start + i) := rfl
  rw [nextDoc, W.itemAt_eq i hi]
  exact hf hp

@[simp] theorem alike_position_bind {f f' : Nat → Rule β} :
    W.Alike floor d d' (Rule.position >>= f) (Rule.position >>= f') i Q ↔
      W.Alike floor d d' (f (W.start + i)) (f' i) i Q := Iff.rfl

@[simp] theorem alike_extentFrom_bind {first first' : Nat} {f f' : Extent → Rule β} :
    W.Alike floor d d' (Rule.extentFrom first >>= f) (Rule.extentFrom first' >>= f') i Q ↔
      W.Alike floor d d' (f ⟨first, W.start + i - 1⟩) (f' ⟨first', i - 1⟩) i Q := Iff.rfl

/-- More items remain than are left of the body. -/
theorem alike_remaining_bind {f f' : Nat → Rule β}
    (hf : ∀ n n', W.size < n + i → W.size < n' + i → W.Alike floor d d' (f n) (f' n') i Q) :
    W.Alike floor d d' (Rule.remaining >>= f) (Rule.remaining >>= f') i Q := by
  intro hi
  have htext : W.start + W.size < W.text.size :=
    lt_size_of_kindAt_ne (by simp [W.closed_text])
  have hbody : W.size < W.body.size := lt_size_of_kindAt_ne (by simp [W.closed_body])
  have hle := hi.le_size
  exact hf (W.text.size - (W.start + i)) (W.body.size - i) (by omega) (by omega) hi

theorem alike_take (h : (kindAt W.body i).isPlain = true) :
    W.Alike floor d d Rule.take Rule.take i
      fun t t' j => t = itemAt W.body i ∧ t' = itemAt W.body i ∧ j = i + 1 := by
  intro hi hd
  obtain ⟨hi', hd'⟩ := hi.plain h
  refine ⟨rfl, hi', .inr ⟨itemAt W.body i, itemAt W.body i, ?_, rfl, hd'.trans hd, rfl, rfl, rfl⟩⟩
  rw [Rule.take, W.itemAt_eq i (lt_size_of_isPlain hi.le_size h)]

theorem alike_take_bind {f f' : Item → Rule β} (h : (kindAt W.body i).isPlain = true)
    (hf : W.Alike floor d d' (f (itemAt W.body i)) (f' (itemAt W.body i)) (i + 1) Q) :
    W.Alike floor d d' (Rule.take >>= f) (Rule.take >>= f') i Q := by
  refine (alike_take h).bind ?_
  rintro _ _ _ ⟨rfl, rfl, rfl⟩
  exact hf

theorem alike_takeOpening (h : kindAt W.body i = .symbol .lBrace) :
    W.Alike floor d (d + 1) Rule.take Rule.take i fun _ _ j => j = i + 1 := by
  intro hi hd
  obtain ⟨hi', hd'⟩ := hi.opening h
  exact ⟨rfl, hi', .inr ⟨_, _, rfl, rfl, hd'.trans (congrArg (· + 1) hd), rfl⟩⟩

theorem alike_peekSecond_bind {f f' : TokenKind → Rule β} (h : i < W.size)
    (hf : W.Alike floor d d' (f (kindAt W.body (i + 1))) (f' (kindAt W.body (i + 1))) i Q) :
    W.Alike floor d d' (Rule.peekSecond >>= f) (Rule.peekSecond >>= f') i Q := by
  intro hi
  have peekSecond : (Rule.peekSecond >>= f) W.text (W.start + i) =
    f (kindAt W.text (W.start + (i + 1))) W.text (W.start + i) := rfl
  rw [peekSecond, W.kindAt_eq h]
  exact hf hi

/-- It may be anything behind the closing brace if nothing depends on it. -/
theorem alike_peekSecond_bind_const {f f' : TokenKind → Rule β}
    (hf : ∀ k k', W.Alike floor d d' (f k) (f' k') i Q) :
    W.Alike floor d d' (Rule.peekSecond >>= f) (Rule.peekSecond >>= f') i Q :=
  hf (kindAt W.text (W.start + i + 1)) (kindAt W.body (i + 1))

/-! ## Problems -/

theorem alike_report_bind {cause cause' : Cause Extent} {place place' : Extent}
    {f f' : Unit → Rule β} (h : W.Alike floor d d' (f ()) (f' ()) i Q) :
    W.Alike floor d d' (Rule.report cause place >>= f) (Rule.report cause' place' >>= f') i Q :=
  Alike.bind (P := fun _ _ j => j = i)
    (fun hi hd => ⟨rfl, hi, .inr ⟨(), (), rfl, rfl, hd, rfl⟩⟩) fun _ _ _ hj => hj ▸ h

theorem alike_blame_bind {cause cause' : Found → Cause Extent} {f f' : Unit → Rule β}
    (h : W.Alike floor d d' (f ()) (f' ()) i Q) :
    W.Alike floor d d' (Rule.blame cause >>= f) (Rule.blame cause' >>= f') i Q :=
  Alike.bind (P := fun _ _ j => j = i)
    (fun hi hd => ⟨rfl, hi, .inr ⟨(), (), rfl, rfl, hd, rfl⟩⟩) fun _ _ _ hj => hj ▸ h

theorem alike_reject {cause cause' : Found → Cause Extent} :
    W.Alike floor d d' (Rule.reject cause : Rule α) (Rule.reject cause') i P :=
  alike_blame_bind alike_giveUp

theorem alike_rejectBehind {cause cause' : Found → Cause Extent} (hl : floor < i) :
    W.Alike floor d d' (Rule.rejectBehind cause : Rule α) (Rule.rejectBehind cause') i P :=
  alike_blame_bind (alike_giveUpBehind hl)

/-! ## Single items -/

variable (W) in
/-- Both names are the next item. -/
def IsName (i : Nat) (n n' : Name Extent) (j : Nat) : Prop :=
  n.text = (itemAt W.body i).text ∧ n'.text = (itemAt W.body i).text ∧ j = i + 1

theorem alike_takeName (h : (kindAt W.body i).isPlain = true) :
    W.Alike floor d d Rule.takeName Rule.takeName i (W.IsName i) := by
  simp only [Rule.takeName, alike_position_bind]
  exact alike_take_bind h (alike_pure ⟨rfl, rfl, rfl⟩)

theorem alike_takeName_bind {f f' : Name Extent → Rule β} (h : (kindAt W.body i).isPlain = true)
    (hf : ∀ p p', W.Alike floor d d' (f ⟨(itemAt W.body i).text, p⟩)
      (f' ⟨(itemAt W.body i).text, p'⟩) (i + 1) Q) :
    W.Alike floor d d' (Rule.takeName >>= f) (Rule.takeName >>= f') i Q := by
  refine (alike_takeName h).bind ?_
  rintro ⟨_, p⟩ ⟨_, p'⟩ _ ⟨rfl, rfl, rfl⟩
  exact hf p p'

theorem alike_expect_bind {kind : TokenKind} {f f' : Item → Rule β} (hl : floor < i)
    (hk : kind.isPlain = true) (hf : kindAt W.body i = kind →
      W.Alike floor d d' (f (itemAt W.body i)) (f' (itemAt W.body i)) (i + 1) Q) :
    W.Alike floor d d' (Rule.expect kind >>= f) (Rule.expect kind >>= f') i Q := by
  refine Alike.bind (e := d) (P := fun t t' j => kindAt W.body i = kind ∧
    t = itemAt W.body i ∧ t' = itemAt W.body i ∧ j = i + 1) ?_ ?_
  · simp only [Rule.expect, alike_peekKind_bind, alike_ite]
    refine ⟨fun h => ?_, fun _ => alike_rejectBehind hl⟩
    exact (alike_take (h ▸ hk)).imp fun _ _ _ ht => ⟨h, ht⟩
  · rintro _ _ _ ⟨h, rfl, rfl, rfl⟩
    exact hf h

/-- What the brace opens is deeper. -/
theorem alike_expectOpening_bind {f f' : Item → Rule β} (hl : floor < i)
    (hf : ∀ t t', W.Alike floor (d + 1) d' (f t) (f' t') (i + 1) Q) :
    W.Alike floor d d' (Rule.expect (.symbol .lBrace) >>= f)
      (Rule.expect (.symbol .lBrace) >>= f') i Q := by
  refine Alike.bind (e := d + 1) (P := fun _ _ j => j = i + 1) ?_ fun t t' _ hj => hj ▸ hf t t'
  simp only [Rule.expect, alike_peekKind_bind, alike_ite]
  exact ⟨alike_takeOpening, fun _ => alike_rejectBehind hl⟩

theorem alike_expectName_bind {allowed : TokenKind → Bool} {what : Expected}
    {f f' : Name Extent → Rule β} (hl : floor < i) (hk : AllowsPlain allowed)
    (hf : ∀ p p', W.Alike floor d d' (f ⟨(itemAt W.body i).text, p⟩)
      (f' ⟨(itemAt W.body i).text, p'⟩) (i + 1) Q) :
    W.Alike floor d d' (Rule.expectName allowed what >>= f) (Rule.expectName allowed what >>= f') i
      Q := by
  refine Alike.bind (e := d) (P := W.IsName i) ?_ ?_
  · simp only [Rule.expectName, alike_peekKind_bind, alike_ite]
    exact ⟨fun h => alike_takeName (hk.isPlain h), fun _ => alike_rejectBehind hl⟩
  · rintro ⟨_, p⟩ ⟨_, p'⟩ _ ⟨rfl, rfl, rfl⟩
    exact hf p p'

theorem alike_close_bind {closer : Symbol} {opened opened' : Nat} {what : Enclosure}
    {f f' : Unit → Rule β} (hl : floor < i) (hk : (TokenKind.symbol closer).isPlain = true)
    (hf : W.Alike floor d d' (f ()) (f' ()) (i + 1) Q) :
    W.Alike floor d d' (Rule.close closer opened what >>= f)
      (Rule.close closer opened' what >>= f') i Q := by
  refine Alike.bind (e := d) (P := fun _ _ j => j = i + 1) ?_ fun _ _ _ hj => hj ▸ hf
  simp only [Rule.close, alike_peekKind_bind, alike_ite]
  refine ⟨fun h => ?_, fun _ => ⟨fun _ => alike_rejectBehind hl, fun _ => alike_rejectBehind hl⟩⟩
  exact alike_take_bind (h ▸ hk) (alike_pure rfl)

/-- The brace closes one that has been opened behind `floor`. -/
theorem alike_closeBrace_bind {opened opened' : Nat} {what : Enclosure} {f f' : Unit → Rule β}
    (hl : floor < i) (hle : W.depth floor ≤ d) (hf : W.Alike floor d d' (f ()) (f' ()) (i + 1) Q) :
    W.Alike floor (d + 1) d' (Rule.close .rBrace opened what >>= f)
      (Rule.close .rBrace opened' what >>= f') i Q := by
  refine Alike.bind (e := d) (P := fun _ _ j => j = i + 1) ?_ fun _ _ _ hj => hj ▸ hf
  simp only [Rule.close, alike_peekKind_bind, alike_ite]
  refine ⟨fun h => ?_, fun _ => ⟨fun _ => alike_rejectBehind hl, fun _ => alike_rejectBehind hl⟩⟩
  intro hi hd
  obtain ⟨hi', hd'⟩ := hi.closing h hd hle
  exact ⟨rfl, hi', .inr ⟨(), (), rfl, rfl, hd', rfl⟩⟩

end Window

end SchemaLang
