import SchemaLang.Grammar.Member

/-!
# Rules confined to the items

A rule never needs what stands behind the end of the text, and the bounds on its rounds never end it.
To say so, a rule for some items is compared with the same rule for more of them, where it may have
more rounds as well.

* `Frame` is a sequence of items up to the end of the text, a longer one, and two placements of extents
  that agree on all extents of these items.
* `Frame.Confined floor r r' i Q`: from item `i` on, `r` replies what `r'` replies for the longer
  sequence. It goes on before the end, and no further back than `floor` if it gives up. Its problems
  have extents of these items alone. And if it has a value, `Q` holds of that and of where it goes on.

Each step that rules are made of has a lemma on `Confined` that opens it; `Confined.bind` is for a rule
within a rule.
-/

set_option autoImplicit false

namespace SchemaLang

structure Frame (τ : Type) where
  items : Items
  more : Items
  last : Nat
  f : Extent → τ
  g : Extent → τ
  size_eq : items.size = last + 1
  size_le : items.size ≤ more.size
  itemAt_eq : ∀ i, i ≤ last → itemAt more i = itemAt items i
  end_iff : ∀ i, kindAt items i = .endOfText ↔ last ≤ i
  places : ∀ e : Extent, e.first ≤ last → e.last ≤ last → f e = g e

namespace Frame

variable {τ : Type} (F : Frame τ) {i : Nat}

theorem kindAt_eq (h : i ≤ F.last) : kindAt F.more i = kindAt F.items i := by
  rw [kindAt, F.itemAt_eq i h, kindAt]

theorem lt_last (h : kindAt F.items i ≠ .endOfText) : i < F.last := by
  rw [Ne, F.end_iff] at h
  omega

/-! ## Places -/

/-- An extent of the items alone. -/
structure Inside (e : Extent) : Prop where
  first_le : e.first ≤ F.last
  last_le : e.last ≤ F.last

variable {F} in
theorem Inside.eq {e : Extent} (h : F.Inside e) : F.f e = F.g e := F.places e h.1 h.2

variable {F} in
theorem Inside.merge {d e : Extent} (hd : F.Inside d) (he : F.Inside e) : F.Inside (d.merge e) :=
  ⟨Nat.le_trans (Nat.min_le_left ..) hd.first_le, Nat.max_le.2 ⟨hd.last_le, he.last_le⟩⟩

theorem inside_single (h : i ≤ F.last) : F.Inside (.single i) := ⟨h, h⟩

/-- The extent from an item before the next one to the last one read. -/
theorem inside_from {first : Nat} (h : first ≤ F.last) (hi : i ≤ F.last) :
    F.Inside ⟨first, i - 1⟩ := ⟨h, Nat.le_trans (Nat.sub_le i 1) hi⟩

theorem place_single (h : i ≤ F.last) : F.f (.single i) = F.g (.single i) :=
  (F.inside_single h).eq

theorem place_from {first : Nat} (h : first ≤ F.last) (hi : i ≤ F.last) :
    F.f ⟨first, i - 1⟩ = F.g ⟨first, i - 1⟩ := (F.inside_from h hi).eq

/-! ## Replies -/

variable {α β : Type}

/-- What a confined rule replies. -/
structure Outcome (floor : Nat) (Q : α → Nat → Prop) (reply : Reply α) : Prop where
  next_le : reply.next ≤ F.last
  problems : ∀ p ∈ reply.problems, p.map F.f = p.map F.g
  value : ∀ a, reply.value = some a → Q a reply.next
  floor_le : reply.value = none → floor ≤ reply.next

def Confined (floor : Nat) (r r' : Rule α) (i : Nat) (Q : α → Nat → Prop) : Prop :=
  i ≤ F.last → r' F.more i = r F.items i ∧ F.Outcome floor Q (r F.items i)

variable {F} {floor : Nat} {r r' s s' : Rule α} {f f' : α → Rule β} {P : α → Nat → Prop}
  {Q : β → Nat → Prop}

theorem confined_of_le (h : i ≤ F.last → F.Confined floor r r' i P) : F.Confined floor r r' i P :=
  fun hi => h hi hi

theorem Confined.imp {P' : α → Nat → Prop} (h : F.Confined floor r r' i P)
    (hP : ∀ a j, P a j → P' a j) : F.Confined floor r r' i P' := fun hi =>
  let ⟨he, ho⟩ := h hi
  ⟨he, ho.next_le, ho.problems, fun a ha => hP a _ (ho.value a ha), ho.floor_le⟩

theorem outcome_mk {v : Option α} {j : Nat} {ps : List (Problem Extent)} :
    F.Outcome floor P ⟨v, j, ps⟩ ↔ j ≤ F.last ∧ (∀ p ∈ ps, p.map F.f = p.map F.g) ∧
      (∀ a, v = some a → P a j) ∧ (v = none → floor ≤ j) :=
  ⟨fun ⟨hn, hp, hv, hl⟩ => ⟨hn, hp, hv, hl⟩, fun ⟨hn, hp, hv, hl⟩ => ⟨hn, hp, hv, hl⟩⟩

/-- A rule that does not go back behind its start replies with nothing before it. -/
theorem Confined.le_next (h : F.Confined i r r' i P) (hi : i ≤ F.last)
    (hP : ∀ a j, P a j → i ≤ j) : i ≤ (r F.items i).next := by
  obtain ⟨-, ho⟩ := h hi
  cases hv : (r F.items i).value with
  | none => exact ho.floor_le hv
  | some a => exact hP a _ (ho.value a hv)

theorem Confined.bind (hr : F.Confined floor r r' i P)
    (hf : ∀ a j, j ≤ F.last → P a j → F.Confined floor (f a) (f' a) j Q) :
    F.Confined floor (r >>= f) (r' >>= f') i Q := by
  intro hi
  obtain ⟨he, ho⟩ := hr hi
  show Rule.andThen r' f' F.more i = Rule.andThen r f F.items i ∧
    F.Outcome floor Q (Rule.andThen r f F.items i)
  unfold Rule.andThen
  rw [he]
  generalize r F.items i = reply at ho
  obtain ⟨v, j, ps⟩ := reply
  obtain ⟨hn, hp, hv, hl⟩ := outcome_mk.1 ho
  cases v with
  | none => exact ⟨rfl, outcome_mk.2 ⟨hn, hp, nofun, fun _ => hl rfl⟩⟩
  | some a =>
    obtain ⟨he', hn', hp', hv', hl'⟩ := hf a j hn (hv a rfl) hn
    dsimp only
    rw [he']
    refine ⟨rfl, outcome_mk.2 ⟨hn', fun p hmem => ?_, hv', hl'⟩⟩
    rcases List.mem_append.1 hmem with hmem | hmem
    · exact hp p hmem
    · exact hp' p hmem

/-- A rule whose reply is known. -/
theorem confined_iff (v : Option α) (j : Nat) (ps : List (Problem Extent))
    (h : r F.items i = ⟨v, j, ps⟩) (h' : i ≤ F.last → r' F.more i = ⟨v, j, ps⟩) :
    F.Confined floor r r' i P ↔ (i ≤ F.last → j ≤ F.last ∧ (∀ p ∈ ps, p.map F.f = p.map F.g) ∧
      (∀ a, v = some a → P a j) ∧ (v = none → floor ≤ j)) := by
  refine forall_congr' fun hi => ?_
  rw [h, h' hi, outcome_mk]
  simp

/-! ## Steps -/

@[simp] theorem confined_pure {a : α} :
    F.Confined floor (pure a) (pure a) i P ↔ (i ≤ F.last → P a i) := by
  rw [confined_iff (some a) i [] rfl fun _ => rfl]
  simp +contextual

@[simp] theorem confined_giveUp :
    F.Confined floor (Rule.giveUp : Rule α) Rule.giveUp i P ↔ (i ≤ F.last → floor ≤ i) := by
  rw [confined_iff none i [] rfl fun _ => rfl]
  simp +contextual

@[simp] theorem confined_giveUpBehind :
    F.Confined floor (Rule.giveUpBehind : Rule α) Rule.giveUpBehind i P ↔
      (i ≤ F.last → floor ≤ i - 1) := by
  rw [confined_iff none (i - 1) [] rfl fun _ => rfl]
  refine forall_congr' fun hi => ?_
  simp [Nat.le_trans (Nat.sub_le i 1) hi]

@[simp] theorem confined_ite {p : Prop} [Decidable p] :
    F.Confined floor (if p then r else s) (if p then r' else s') i P ↔
      (p → F.Confined floor r r' i P) ∧ (¬ p → F.Confined floor s s' i P) := by
  split <;> simp_all

@[simp] theorem confined_peek_bind {f f' : Item → Rule β} :
    F.Confined floor (Rule.peek >>= f) (Rule.peek >>= f') i Q ↔
      F.Confined floor (f (itemAt F.items i)) (f' (itemAt F.items i)) i Q := by
  refine forall_congr' fun hi => ?_
  have peek : (Rule.peek >>= f') F.more i = f' (itemAt F.more i) F.more i := rfl
  rw [peek, F.itemAt_eq i hi]
  rfl

@[simp] theorem confined_peekKind_bind {f f' : TokenKind → Rule β} :
    F.Confined floor (Rule.peekKind >>= f) (Rule.peekKind >>= f') i Q ↔
      F.Confined floor (f (kindAt F.items i)) (f' (kindAt F.items i)) i Q := by
  refine forall_congr' fun hi => ?_
  have peekKind : (Rule.peekKind >>= f') F.more i = f' (kindAt F.more i) F.more i := rfl
  rw [peekKind, F.kindAt_eq hi]
  rfl

@[simp] theorem confined_nextDoc_bind {f f' : Option String → Rule β} :
    F.Confined floor (Rule.nextDoc >>= f) (Rule.nextDoc >>= f') i Q ↔
      F.Confined floor (f (itemAt F.items i).doc) (f' (itemAt F.items i).doc) i Q := by
  refine forall_congr' fun hi => ?_
  have nextDoc : (Rule.nextDoc >>= f') F.more i = f' (itemAt F.more i).doc F.more i := rfl
  rw [nextDoc, F.itemAt_eq i hi]
  rfl

@[simp] theorem confined_position_bind {f f' : Nat → Rule β} :
    F.Confined floor (Rule.position >>= f) (Rule.position >>= f') i Q ↔
      F.Confined floor (f i) (f' i) i Q := Iff.rfl

@[simp] theorem confined_extentFrom_bind {first : Nat} {f f' : Extent → Rule β} :
    F.Confined floor (Rule.extentFrom first >>= f) (Rule.extentFrom first >>= f') i Q ↔
      F.Confined floor (f ⟨first, i - 1⟩) (f' ⟨first, i - 1⟩) i Q := Iff.rfl

/-- The numbers of items that remain differ. -/
@[simp] theorem confined_remaining_bind {f f' : Nat → Rule β} :
    F.Confined floor (Rule.remaining >>= f) (Rule.remaining >>= f') i Q ↔
      F.Confined floor (f (F.items.size - i)) (f' (F.more.size - i)) i Q := Iff.rfl

/-- There is an item behind one that is not the end. -/
theorem confined_take_bind {f f' : Item → Rule β} (h : kindAt F.items i ≠ .endOfText)
    (hf : F.Confined floor (f (itemAt F.items i)) (f' (itemAt F.items i)) (i + 1) Q) :
    F.Confined floor (Rule.take >>= f) (Rule.take >>= f') i Q := by
  intro hi
  have take : (Rule.take >>= f') F.more i = f' (itemAt F.more i) F.more (i + 1) := rfl
  rw [take, F.itemAt_eq i hi]
  exact hf (F.lt_last h)

/-- What stands behind the next item is the same as well, unless that is the end. -/
theorem confined_peekSecond_bind {f f' : TokenKind → Rule β} (h : kindAt F.items i ≠ .endOfText)
    (hf : F.Confined floor (f (kindAt F.items (i + 1))) (f' (kindAt F.items (i + 1))) i Q) :
    F.Confined floor (Rule.peekSecond >>= f) (Rule.peekSecond >>= f') i Q := by
  intro hi
  have peekSecond : (Rule.peekSecond >>= f') F.more i = f' (kindAt F.more (i + 1)) F.more i := rfl
  rw [peekSecond, F.kindAt_eq (F.lt_last h)]
  exact hf hi

/-- It may be anything behind the end if nothing depends on it. -/
theorem confined_peekSecond_bind_const {f f' : TokenKind → Rule β}
    (hf : ∀ k k', F.Confined floor (f k) (f' k') i Q) :
    F.Confined floor (Rule.peekSecond >>= f) (Rule.peekSecond >>= f') i Q :=
  hf (kindAt F.items (i + 1)) (kindAt F.more (i + 1))

/-! ## Problems -/

theorem confined_report_bind {cause : Cause Extent} {place : Extent} {f f' : Unit → Rule β}
    (hc : cause.map F.f = cause.map F.g) (hp : F.f place = F.g place)
    (h : F.Confined floor (f ()) (f' ()) i Q) :
    F.Confined floor (Rule.report cause place >>= f) (Rule.report cause place >>= f') i Q := by
  refine Confined.bind (P := fun _ j => j = i) ?_ fun _ j _ hj => hj ▸ h
  rw [confined_iff (some ()) i [⟨cause, place⟩] rfl fun _ => rfl]
  simp +contextual [Problem.map, hc, hp]

theorem confined_blame_bind {cause : Found → Cause Extent} {f f' : Unit → Rule β}
    (hc : ∀ t, (cause t).map F.f = (cause t).map F.g) (h : F.Confined floor (f ()) (f' ()) i Q) :
    F.Confined floor (Rule.blame cause >>= f) (Rule.blame cause >>= f') i Q := by
  refine Confined.bind (P := fun _ j => j = i) ?_ fun _ j _ hj => hj ▸ h
  rw [confined_iff (some ()) i (if (itemAt F.items i).kind = .invalid then []
    else [⟨cause (itemAt F.items i).found, .single i⟩]) rfl
    fun hi => by rw [Rule.blame, F.itemAt_eq i hi]]
  intro hi
  refine ⟨hi, fun p hp => ?_, fun _ _ => rfl, nofun⟩
  split at hp
  · cases hp
  · obtain rfl := List.mem_singleton.1 hp
    simp [Problem.map, hc, F.place_single hi]

theorem confined_reject {cause : Found → Cause Extent}
    (hc : ∀ t, (cause t).map F.f = (cause t).map F.g) (hl : floor ≤ i) :
    F.Confined floor (Rule.reject cause : Rule α) (Rule.reject cause) i P :=
  confined_blame_bind hc (confined_giveUp.2 fun _ => hl)

theorem confined_rejectBehind {cause : Found → Cause Extent}
    (hc : ∀ t, (cause t).map F.f = (cause t).map F.g) (hl : floor < i) :
    F.Confined floor (Rule.rejectBehind cause : Rule α) (Rule.rejectBehind cause) i P :=
  confined_blame_bind hc (confined_giveUpBehind.2 fun _ => by omega)

/-! ## Single items -/

theorem confined_take (h : kindAt F.items i ≠ .endOfText) :
    F.Confined floor Rule.take Rule.take i fun t j => t = itemAt F.items i ∧ j = i + 1 := by
  intro hi
  refine ⟨by rw [Rule.take, F.itemAt_eq i hi, Rule.take], ?_⟩
  exact outcome_mk.2 ⟨F.lt_last h, by simp, by simp, nofun⟩

theorem confined_takeName_bind {f f' : Name Extent → Rule β} (h : kindAt F.items i ≠ .endOfText)
    (hf : F.Confined floor (f ⟨(itemAt F.items i).text, .single i⟩)
      (f' ⟨(itemAt F.items i).text, .single i⟩) (i + 1) Q) :
    F.Confined floor (Rule.takeName >>= f) (Rule.takeName >>= f') i Q := by
  refine Confined.bind (P := fun n j => n = ⟨(itemAt F.items i).text, .single i⟩ ∧ j = i + 1) ?_ ?_
  · simp only [Rule.takeName, confined_position_bind]
    exact confined_take_bind h (confined_pure.2 fun _ => ⟨rfl, rfl⟩)
  · rintro _ _ - ⟨rfl, rfl⟩
    exact hf

theorem confined_expect_bind {kind : TokenKind} {f f' : Item → Rule β} (hl : floor < i)
    (hk : kind ≠ .endOfText) (hf : kindAt F.items i = kind →
      F.Confined floor (f (itemAt F.items i)) (f' (itemAt F.items i)) (i + 1) Q) :
    F.Confined floor (Rule.expect kind >>= f) (Rule.expect kind >>= f') i Q := by
  refine Confined.bind (P := fun t j => kindAt F.items i = kind ∧ t = itemAt F.items i ∧ j = i + 1)
    ?_ ?_
  · simp only [Rule.expect, confined_peekKind_bind, confined_ite]
    refine ⟨fun h => ?_, fun _ => confined_rejectBehind (fun _ => rfl) hl⟩
    exact (confined_take (h ▸ hk)).imp fun _ _ ht => ⟨h, ht⟩
  · rintro _ _ - ⟨h, rfl, rfl⟩
    exact hf h

theorem confined_expectName {allowed : TokenKind → Bool} {what : Expected} (hl : floor < i)
    (hk : allowed .endOfText = false) :
    F.Confined floor (Rule.expectName allowed what) (Rule.expectName allowed what) i fun n j =>
      allowed (kindAt F.items i) = true ∧ n = ⟨(itemAt F.items i).text, .single i⟩ ∧ j = i + 1 := by
  simp only [Rule.expectName, confined_peekKind_bind, confined_ite]
  refine ⟨fun h => ?_, fun _ => confined_rejectBehind (fun _ => rfl) hl⟩
  simp only [Rule.takeName, confined_position_bind]
  exact confined_take_bind (TokenKind.ne_of_allowed h hk) (confined_pure.2 fun _ => ⟨h, rfl, rfl⟩)

theorem confined_expectName_bind {allowed : TokenKind → Bool} {what : Expected}
    {f f' : Name Extent → Rule β} (hl : floor < i) (hk : allowed .endOfText = false)
    (hf : allowed (kindAt F.items i) = true → F.Confined floor
      (f ⟨(itemAt F.items i).text, .single i⟩) (f' ⟨(itemAt F.items i).text, .single i⟩) (i + 1) Q) :
    F.Confined floor (Rule.expectName allowed what >>= f) (Rule.expectName allowed what >>= f') i
      Q := by
  refine (confined_expectName hl hk).bind ?_
  rintro _ _ - ⟨h, rfl, rfl⟩
  exact hf h

theorem confined_close_bind {closer : Symbol} {opened : Nat} {what : Enclosure}
    {f f' : Unit → Rule β} (hl : floor < i) (ho : opened ≤ F.last)
    (hf : kindAt F.items i = .symbol closer → F.Confined floor (f ()) (f' ()) (i + 1) Q) :
    F.Confined floor (Rule.close closer opened what >>= f) (Rule.close closer opened what >>= f') i
      Q := by
  refine Confined.bind (P := fun _ j => kindAt F.items i = .symbol closer ∧ j = i + 1) ?_ ?_
  · have place := F.place_single ho
    simp only [Rule.close, confined_peekKind_bind, confined_ite]
    refine ⟨fun h => ?_, fun _ => ⟨fun _ => ?_, fun _ => ?_⟩⟩
    · exact confined_take_bind (by simp [h]) (confined_pure.2 fun _ => ⟨h, rfl⟩)
    · exact confined_rejectBehind (fun _ => by simp [Cause.map, place]) hl
    · exact confined_rejectBehind (fun _ => by simp [Cause.map, place]) hl
  · rintro _ _ - ⟨h, rfl⟩
    exact hf h

end Frame

end SchemaLang
