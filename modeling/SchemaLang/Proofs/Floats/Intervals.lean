import SchemaLang.Decimal.Shortest
import Mathlib.Data.Rat.Cast.Order
import Mathlib.Data.Nat.Digits.Lemmas
import Mathlib.Algebra.Order.Field.Power
import Mathlib.Tactic.Linarith
import Mathlib.Tactic.Positivity
import Mathlib.Tactic.FieldSimp
import Mathlib.Tactic.Ring

/-!
# The numbers that read back as a magnitude

* `lowEnd m` and `highEnd m` are the ends of the range of the magnitude `m`, in units of `2 ^ (-1076)`, so
  they are whole numbers.
* `Within m w`: the number lies in that range. The ends belong to the even magnitudes.
* `scaled (c, e)` is the number `c * 10 ^ e`.
* `inside x unit k`: the test of `onGrid?` for the multiple `k` of `10 ^ unit`. It compares whole numbers
  (`quarters` and `step`).

Main statements: the ranges of two magnitudes are disjoint (`Within.eq`), and the shortest decimal of a
float lies in the range of its magnitude (`within_shortest`), since seventeen digits always suffice
(`isSome_onGrid?_seventeen`).
-/

set_option autoImplicit false

namespace SchemaLang

namespace Binary64

/-! ## Ranges -/

section

variable {m n : Nat} {w : ℚ}

def significandOf (m : Nat) : Nat :=
  if m / hiddenBit = 0 then m % hiddenBit else hiddenBit + m % hiddenBit

/-- What `interval` takes from the significand, in quarters of the last place. -/
def gapBelow (m : Nat) : Nat := if m % hiddenBit = 0 ∧ 1 < m / hiddenBit then 1 else 2

def lowEnd (m : Nat) : Nat := (4 * significandOf m - gapBelow m) * 2 ^ (m / hiddenBit - 1)

def highEnd (m : Nat) : Nat := (4 * significandOf m + 2) * 2 ^ (m / hiddenBit - 1)

/-- The number that many units make. -/
def inUnits (n : Nat) : ℚ := n * 2 ^ (-1076 : Int)

structure Within (m : Nat) (w : ℚ) : Prop where
  low : inUnits (lowEnd m) ≤ w
  high : w ≤ inUnits (highEnd m)
  inner : m % 2 = 1 → inUnits (lowEnd m) < w ∧ w < inUnits (highEnd m)

theorem strictMono_inUnits : StrictMono inUnits := fun _ _ h =>
  mul_lt_mul_of_pos_right (Nat.cast_lt.2 h) (zpow_pos (by norm_num) _)

theorem within_zero : Within 0 0 where
  low := by simp [show lowEnd 0 = 0 from rfl, inUnits]
  high := mul_nonneg (Nat.cast_nonneg _) (zpow_nonneg (by norm_num) _)
  inner := nofun

theorem lowEnd_lt_highEnd (m : Nat) : lowEnd m < highEnd m :=
  Nat.mul_lt_mul_of_pos_right (by omega) (by positivity)

/-- The ranges stand next to each other. -/
theorem lowEnd_succ (m : Nat) : lowEnd (m + 1) = highEnd m := by
  unfold lowEnd highEnd
  by_cases hf : m % hiddenBit + 1 < hiddenBit
  · have hdiv : (m + 1) / hiddenBit = m / hiddenBit := by unfold hiddenBit at *; omega
    have hmod : (m + 1) % hiddenBit = m % hiddenBit + 1 := by unfold hiddenBit at *; omega
    have hsignificand : significandOf (m + 1) = significandOf m + 1 := by
      rw [significandOf, hdiv, hmod, significandOf]
      split <;> omega
    have hgap : gapBelow (m + 1) = 2 := if_neg (by omega)
    rw [hdiv, hsignificand, hgap]
    congr 1
  · -- the significand starts again at the hidden bit
    have hdiv : (m + 1) / hiddenBit = m / hiddenBit + 1 := by unfold hiddenBit at *; omega
    have hmod : (m + 1) % hiddenBit = 0 := by unfold hiddenBit at *; omega
    have hlast : m % hiddenBit = hiddenBit - 1 := by unfold hiddenBit at *; omega
    have hnext : significandOf (m + 1) = hiddenBit := by
      rw [significandOf, hdiv, hmod, if_neg (Nat.succ_ne_zero _), Nat.add_zero]
    rw [hdiv, hnext, significandOf, gapBelow, hdiv, hmod, hlast]
    rcases m / hiddenBit with - | k
    · decide
    · rw [if_pos ⟨rfl, by omega⟩, if_neg (by omega), Nat.add_sub_cancel, Nat.add_sub_cancel, Nat.pow_succ]
      unfold hiddenBit
      omega

theorem highEnd_le_lowEnd (h : m < n) : highEnd m ≤ lowEnd n := by
  induction n, h using Nat.le_induction with
  | base => exact (lowEnd_succ m).ge
  | succ k _ ih =>
    rw [lowEnd_succ]
    exact ih.trans (lowEnd_lt_highEnd k).le

theorem Within.not_lt (hm : Within m w) (hn : Within n w) : ¬ m < n := by
  intro h
  have hle : inUnits (highEnd m) ≤ inUnits (lowEnd n) := strictMono_inUnits.monotone (highEnd_le_lowEnd h)
  rcases Nat.lt_or_ge (m + 1) n with hfar | hnext
  · have hgap : highEnd m < lowEnd n :=
      (lowEnd_succ m).symm.trans_lt ((lowEnd_lt_highEnd _).trans_le (highEnd_le_lowEnd hfar))
    exact absurd (strictMono_inUnits hgap) (hn.low.trans hm.high).not_gt
  · -- the end between neighbours belongs to one of them
    obtain rfl : n = m + 1 := by omega
    rcases Nat.mod_two_eq_zero_or_one m with heven | hodd
    · exact absurd (hle.trans_lt (hn.inner (by omega)).1) hm.high.not_gt
    · exact absurd ((hm.inner hodd).2.trans_le hle) hn.low.not_gt

theorem Within.eq (hm : Within m w) (hn : Within n w) : m = n :=
  Nat.le_antisymm (Nat.not_lt.1 (hn.not_lt hm)) (Nat.not_lt.1 (hm.not_lt hn))

end

/-! ## Powers of ten and of two -/

def scaled (r : Nat × Int) : ℚ := r.1 * 10 ^ r.2

theorem scaled_dropZeros (k : Nat) (r : Nat × Int) : scaled (dropZeros k r) = scaled r := by
  induction k generalizing r with
  | zero => rfl
  | succ k ih =>
    obtain ⟨c, e⟩ := r
    rw [dropZeros]
    split
    · rename_i hc
      have hten : (c : ℚ) = (c / 10 : Nat) * 10 := by
        exact_mod_cast (Nat.div_mul_cancel (Nat.dvd_of_mod_eq_zero hc.1)).symm
      rw [ih]
      simp only [scaled]
      rw [hten, Int.add_comm, zpow_add₀ (by norm_num), zpow_one, mul_assoc]
    · rfl

/-- `scaledBy 1 1 k` is `2 ^ k`. -/
theorem scaledBy_one (k : Int) :
    0 < (scaledBy 1 1 k).2 ∧ ((scaledBy 1 1 k).1 : ℚ) = 2 ^ k * (scaledBy 1 1 k).2 := by
  unfold scaledBy
  split
  · rename_i hk
    obtain ⟨n, rfl⟩ := Int.eq_ofNat_of_zero_le hk
    simp [Nat.one_shiftLeft]
  · rename_i hk
    obtain ⟨n, rfl⟩ := Int.exists_eq_neg_ofNat (Int.le_of_not_le hk)
    simp [Nat.one_shiftLeft]

theorem digitCount_le_iff {n k : Nat} : digitCount n ≤ k + 1 ↔ n < 10 ^ (k + 1) :=
  Nat.length_toDigits_le_iff (by decide) (by omega)

theorem digitCount_pos (n : Nat) : 0 < digitCount n := List.length_pos_iff.2 Nat.toDigits_ne_nil

theorem lt_pow_digitCount (n : Nat) : n < 10 ^ digitCount n := by
  obtain ⟨k, hk⟩ := Nat.exists_eq_succ_of_ne_zero (digitCount_pos n).ne'
  rw [hk]
  exact digitCount_le_iff.1 hk.le

theorem pow_digitCount_le {n : Nat} (hn : 0 < n) : 10 ^ (digitCount n - 1) ≤ n := by
  rcases h : digitCount n - 1 with - | k
  · exact hn
  · by_contra hlt
    have := digitCount_le_iff.2 (Nat.not_le.1 hlt)
    omega

theorem ten_zpow_decimalPoint_le {n d : Nat} (hn : 0 < n) (hd : 0 < d) :
    (10 : ℚ) ^ (decimalPoint n d - 1) * d ≤ n := by
  unfold decimalPoint
  split
  · rename_i hle
    have hpow := pow_digitCount_le (Nat.div_pos hle hd)
    have hexp : (digitCount (n / d) : Int) - 1 = (digitCount (n / d) - 1 : Nat) := by
      have := digitCount_pos (n / d)
      omega
    rw [hexp, zpow_natCast]
    exact_mod_cast (Nat.mul_le_mul_right d hpow).trans (Nat.div_mul_le_self n d)
  · -- the denominator is at most as many times the numerator as the power says
    have hpow : d ≤ n * 10 ^ digitCount ((d + n - 1) / n - 1) := by
      have hlt := lt_pow_digitCount ((d + n - 1) / n - 1)
      have hceil : (d + n - 1) / n ≤ 10 ^ digitCount ((d + n - 1) / n - 1) := by omega
      have hmul : d ≤ n * ((d + n - 1) / n) := by
        have := Nat.lt_mul_div_succ (d + n - 1) hn
        rw [Nat.mul_add] at this
        omega
      exact hmul.trans (Nat.mul_le_mul_left n hceil)
    rw [sub_right_comm, sub_self, zero_sub, zpow_neg, zpow_natCast, inv_mul_le_iff₀ (by positivity),
      mul_comm]
    exact_mod_cast hpow

/-! ## Grids -/

/-- A power of ten as a fraction. -/
structure Grid where
  num : Nat
  den : Nat

def gridOf (unit : Int) : Grid :=
  ⟨if 0 ≤ unit then Nat.pow 10 unit.toNat else 1, if 0 ≤ unit then 1 else Nat.pow 10 (-unit).toNat⟩

theorem gridOf_eq (unit : Int) : 0 < (gridOf unit).num ∧ 0 < (gridOf unit).den ∧
    ((gridOf unit).num : ℚ) = 10 ^ unit * (gridOf unit).den := by
  unfold gridOf
  split
  · rename_i hk
    obtain ⟨n, rfl⟩ := Int.eq_ofNat_of_zero_le hk
    simp
  · rename_i hk
    obtain ⟨n, rfl⟩ := Int.exists_eq_neg_ofNat (Int.le_of_not_le hk)
    simp

section

variable {x : Binary64} {tie : Tie} {point unit : Int} {count k : Nat}

/-- That many quarters of the last place, after multiplication by the denominators. -/
def quarters (x : Binary64) (unit : Int) (n : Nat) : Nat := n * x.quarterUnit.1 * (gridOf unit).den

/-- The distance of two multiples, after multiplication by the denominators. -/
def step (x : Binary64) (unit : Int) : Nat := (gridOf unit).num * x.quarterUnit.2

/-- Whether the multiple lies in the range of `x`. -/
def inside (x : Binary64) (unit : Int) (k : Nat) : Bool :=
  let w := k * x.step unit
  let lo := x.quarters unit (4 * significandOf x.magnitude - gapBelow x.magnitude)
  let hi := x.quarters unit (4 * significandOf x.magnitude + 2)
  if decide (significandOf x.magnitude % 2 = 0) then lo ≤ w && w ≤ hi else lo < w && w < hi

/-- The greatest multiple that is not above `x`. -/
def indexBelow (x : Binary64) (unit : Int) : Nat :=
  x.quarters unit (4 * significandOf x.magnitude) / x.step unit

theorem onGrid?_eq : ∃ upper : Bool, x.onGrid? tie point count =
    match inside x (point - count) (indexBelow x (point - count)),
      inside x (point - count) (indexBelow x (point - count) + 1) with
    | true, true => some (if upper then indexBelow x (point - count) + 1 else
        indexBelow x (point - count), point - count)
    | true, false => some (indexBelow x (point - count), point - count)
    | false, true => some (indexBelow x (point - count) + 1, point - count)
    | false, false => none := ⟨_, rfl⟩

theorem exists_inside_of_onGrid? {r : Nat × Int} (h : x.onGrid? tie point count = some r) :
    ∃ k unit, inside x unit k = true ∧ r = (k, unit) := by
  obtain ⟨upper, heq⟩ := @onGrid?_eq x tie point count
  rw [h] at heq
  split at heq
  · rename_i hbelow habove
    refine ⟨_, _, ?_, Option.some.inj heq⟩
    split
    · exact habove
    · exact hbelow
  · rename_i hbelow _
    exact ⟨_, _, hbelow, Option.some.inj heq⟩
  · rename_i _ habove
    exact ⟨_, _, habove, Option.some.inj heq⟩
  · cases heq

theorem isSome_onGrid? (h : inside x (point - count) (indexBelow x (point - count)) = true ∨
    inside x (point - count) (indexBelow x (point - count) + 1) = true) :
    (x.onGrid? tie point count).isSome = true := by
  obtain ⟨upper, heq⟩ := @onGrid?_eq x tie point count
  rw [heq]
  split
  · rfl
  · rfl
  · rfl
  · rename_i hbelow habove
    rw [hbelow, habove] at h
    simp at h

/-! ### What lies inside -/

theorem quarterUnit_eq (x : Binary64) : 0 < x.quarterUnit.2 ∧
    (x.quarterUnit.1 : ℚ) = 2 ^ (x.scale - 2) * x.quarterUnit.2 := scaledBy_one (x.scale - 2)

theorem inUnits_mul_two_pow (x : Binary64) (n : Nat) :
    inUnits (n * 2 ^ (x.exponentField - 1)) = n * 2 ^ (x.scale - 2) := by
  have hexp : x.scale - 2 = (x.exponentField - 1 : Nat) + -1076 := by
    unfold scale
    split <;> omega
  rw [inUnits, hexp, zpow_add₀ (by norm_num), zpow_natCast, ← mul_assoc, Nat.cast_mul, Nat.cast_pow,
    Nat.cast_ofNat]

/-- The whole numbers that are compared stand for a multiple and for an end. -/
theorem quarters_le_iff (x : Binary64) (unit : Int) (k n : Nat) :
    (x.quarters unit n ≤ k * x.step unit ↔
      inUnits (n * 2 ^ (x.exponentField - 1)) ≤ scaled (k, unit)) ∧
    (k * x.step unit ≤ x.quarters unit n ↔
      scaled (k, unit) ≤ inUnits (n * 2 ^ (x.exponentField - 1))) := by
  obtain ⟨-, hden, hnum⟩ := gridOf_eq unit
  obtain ⟨hd, hs⟩ := quarterUnit_eq x
  have hfactor : (0 : ℚ) < x.quarterUnit.2 * (gridOf unit).den := by positivity
  have hend : (x.quarters unit n : ℚ) =
      inUnits (n * 2 ^ (x.exponentField - 1)) * (x.quarterUnit.2 * (gridOf unit).den) := by
    rw [quarters]
    push_cast
    rw [hs, inUnits_mul_two_pow]
    ring
  have hgrid : ((k * x.step unit : Nat) : ℚ) =
      scaled (k, unit) * (x.quarterUnit.2 * (gridOf unit).den) := by
    rw [step]
    push_cast
    rw [hnum, scaled]
    ring
  rw [← Nat.cast_le (α := ℚ), ← Nat.cast_le (α := ℚ), hend, hgrid, mul_le_mul_iff_left₀ hfactor,
    mul_le_mul_iff_left₀ hfactor]
  exact ⟨Iff.rfl, Iff.rfl⟩

theorem significandOf_mod_two (m : Nat) : significandOf m % 2 = m % 2 := by
  unfold significandOf hiddenBit
  split <;> omega

theorem within_of_inside (h : inside x unit k = true) : Within x.magnitude (scaled (k, unit)) := by
  obtain ⟨hlow, hlow'⟩ := quarters_le_iff x unit k (4 * significandOf x.magnitude - gapBelow x.magnitude)
  obtain ⟨hhigh', hhigh⟩ := quarters_le_iff x unit k (4 * significandOf x.magnitude + 2)
  simp only [inside, significandOf_mod_two] at h
  split at h
  · rename_i heven
    rw [Bool.and_eq_true, decide_eq_true_eq, decide_eq_true_eq] at h
    exact ⟨hlow.1 h.1, hhigh.1 h.2, fun hodd => by simp [hodd] at heven⟩
  · rw [Bool.and_eq_true, decide_eq_true_eq, decide_eq_true_eq, ← Nat.not_le, ← Nat.not_le] at h
    have hl := not_le.1 (mt hlow'.2 h.1)
    have hh := not_le.1 (mt hhigh'.2 h.2)
    exact ⟨hl.le, hh.le, fun _ => ⟨hl, hh⟩⟩

/-! ### Seventeen digits -/

theorem inside_of_lt
    (hlow : x.quarters unit (4 * significandOf x.magnitude - gapBelow x.magnitude) < k * x.step unit)
    (hhigh : k * x.step unit < x.quarters unit (4 * significandOf x.magnitude + 2)) :
    inside x unit k = true := by
  simp only [inside]
  split <;> simp [hlow, hhigh, hlow.le, hhigh.le]

theorem significandOf_lt (m : Nat) : significandOf m < 2 * hiddenBit := by
  unfold significandOf hiddenBit
  split <;> omega

theorem significandOf_pos {m : Nat} (hm : m ≠ 0) : 0 < significandOf m := by
  unfold significandOf hiddenBit
  split <;> omega

/-- Below a power of two there is half the room, and the significand is the least one. -/
theorem gapBelow_cases (m : Nat) : gapBelow m = 2 ∨ gapBelow m = 1 ∧ significandOf m = hiddenBit := by
  unfold gapBelow
  split
  · rename_i h
    exact .inr ⟨rfl, by rw [significandOf, if_neg (by omega), h.1, Nat.add_zero]⟩
  · exact .inl rfl

theorem quarterUnit_pos (x : Binary64) : 0 < x.quarterUnit.1 := by
  obtain ⟨hd, hs⟩ := x.quarterUnit_eq
  have hpos : (0 : ℚ) < x.quarterUnit.1 := by
    rw [hs]
    positivity
  exact_mod_cast hpos

/-- The decimal point that the search for digits starts from. -/
def pointOf (x : Binary64) : Int :=
  decimalPoint (4 * significandOf x.magnitude * x.quarterUnit.1) x.quarterUnit.2

/-- A grid of seventeen digits is fine next to the number. -/
theorem step_mul_le (hx : x.magnitude ≠ 0) :
    x.step (x.pointOf - 17) * 10 ^ 16 ≤ x.quarters (x.pointOf - 17) (4 * significandOf x.magnitude) := by
  obtain ⟨hd, -⟩ := x.quarterUnit_eq
  obtain ⟨-, hden, hnum⟩ := gridOf_eq (x.pointOf - 17)
  have hpos := Nat.mul_pos (Nat.mul_pos (by decide : 0 < 4) (significandOf_pos hx)) x.quarterUnit_pos
  have hpoint : (10 : ℚ) ^ (x.pointOf - 1) * x.quarterUnit.2 ≤
      (4 * significandOf x.magnitude * x.quarterUnit.1 : Nat) := ten_zpow_decimalPoint_le hpos hd
  have hexp : (10 : ℚ) ^ (x.pointOf - 1) = 10 ^ (x.pointOf - 17) * 10 ^ 16 := by
    rw [← zpow_natCast, ← zpow_add₀ (by norm_num)]
    congr 1
    omega
  have hle : ((gridOf (x.pointOf - 17)).num * x.quarterUnit.2 * 10 ^ 16 : ℚ) ≤
      (4 * significandOf x.magnitude * x.quarterUnit.1 : Nat) * (gridOf (x.pointOf - 17)).den := by
    rw [hnum]
    calc (10 : ℚ) ^ (x.pointOf - 17) * (gridOf (x.pointOf - 17)).den * x.quarterUnit.2 * 10 ^ 16
        = 10 ^ (x.pointOf - 1) * x.quarterUnit.2 * (gridOf (x.pointOf - 17)).den := by
          rw [hexp]
          ring
      _ ≤ _ := mul_le_mul_of_nonneg_right hpoint (by positivity)
  exact_mod_cast hle

/-- One of the two multiples next to a number lies in its range if they stand close enough. -/
theorem exists_neighbour {gap n q step c : Nat} (hq : 0 < q) (hgap : gap = 2 ∨ gap = 1 ∧ n = hiddenBit)
    (hpos : 0 < n) (hn : n < 2 * hiddenBit) (hstep : step * 10 ^ 16 ≤ 4 * n * q) (hbelow : c * step ≤ 4 * n * q)
    (habove : 4 * n * q < step * (c + 1)) :
    ((4 * n - gap) * q < c * step ∧ c * step < (4 * n + 2) * q) ∨
      ((4 * n - gap) * q < (c + 1) * step ∧ (c + 1) * step < (4 * n + 2) * q) := by
  have hnq : n * q ≤ 2 * hiddenBit * q := Nat.mul_le_mul_right q hn.le
  have hge : q ≤ n * q := Nat.le_mul_of_pos_left q hpos
  unfold hiddenBit at hgap hnq
  rw [Nat.mul_assoc 4] at hstep hbelow habove
  rw [Nat.sub_mul, Nat.add_mul, Nat.mul_assoc 4]
  rw [Nat.mul_comm step] at habove
  rw [Nat.add_mul, Nat.one_mul] at habove ⊢
  rcases hgap with rfl | ⟨rfl, rfl⟩ <;> omega

theorem isSome_onGrid?_seventeen (hx : x.magnitude ≠ 0) (tie : Tie) :
    (x.onGrid? tie x.pointOf 17).isSome = true := by
  have hstep := step_mul_le hx
  obtain ⟨hnum, hden, -⟩ := gridOf_eq (x.pointOf - 17)
  have hbelow := Nat.div_mul_le_self (x.quarters (x.pointOf - 17) (4 * significandOf x.magnitude))
    (x.step (x.pointOf - 17))
  have habove := Nat.lt_mul_div_succ (x.quarters (x.pointOf - 17) (4 * significandOf x.magnitude))
    (Nat.mul_pos hnum x.quarterUnit_eq.1 : 0 < x.step (x.pointOf - 17))
  have hquarters (n : Nat) : x.quarters (x.pointOf - 17) n =
      n * (x.quarterUnit.1 * (gridOf (x.pointOf - 17)).den) := Nat.mul_assoc ..
  rw [hquarters] at hstep hbelow habove
  have hnear := exists_neighbour (Nat.mul_pos x.quarterUnit_pos hden) (gapBelow_cases x.magnitude)
    (significandOf_pos hx) (significandOf_lt _) hstep hbelow habove
  simp only [← hquarters] at hnear
  exact isSome_onGrid? (hnear.imp (fun h => inside_of_lt h.1 h.2) fun h => inside_of_lt h.1 h.2)

/-- Whatever digits are taken, they stand for a number that reads back. -/
theorem within_shortest (hx : x.magnitude ≠ 0) (tie : Tie) : Within x.magnitude (scaled (x.shortest tie)) := by
  have hsome := isSome_onGrid?_seventeen hx tie
  unfold shortest
  dsimp only
  split
  · rename_i r hr
    obtain ⟨i, -, hi⟩ := List.exists_of_findSome?_eq_some hr
    obtain ⟨k, unit, hinside, rfl⟩ := exists_inside_of_onGrid? hi
    rw [scaled_dropZeros]
    exact within_of_inside hinside
  · rename_i hnone
    have hlast := List.findSome?_eq_none_iff.1 hnone 16 (by decide)
    rw [← Option.not_isSome_iff_eq_none] at hlast
    exact absurd hsome hlast

end

end Binary64

end SchemaLang
