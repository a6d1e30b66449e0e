import SchemaLang.Proofs.Floats.Intervals

/-!
# The range of floats

* `overflow`: the number in the middle between the greatest float and the next power of two. The float
  below it has an odd significand, so the number itself is already beyond all floats.

Main statement: a decimal has no float exactly if its magnitude is not below `overflow`
(`ofDecimal?_eq_none_iff`).
-/

set_option autoImplicit false

namespace SchemaLang

/-! ## Quotients -/

theorem divRoundEven_le {a b m : Nat} (hb : 0 < b) (h : a ≤ m * b) : divRoundEven a b ≤ m := by
  have hdiv : a / b ≤ m := Nat.div_le_of_le_mul (by rwa [Nat.mul_comm])
  have hmod := Nat.div_add_mod a b
  unfold divRoundEven
  dsimp only
  split
  · rename_i hround
    rcases Nat.lt_or_eq_of_le hdiv with hlt | heq
    · exact hlt
    · -- the quotient is exact, so nothing is rounded up
      rw [heq, Nat.mul_comm] at hmod
      omega
  · exact hdiv

theorem le_divRoundEven {a b m : Nat} (hb : 0 < b) (h : m * b ≤ a) : m ≤ divRoundEven a b := by
  have hdiv : m ≤ a / b := (Nat.le_div_iff_mul_le hb).2 h
  unfold divRoundEven
  dsimp only
  split <;> omega

/-- In the middle below an even number a quotient is rounded up to it. -/
theorem divRoundEven_lt_iff {a b : Nat} (hb : 0 < b) (m : Nat) :
    divRoundEven a b < 2 * m + 2 ↔ 2 * a < (4 * m + 3) * b := by
  have hmod := Nat.div_add_mod a b
  have hlt := Nat.mod_lt a hb
  have hexpand : (4 * m + 3) * b = 2 * (b * (2 * m + 1)) + b := by ring
  unfold divRoundEven
  dsimp only
  rw [hexpand]
  rcases Nat.lt_trichotomy (a / b) (2 * m + 1) with h | h | h
  · have hle : b * (a / b + 1) ≤ b * (2 * m + 1) := Nat.mul_le_mul_left b h
    rw [Nat.mul_add, Nat.mul_one] at hle
    split <;> omega
  · rw [h] at hmod ⊢
    split <;> omega
  · have hle : b * (2 * m + 1 + 1) ≤ b * (a / b) := Nat.mul_le_mul_left b h
    rw [Nat.mul_add, Nat.mul_one] at hle
    split <;> omega

/-! ## Powers of two -/

theorem scaledBy_eq (n : Nat) {d : Nat} (hd : 0 < d) (k : Int) :
    0 < (scaledBy n d k).2 ∧ ((scaledBy n d k).1 : ℚ) / (scaledBy n d k).2 = n / d * 2 ^ k := by
  unfold scaledBy
  split
  · rename_i hk
    obtain ⟨m, rfl⟩ := Int.eq_ofNat_of_zero_le hk
    refine ⟨hd, ?_⟩
    simp only [Int.toNat_natCast, Nat.shiftLeft_eq, zpow_natCast]
    push_cast
    ring
  · rename_i hk
    obtain ⟨m, rfl⟩ := Int.exists_eq_neg_ofNat (Int.le_of_not_le hk)
    refine ⟨by simp [Nat.shiftLeft_eq, hd], ?_⟩
    simp only [neg_neg, Int.toNat_natCast, Nat.shiftLeft_eq, zpow_neg, zpow_natCast]
    push_cast
    rw [div_mul_eq_div_div, div_eq_mul_inv (_ / _)]

/-- What is rounded at a scale stands to whole numbers as the quotient stands to their multiples. -/
theorem divRoundEven_scaledBy (n : Nat) {d : Nat} (hd : 0 < d) (k : Int) :
    let rounded := divRoundEven (scaledBy n d (-k)).1 (scaledBy n d (-k)).2
    (∀ m : Nat, (n / d : ℚ) ≤ m * 2 ^ k → rounded ≤ m) ∧
      (∀ m : Nat, (m * 2 ^ k : ℚ) ≤ n / d → m ≤ rounded) ∧
        ∀ m : Nat, rounded < 2 * m + 2 ↔ (n / d : ℚ) < (4 * m + 3) / 2 * 2 ^ k := by
  obtain ⟨hb, hratio⟩ := scaledBy_eq n hd (-k)
  have htwo : (0 : ℚ) < 2 ^ k := by positivity
  generalize scaledBy n d (-k) = r at hb hratio
  obtain ⟨a, b⟩ := r
  have hb' : (0 : ℚ) < b := Nat.cast_pos.2 hb
  rw [zpow_neg, ← div_eq_mul_inv] at hratio
  refine ⟨?_, ?_, ?_⟩
  · intro m h
    apply divRoundEven_le hb
    rw [← div_le_iff₀ htwo, ← hratio, div_le_iff₀ hb'] at h
    exact_mod_cast h
  · intro m h
    apply le_divRoundEven hb
    rw [← le_div_iff₀ htwo, ← hratio, le_div_iff₀ hb'] at h
    exact_mod_cast h
  · intro m
    rw [divRoundEven_lt_iff hb, ← div_lt_iff₀ htwo, ← hratio, div_lt_iff₀ hb', ← Nat.cast_lt (α := ℚ)]
    push_cast
    constructor
    · intro h
      linarith
    · intro h
      linarith

theorem floorLog2Ratio_spec {n d : Nat} (hn : 0 < n) (hd : 0 < d) :
    (2 : ℚ) ^ floorLog2Ratio n d ≤ n / d ∧ (n / d : ℚ) < 2 ^ (floorLog2Ratio n d + 1) := by
  have hd' : (0 : ℚ) < d := Nat.cast_pos.2 hd
  have hlow : (2 : ℚ) ^ ((n.log2 : Int) - d.log2 - 1) ≤ n / d := by
    have hnum : (2 : ℚ) ^ n.log2 ≤ n := by exact_mod_cast Nat.log2_self_le hn.ne'
    have hden : (d : ℚ) ≤ 2 ^ (d.log2 + 1) := by exact_mod_cast (Nat.lt_log2_self (n := d)).le
    rw [sub_sub, zpow_sub₀ two_ne_zero, zpow_natCast]
    exact div_le_div₀ (Nat.cast_nonneg n) hnum hd' (by exact_mod_cast hden)
  have hhigh : (n / d : ℚ) < 2 ^ ((n.log2 : Int) - d.log2 + 1) := by
    have hnum : (n : ℚ) < 2 ^ (n.log2 + 1) := by exact_mod_cast Nat.lt_log2_self (n := n)
    have hden : (2 : ℚ) ^ d.log2 ≤ d := by exact_mod_cast Nat.log2_self_le hd.ne'
    rw [sub_add_eq_add_sub, zpow_sub₀ two_ne_zero, zpow_natCast]
    exact div_lt_div₀ (by exact_mod_cast hnum) hden (by positivity) (by positivity)
  obtain ⟨hpos, hratio⟩ := scaledBy_eq n hd (-((n.log2 : Int) - d.log2))
  have hpos' : (0 : ℚ) < (scaledBy n d (-((n.log2 : Int) - d.log2))).2 := Nat.cast_pos.2 hpos
  have htwo : (0 : ℚ) < 2 ^ ((n.log2 : Int) - d.log2) := by positivity
  rw [zpow_neg, ← div_eq_mul_inv] at hratio
  unfold floorLog2Ratio
  dsimp only
  split
  · rename_i hle
    refine ⟨?_, hhigh⟩
    rw [← one_le_div₀ htwo, ← hratio, one_le_div₀ hpos']
    exact_mod_cast hle
  · rename_i hlt
    refine ⟨hlow, ?_⟩
    rw [sub_add_cancel, ← div_lt_one₀ htwo, ← hratio, div_lt_one₀ hpos']
    exact_mod_cast Nat.not_le.1 hlt

namespace Binary64

/-! ## The threshold -/

def overflow : ℚ := 2 ^ 1024 - 2 ^ 970

theorem overflow_eq : overflow = (4 * (2 ^ 52 - 1 : Nat) + 3) / 2 * 2 ^ (971 : Int) := by
  have htop : (2 : ℚ) ^ 1024 = 2 ^ 54 * 2 ^ 970 := pow_add 2 54 970
  have hscale : (2 : ℚ) ^ (971 : Int) = 2 * 2 ^ 970 := (zpow_natCast 2 971).trans (pow_succ' 2 970)
  unfold overflow
  rw [htop, hscale]
  generalize (2 : ℚ) ^ 970 = x
  norm_num
  ring

theorem pow_lt_overflow {k : Int} (h : k ≤ 1023) : (2 : ℚ) ^ k < overflow := by
  have hhalf : (2 : ℚ) ^ (1023 : Int) = 2 ^ 52 * 2 ^ (971 : Int) := by
    rw [show (1023 : Int) = 52 + 971 from rfl, zpow_add₀ two_ne_zero]
    rfl
  apply lt_of_le_of_lt (zpow_le_zpow_right₀ one_le_two h)
  rw [hhalf, overflow_eq]
  exact mul_lt_mul_of_pos_right (by norm_num) (by positivity)

theorem overflow_le_pow {k : Int} (h : 1024 ≤ k) : overflow ≤ (2 : ℚ) ^ k := by
  apply le_trans _ (zpow_le_zpow_right₀ one_le_two h)
  exact sub_le_self _ (by positivity)

/-- Below the last power of two all is rounded to floats, and from the next one on nothing is. Between them
the last place decides. -/
theorem nearestMagnitude_lt_iff {n d : Nat} (hn : 0 < n) (hd : 0 < d) :
    nearestMagnitude n d < infiniteMagnitude ↔ (n / d : ℚ) < overflow := by
  obtain ⟨hlow, hhigh⟩ := floorLog2Ratio_spec hn hd
  unfold nearestMagnitude infiniteMagnitude
  dsimp only
  generalize floorLog2Ratio n d = k at hlow hhigh
  generalize hscale : max (-1074) (k - 52) = scale
  obtain ⟨hle, hge, hlast⟩ := divRoundEven_scaledBy n hd scale
  generalize divRoundEven (scaledBy n d (-scale)).1 (scaledBy n d (-scale)).2 = rounded at hle hge hlast
  have hpow (j : Nat) : (2 : ℚ) ^ (scale + j) = (2 ^ j : Nat) * 2 ^ scale := by
    rw [zpow_add₀ two_ne_zero, zpow_natCast, mul_comm]
    push_cast
    rfl
  unfold hiddenBit
  rcases lt_trichotomy k 1023 with hk | rfl | hk
  · have hround : rounded ≤ 2 ^ 53 := by
      apply hle
      apply hhigh.le.trans
      rw [← hpow]
      exact zpow_le_zpow_right₀ one_le_two (by omega)
    have hsmall : (n / d : ℚ) < overflow := hhigh.trans (pow_lt_overflow (by omega))
    apply iff_of_true _ hsmall
    omega
  · obtain rfl : scale = 971 := by omega
    rw [overflow_eq, ← hlast]
    omega
  · have hround : 2 ^ 52 ≤ rounded := by
      apply hge
      apply le_trans _ hlow
      rw [← hpow]
      exact zpow_le_zpow_right₀ one_le_two (by omega)
    have hlarge : overflow ≤ n / d := (overflow_le_pow (by omega)).trans hlow
    apply iff_of_false _ hlarge.not_gt
    omega

/-- Its digits tell which power of ten a number lies below. -/
theorem scaled_lt_pow (c : Nat) (e : Int) : scaled (c, e) < 10 ^ ((digitCount c : Int) + e) := by
  have hten : (0 : ℚ) < 10 ^ e := by positivity
  have hcast : (c : ℚ) < (10 ^ digitCount c : Nat) := Nat.cast_lt.2 (lt_pow_digitCount c)
  rw [zpow_add₀ (by norm_num), zpow_natCast]
  calc scaled (c, e) < (10 ^ digitCount c : Nat) * 10 ^ e := mul_lt_mul_of_pos_right hcast hten
    _ = 10 ^ digitCount c * 10 ^ e := by push_cast; rfl

/-- They tell which power of ten it does not lie below, too. -/
theorem pow_le_scaled {c : Nat} (hc : 0 < c) (e : Int) :
    10 ^ ((digitCount c - 1 : Nat) + e) ≤ scaled (c, e) := by
  have hten : (0 : ℚ) < 10 ^ e := by positivity
  have hcast : ((10 ^ (digitCount c - 1) : Nat) : ℚ) ≤ c := Nat.cast_le.2 (pow_digitCount_le hc)
  rw [zpow_add₀ (by norm_num), zpow_natCast]
  calc (10 : ℚ) ^ (digitCount c - 1) * 10 ^ e = (10 ^ (digitCount c - 1) : Nat) * 10 ^ e := by
        push_cast; rfl
    _ ≤ scaled (c, e) := mul_le_mul_of_nonneg_right hcast hten.le

theorem overflow_le_pow_ten : overflow ≤ 10 ^ (310 : Int) :=
  calc overflow ≤ 2 ^ 1024 := sub_le_self _ (by positivity)
    _ = (2 ^ 93) ^ 11 * 2 := by rw [← pow_mul, ← pow_succ]
    _ ≤ (10 ^ 28) ^ 11 * 10 ^ 2 := by gcongr <;> norm_num
    _ = 10 ^ (310 : Int) := by rw [← pow_mul, ← pow_add]; rfl

/-- The power of ten is not computed where the digits tell that the number is out of range, or that it is
zero. -/
theorem decimalMagnitude?_eq_none_iff (c : Nat) (e : Int) :
    decimalMagnitude? c e = none ↔ overflow ≤ scaled (c, e) := by
  have hone : (1 : ℚ) < overflow := pow_lt_overflow (k := 0) (by decide)
  unfold decimalMagnitude?
  dsimp only
  split
  · rename_i hzero
    refine iff_of_false nofun (not_le.2 (lt_of_le_of_lt ?_ hone))
    rcases hzero with rfl | htop
    · simp [scaled]
    · calc scaled (c, e) ≤ 10 ^ ((digitCount c : Int) + e) := (scaled_lt_pow c e).le
        _ ≤ 10 ^ (0 : Int) := zpow_le_zpow_right₀ (by norm_num) (by omega)
        _ = 1 := zpow_zero _
  rename_i hzero
  have hc : 0 < c := Nat.pos_of_ne_zero fun h => hzero (.inl h)
  split
  · rename_i htop
    refine iff_of_true rfl ?_
    have hcount := digitCount_pos c
    calc overflow ≤ 10 ^ (310 : Int) := overflow_le_pow_ten
      _ ≤ 10 ^ (((digitCount c - 1 : Nat) : Int) + e) :=
        zpow_le_zpow_right₀ (by norm_num) (by omega)
      _ ≤ scaled (c, e) := pow_le_scaled hc e
  · have hmagnitude (m : Nat) : (if m < infiniteMagnitude then some m else none) = none ↔
        ¬ m < infiniteMagnitude := by
      split <;> simp_all
    rw [hmagnitude]
    apply Iff.trans (not_congr _) not_lt
    split
    · rename_i he
      obtain ⟨k, rfl⟩ := Int.eq_ofNat_of_zero_le he
      have hlarge : 0 < c * 10 ^ k := Nat.mul_pos hc (Nat.pow_pos (by decide))
      rw [Int.toNat_natCast, Nat.pow_eq, nearestMagnitude_lt_iff hlarge Nat.one_pos]
      simp [scaled]
    · rename_i he
      obtain ⟨k, rfl⟩ := Int.exists_eq_neg_ofNat (Int.le_of_not_le he)
      have hpos : 0 < 10 ^ k := Nat.pow_pos (by decide)
      rw [Int.neg_neg, Int.toNat_natCast, Nat.pow_eq, nearestMagnitude_lt_iff hc hpos]
      simp [scaled, div_eq_mul_inv]

/-- A decimal has a float exactly if it is in range. -/
theorem ofDecimal?_eq_none_iff (x : Decimal) :
    ofDecimal? x = none ↔ overflow ≤ scaled (x.coefficient, x.exponent) := by
  rw [ofDecimal?, Option.map_eq_none_iff, decimalMagnitude?_eq_none_iff]

end Binary64

end SchemaLang
