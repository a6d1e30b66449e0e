import SchemaLang.Proofs.Floats.Intervals
import SchemaLang.Proofs.Written.Numbers

/-!
# Texts of floats

* `exponent? cs`: the power of ten that stands behind the digits of a number.
* `SpellsNumber mark cs w`: the text is digits, a fraction and an exponent, and stands for the number `w`.

Main statements: a decimal is read from its parts (`Decimal.read?_parts`), the text of a float without a
sign stands for a number that reads back as the float (`FloatLayout.spellsNumber_write`), so no two such floats
share a text (`FloatLayout.eq_of_write`).
-/

set_option autoImplicit false

namespace SchemaLang

open Binary64 (scaled Within)

/-! ## Digits -/

theorem natValue_eq (cs : List Char) : natValue cs = Nat.ofDigitChars 10 cs 0 := rfl

theorem natValue_toDigits (n : Nat) : natValue (Nat.toDigits 10 n) = n := Nat.ofDigitChars_ten_toDigits

theorem natValue_append (cs ds : List Char) :
    natValue (cs ++ ds) = 10 ^ ds.length * natValue cs + natValue ds := by
  rw [natValue_eq, Nat.ofDigitChars_append, Nat.ofDigitChars_eq_ofDigitChars_zero]
  rfl

theorem natValue_replicate_zero (n : Nat) : natValue (List.replicate n '0') = 0 := by
  rw [natValue_eq, Nat.ofDigitChars_replicate_zero, Nat.mul_zero]

/-! ## Reading the parts -/

theorem isSign_cases {sign : List Char} (h : ∀ c ∈ sign, isSign c = true) (hlen : sign.length ≤ 1) :
    sign = [] ∨ sign = ['-'] ∨ sign = ['+'] := by
  match sign, hlen with
  | [], _ => exact .inl rfl
  | [c], _ =>
    have hc : c = '+' ∨ c = '-' := by simpa [isSign] using h c (by simp)
    rcases hc with rfl | rfl <;> simp

theorem readExponent?_digits {sign ds : List Char} (hsign : sign = [] ∨ sign = ['-'] ∨ sign = ['+'])
    (hds : IsDigits ds) : Decimal.readExponent? (sign ++ ds) =
      some (if sign = ['-'] then -(natValue ds : Int) else natValue ds) := by
  obtain ⟨d, es, rfl⟩ := List.exists_cons_of_ne_nil hds.1
  have hd := hds.2 d (by simp)
  have hminus : d ≠ '-' := ne_of_isDigit hd rfl
  have hplus : d ≠ '+' := ne_of_isDigit hd rfl
  rcases hsign with rfl | rfl | rfl
  · simpa [Decimal.readExponent?, hminus, hplus] using hds.2
  · simpa [Decimal.readExponent?] using hds.2
  · simpa [Decimal.readExponent?] using hds.2

/-- The power of ten that stands behind the digits; no exponent stands for zero. -/
def exponent? : List Char → Option Int
  | [] => some 0
  | c :: r => if c = 'e' ∨ c = 'E' then Decimal.readExponent? r else none

theorem exponent?_mark {sign ds : List Char} {e : Char} (he : e = 'e' ∨ e = 'E')
    (hsign : sign = [] ∨ sign = ['-'] ∨ sign = ['+']) (hds : IsDigits ds) :
    exponent? (e :: (sign ++ ds)) =
      some (if sign = ['-'] then -(natValue ds : Int) else natValue ds) := by
  rw [exponent?, if_pos he, readExponent?_digits hsign hds]

section

variable {whole fraction exponent : List Char}

theorem Decimal.read?_parts (negative : Bool) (hw : IsDigits whole) (hf : Fraction fraction)
    (he : Exponent exponent) : Decimal.read? negative (whole ++ (fraction ++ exponent)) =
      (exponent? exponent).map fun e =>
        ⟨negative, natValue (whole ++ fraction.drop 1), e - (fraction.drop 1).length⟩ := by
  have hend : BehindNumber [] := ⟨nofun, rfl⟩
  have hhead : ∀ d ∈ exponent.head?, d.isDigit = false := by simpa using (he.before hend).1
  have hwhole : ¬ whole.isEmpty = true := by simpa using hw.1
  obtain ⟨htake, hdrop⟩ := takeWhile_dropWhile_append hw.2 (hf.head hhead)
  unfold Decimal.read?
  dsimp only
  rw [htake, hdrop, if_neg hwhole]
  cases hf with
  | none =>
    rw [List.nil_append]
    split
    · cases he with
      | mark hmark => rcases hmark with h | h <;> cases h
    · rfl
  | @point ds hds =>
    obtain ⟨htake', hdrop'⟩ := takeWhile_dropWhile_append hds.2 hhead
    have hfraction : ¬ ds.isEmpty = true := by simpa using hds.1
    simp only [List.cons_append, htake', hdrop', if_neg hfraction]
    rfl

end

/-! ## What a text stands for -/

/-- The text is digits, a fraction and an exponent, not digits alone if `mark` is set, and stands for the
number. -/
inductive SpellsNumber (mark : Bool) : List Char → ℚ → Prop where
  | parts {whole fraction exponent : List Char} {e : Int} : IsDigits whole → Fraction fraction →
      Exponent exponent → exponent? exponent = some e → (mark = true → fraction ++ exponent ≠ []) →
        SpellsNumber mark (whole ++ (fraction ++ exponent))
          (scaled (natValue (whole ++ fraction.drop 1), e - (fraction.drop 1).length))

theorem SpellsNumber.eq {mark : Bool} {cs : List Char} {v w : ℚ} (hv : SpellsNumber mark cs v)
    (hw : SpellsNumber mark cs w) : v = w := by
  have hread {cs : List Char} {w : ℚ} (h : SpellsNumber mark cs w) :
      (Decimal.read? false cs).map (fun d => scaled (d.coefficient, d.exponent)) = some w := by
    cases h with
    | parts hwhole hf he hvalue =>
      rw [Decimal.read?_parts false hwhole hf he, hvalue]
      rfl
  exact Option.some.inj ((hread hv).symm.trans (hread hw))

theorem scaled_mul_pow (n j : Nat) (e : Int) : scaled (10 ^ j * n, e) = scaled (n, e + j) := by
  simp only [scaled]
  rw [zpow_add₀ (by norm_num), zpow_natCast]
  push_cast
  ring

namespace FloatLayout

variable {ds : List Char}

theorem spellsNumber_placed (hds : IsDigits ds) (k : Int) (mark : Bool) :
    SpellsNumber mark (placed ds k mark) (scaled (natValue ds, k - ds.length)) := by
  unfold placed
  split
  · rename_i hk
    have h := @SpellsNumber.parts mark ['0'] ('.' :: (List.replicate (-k).toNat '0' ++ ds)) [] 0
      ⟨by simp, by simp⟩ (.point (isDigits_append_replicate hds _).2) .none rfl (by simp)
    have hvalue : natValue (['0'] ++ (List.replicate (-k).toNat '0' ++ ds)) = natValue ds := by
      rw [natValue_append, natValue_append _ ds, natValue_replicate_zero]
      simp [natValue, digitValue]
    have hexp : (0 : Int) - (List.replicate (-k).toNat '0' ++ ds).length = k - ds.length := by
      simp
      omega
    rw [List.drop_one, List.tail_cons, hvalue, hexp] at h
    simpa using h
  split
  · rename_i hk hlen
    have hvalue : natValue (ds ++ List.replicate (k.toNat - ds.length) '0') =
        10 ^ (k.toNat - ds.length) * natValue ds := by
      rw [natValue_append, natValue_replicate_zero, List.length_replicate, Nat.add_zero]
    have hexp : ((k.toNat - ds.length : Nat) : Int) = k - ds.length := by omega
    cases mark with
    | true =>
      have h := @SpellsNumber.parts true (ds ++ List.replicate (k.toNat - ds.length) '0') ['.', '0'] [] 0
        (isDigits_append_replicate hds _).1 (.point ⟨by simp, by simp⟩) .none rfl (by simp)
      -- the digit behind the point is a factor of ten
      have hmark : natValue ((ds ++ List.replicate (k.toNat - ds.length) '0') ++ ['0']) =
          10 ^ (k.toNat - ds.length + 1) * natValue ds := by
        rw [natValue_append, hvalue, Nat.pow_succ]
        simp [natValue, digitValue]
        ring
      rw [List.drop_one, List.tail_cons, hmark, scaled_mul_pow] at h
      simpa [hexp] using h
    | false =>
      have h := @SpellsNumber.parts false (ds ++ List.replicate (k.toNat - ds.length) '0') [] [] 0
        (isDigits_append_replicate hds _).1 .none .none rfl (by simp)
      simp only [List.drop_nil, List.append_nil] at h
      rw [hvalue, scaled_mul_pow] at h
      simpa [hexp] using h
  · rename_i hk hlen
    have h := @SpellsNumber.parts mark (ds.take k.toNat) ('.' :: ds.drop k.toNat) [] 0
      ⟨by simp [hds.1]; omega, fun c hc => hds.2 c (List.mem_of_mem_take hc)⟩
      (.point ⟨by simp; omega, fun c hc => hds.2 c (List.mem_of_mem_drop hc)⟩) .none rfl (by simp)
    have hexp : (0 : Int) - (ds.drop k.toNat).length = k - ds.length := by
      simp
      omega
    rw [List.drop_one, List.tail_cons, List.take_append_drop, hexp] at h
    simpa using h

theorem spellsNumber_scientific (hds : IsDigits ds) (k : Int) (mark plus : Bool) :
    SpellsNumber mark (scientific ds k plus) (scaled (natValue ds, k - ds.length)) := by
  have hsign : ∃ sign, (sign = [] ∨ sign = ['-'] ∨ sign = ['+']) ∧ (sign = ['-'] ↔ k - 1 < 0) ∧
      sign = if k - 1 < 0 then ['-'] else if plus then ['+'] else [] := by
    refine ⟨_, ?_, ?_, rfl⟩ <;> split_ifs <;> simp_all
  obtain ⟨sign, hcases, hminus, hsign⟩ := hsign
  have hexponent : Exponent ('e' :: (sign ++ Nat.toDigits 10 (k - 1).natAbs)) := by
    refine .mark (.inl rfl) ?_ ?_ (isDigits_toDigits _)
    · rcases hcases with rfl | rfl | rfl <;> simp [isSign]
    · rcases hcases with rfl | rfl | rfl <;> simp
  have he : exponent? ('e' :: (sign ++ Nat.toDigits 10 (k - 1).natAbs)) = some (k - 1) := by
    rw [exponent?_mark (.inl rfl) hcases (isDigits_toDigits _), natValue_toDigits]
    split
    · rename_i h
      have := hminus.1 h
      congr 1
      omega
    · rename_i h
      have := mt hminus.2 h
      congr 1
      omega
  obtain ⟨d, es, rfl⟩ := List.exists_cons_of_ne_nil hds.1
  have hwhole : IsDigits [d] := ⟨by simp, by simpa using hds.2 d (by simp)⟩
  unfold scientific
  dsimp only
  rw [← hsign]
  cases es with
  | nil =>
    have h : SpellsNumber mark _ _ := .parts hwhole .none hexponent he (by simp)
    simpa using h
  | cons c cs =>
    have hfraction : IsDigits (c :: cs) := ⟨by simp, fun a ha => hds.2 a (.tail d ha)⟩
    have h := @SpellsNumber.parts mark _ _ _ _ hwhole (.point hfraction) hexponent he (by simp)
    have hexp : k - 1 - (c :: cs).length = k - (d :: c :: cs).length := by
      simp
      omega
    rw [List.drop_one, List.tail_cons, hexp] at h
    simpa using h

/-- Whichever of the two ways is taken, the text stands for the number. -/
theorem spellsNumber_ite (hds : IsDigits ds) (k : Int) (mark plus positional : Bool) :
    SpellsNumber mark (if positional then placed ds k mark else scientific ds k plus)
      (scaled (natValue ds, k - ds.length)) := by
  cases positional with
  | true => exact spellsNumber_placed hds k mark
  | false => exact spellsNumber_scientific hds k mark plus

theorem spellsNumber_write (layout : FloatLayout) {x : Binary64} (hx : x.isNegative = false) :
    ∃ w, SpellsNumber layout.wholeMark (layout.write x) w ∧ Within x.magnitude w := by
  unfold write
  simp only [hx, Bool.false_eq_true, if_false, List.nil_append]
  split
  · rename_i hzero
    have hmagnitude : x.magnitude = 0 := eq_of_beq hzero
    refine ⟨0, ?_, hmagnitude ▸ Binary64.within_zero⟩
    have hzero : IsDigits ['0'] := ⟨by simp, by simp⟩
    cases layout.wholeMark with
    | true =>
      have h : SpellsNumber true _ _ := .parts hzero (.point hzero) .none rfl (by simp)
      simpa [natValue, digitValue, scaled] using h
    | false =>
      have h : SpellsNumber false _ _ := .parts hzero .none .none rfl (by simp)
      simpa [natValue, digitValue, scaled] using h
  · rename_i hzero
    have hwithin := Binary64.within_shortest (x := x) (by simpa [Binary64.isZero] using hzero) layout.tie
    refine ⟨_, ?_, hwithin⟩
    generalize x.shortest layout.tie = r
    obtain ⟨c, e⟩ := r
    have hvalue : scaled (c, e) = scaled (natValue (Nat.toDigits 10 c),
        e + (Nat.toDigits 10 c).length - (Nat.toDigits 10 c).length) := by
      rw [natValue_toDigits, Int.add_sub_cancel]
    rw [hvalue]
    exact spellsNumber_ite (isDigits_toDigits c) _ _ _ _

theorem eq_of_write (layout : FloatLayout) {x y : Binary64} (hx : x.isNegative = false)
    (hy : y.isNegative = false) (h : layout.write x = layout.write y) : x = y := by
  obtain ⟨v, hv, hvx⟩ := layout.spellsNumber_write hx
  obtain ⟨w, hw, hwy⟩ := layout.spellsNumber_write hy
  obtain rfl : v = w := hv.eq (h ▸ hw)
  have hbits {x : Binary64} (hx : x.isNegative = false) : x.magnitude = x.bits.toNat :=
    Nat.mod_eq_of_lt (by simpa [Binary64.isNegative] using hx)
  have hmagnitude := hvx.eq hwy
  rw [hbits hx, hbits hy] at hmagnitude
  exact congrArg Binary64.mk (UInt64.toNat_inj.1 hmagnitude)

end FloatLayout

end SchemaLang
