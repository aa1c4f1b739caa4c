import PolarPlot.Proofs.FloatOrder

/-!
# Quotients of binary64 numbers

A quotient of finite numbers is the number nearest to the exact quotient, as `Number.nearestBits`
has it (`rank_div_finite`). Rounding to the nearest keeps ratios in order (`nearestBits_mono`), and
so division by a positive number keeps numbers in order (`div_le_div_of_finite`).
-/

namespace PolarPlot

open Float.Model hiding pack unpack
open Float.Model.UnpackedFloat Float.Model.Format Number

/-! ## Ratios -/

namespace Number

variable {num den num' den' : Nat}

theorem le_roundDiv (num den : Nat) : num / den ≤ roundDiv num den := by
  unfold roundDiv
  dsimp only
  split
  · exact Nat.le_refl _
  · split <;> exact Nat.le_add_right _ _

theorem roundDiv_le (num den : Nat) : roundDiv num den ≤ num / den + 1 := by
  unfold roundDiv
  dsimp only
  split
  · exact Nat.le_add_right _ _
  · split <;> omega

theorem roundDiv_mono_left (h : num ≤ num') (den : Nat) : roundDiv num den ≤ roundDiv num' den := by
  obtain hlt | heq := lt_or_eq_of_le (Nat.div_le_div_right h : num / den ≤ num' / den)
  · exact (roundDiv_le num den).trans (hlt.trans_le (le_roundDiv num' den))
  · -- The same natural number is below both ratios, so the remainders are in order.
    have hmod : num % den ≤ num' % den := by
      have hnum := Nat.div_add_mod num den
      have hnum' := Nat.div_add_mod num' den
      rw [heq] at hnum
      omega
    unfold roundDiv
    dsimp only
    rw [heq]
    split_ifs <;> omega

/-- Rounding keeps ratios in order. -/
theorem roundDiv_mono (hd : 0 < den) (hd' : 0 < den') (h : (num / den : ℚ) ≤ num' / den') :
    roundDiv num den ≤ roundDiv num' den' := by
  rw [div_le_div_iff₀ (by positivity) (by positivity)] at h
  have hcross : den' * num ≤ den * num' := by
    rw [mul_comm den', mul_comm den]
    exact_mod_cast h
  rw [← roundDiv_mul_left hd' num den, ← roundDiv_mul_left hd num' den', mul_comm den' den]
  exact roundDiv_mono_left hcross _

theorem roundDiv_eq_of_ratio (hd : 0 < den) (hd' : 0 < den') (h : (num / den : ℚ) = num' / den') :
    roundDiv num den = roundDiv num' den' :=
  le_antisymm (roundDiv_mono hd hd' h.le) (roundDiv_mono hd' hd h.ge)

theorem roundDiv_le_of_ratio (hd : 0 < den) {k : Nat} (h : (num / den : ℚ) ≤ k) :
    roundDiv num den ≤ k := by
  have hk : roundDiv k 1 = k := by simp [roundDiv, Nat.mod_one]
  rw [← hk]
  exact roundDiv_mono hd Nat.one_pos (by simpa using h)

theorem le_roundDiv_of_ratio (hd : 0 < den) {k : Nat} (h : (k : ℚ) ≤ num / den) :
    k ≤ roundDiv num den := by
  have hk : roundDiv k 1 = k := by simp [roundDiv, Nat.mod_one]
  rw [← hk]
  exact roundDiv_mono Nat.one_pos hd (by simpa using h)

/-! ## The nearest number -/

/-- The exponent that a ratio is rounded to. -/
def ratioExponent (num den : Nat) : Int := max (binaryOrder num den - 52) (-1074)

/-- The mantissa that a ratio is rounded to. It may be one bit too long. -/
def ratioMantissa (num den : Nat) : Nat :=
  roundDiv (num * 2 ^ (-ratioExponent num den).toNat) (den * 2 ^ (ratioExponent num den).toNat)

theorem le_ratioExponent (num den : Nat) : -1074 ≤ ratioExponent num den := le_max_right _ _

theorem nearestBits_eq_min (hn : 0 < num) (den : Nat) :
    (nearestBits num den : Int) = min (ulps (ratioMantissa num den) (ratioExponent num den))
      (2047 * 2 ^ 52) := by
  have hleast := le_ratioExponent num den
  have hbits : nearestBits num den =
      min ((ratioExponent num den + 1074).toNat * 2 ^ 52 + ratioMantissa num den) (2047 * 2 ^ 52) :=
      if_neg hn.ne'
  rw [hbits, ulps]
  push_cast
  rw [Int.toNat_of_nonneg (by omega)]

/-- A ratio, written with the power of two taken away. -/
theorem scaled_ratio (num den : Nat) (e : Int) :
    ((num * 2 ^ (-e).toNat : Nat) / (den * 2 ^ e.toNat : Nat) : ℚ) = num / den / 2 ^ e := by
  rw [← pow_toNat_div_pow_toNat 2 e]
  push_cast
  rw [div_div_div_eq]

section Positive

variable (hn : 0 < num) (hd : 0 < den)
include hn hd

theorem ratioExponent_eq :
    ratioExponent num den = max (Int.log 2 (num / den : ℚ) - 52) (-1074) := by
  rw [ratioExponent, binaryOrder_eq_log hn hd]

theorem ratioMantissa_le : ratioMantissa num den ≤ 2 ^ 53 := by
  have hexponent := ratioExponent_eq hn hd
  have hupper : (num / den : ℚ) < (2 : ℕ) ^ (Int.log 2 (num / den : ℚ) + 1) :=
    Int.lt_zpow_succ_log_self one_lt_two _
  apply roundDiv_le_of_ratio (by positivity)
  rw [scaled_ratio, div_le_iff₀ (by positivity)]
  calc (num / den : ℚ)
    _ ≤ (2 : ℕ) ^ (Int.log 2 (num / den : ℚ) + 1) := hupper.le
    _ ≤ (2 : ℕ) ^ (53 + ratioExponent num den) := zpow_le_zpow_right₀ (by norm_num) (by omega)
    _ = (2 ^ 53 : ℕ) * 2 ^ ratioExponent num den := by
      rw [Nat.cast_ofNat, zpow_add₀ two_ne_zero]
      norm_num

/-- The mantissa has all of its bits, unless the exponent is the least one. -/
theorem le_ratioMantissa (he : ratioExponent num den ≠ -1074) : 2 ^ 52 ≤ ratioMantissa num den := by
  have hexponent := ratioExponent_eq hn hd
  have hlower : ((2 : ℕ) : ℚ) ^ Int.log 2 (num / den : ℚ) ≤ num / den :=
    Int.zpow_log_le_self one_lt_two (by positivity)
  apply le_roundDiv_of_ratio (by positivity)
  rw [scaled_ratio, le_div_iff₀ (by positivity)]
  calc ((2 ^ 52 : ℕ) : ℚ) * 2 ^ ratioExponent num den
    _ = (2 : ℕ) ^ (52 + ratioExponent num den) := by
      rw [Nat.cast_ofNat, zpow_add₀ two_ne_zero]
      norm_num
    _ ≤ (2 : ℕ) ^ Int.log 2 (num / den : ℚ) := zpow_le_zpow_right₀ (by norm_num) (by omega)
    _ ≤ num / den := hlower

end Positive

/-- Rounding to the nearest number keeps ratios in order. -/
theorem nearestBits_mono (hd : 0 < den) (hd' : 0 < den') (h : (num / den : ℚ) ≤ num' / den') :
    nearestBits num den ≤ nearestBits num' den' := by
  obtain rfl | hn := Nat.eq_zero_or_pos num
  · exact Nat.zero_le _
  have hratio : (0 : ℚ) < num / den := by positivity
  have hn' : 0 < num' := by
    refine Nat.pos_of_ne_zero ?_
    rintro rfl
    rw [Nat.cast_zero, zero_div] at h
    exact hratio.not_ge h
  have hlog : Int.log 2 (num / den : ℚ) ≤ Int.log 2 (num' / den' : ℚ) := Int.log_mono_right hratio h
  have hexponent := ratioExponent_eq hn hd
  have hexponent' := ratioExponent_eq hn' hd'
  suffices hulps : ulps (ratioMantissa num den) (ratioExponent num den) ≤
      ulps (ratioMantissa num' den') (ratioExponent num' den') by
    have hbits := nearestBits_eq_min hn den
    have hbits' := nearestBits_eq_min hn' den'
    omega
  unfold ulps
  obtain heq | hlt := eq_or_lt_of_le (show ratioExponent num den ≤ ratioExponent num' den' by omega)
  · have hmantissa : ratioMantissa num den ≤ ratioMantissa num' den' := by
      unfold ratioMantissa
      rw [heq]
      apply roundDiv_mono (by positivity) (by positivity)
      rw [scaled_ratio, scaled_ratio]
      gcongr
    omega
  · -- One exponent makes up for the longest mantissa, as the larger ratio has all of its bits.
    have hlong := ratioMantissa_le hn hd
    have hfull := le_ratioMantissa hn' hd' (by omega)
    omega

end Number

/-! ## Mantissas -/

/-- The bits of a ratio: a natural number and a half that are not above it, and whether anything is
left. -/
structure Shows (num den : Nat) (em : ExtendedMantissa) : Prop where
  halves : 2 * em.mantissa + em.roundBit.toNat = 2 * num / den
  rest : em.stickyBit = true ↔ 2 * num % den ≠ 0

section Shows

variable {num den : Nat} {em : ExtendedMantissa}

theorem shows_fraction (hd : 0 < den) :
    Shows num den (.ofMantissaAndAccuracy (num / den) (accuracyOfFraction (num % den) den)) := by
  have hdiv : 2 * num / den = 2 * (num / den) + 2 * (num % den) / den := by
    conv_lhs => rw [← Nat.div_add_mod num den, mul_add, mul_left_comm, Nat.mul_add_div hd]
  have hmod : 2 * num % den = 2 * (num % den) % den := (Nat.mul_mod_mod 2 num den).symm
  have hrest : num % den < den := Nat.mod_lt num hd
  unfold accuracyOfFraction
  generalize num % den = r at hdiv hmod hrest
  obtain hlt | heq | hgt := lt_trichotomy (2 * r) den
  · rw [Nat.div_eq_of_lt hlt] at hdiv
    rw [Nat.mod_eq_of_lt hlt] at hmod
    by_cases hr : r = 0
    · rw [if_pos hr]
      exact ⟨hdiv.symm, by simp [ExtendedMantissa.ofMantissaAndAccuracy, hmod, hr]⟩
    · rw [if_neg hr, Nat.compare_eq_lt.mpr hlt]
      exact ⟨hdiv.symm, by simp [ExtendedMantissa.ofMantissaAndAccuracy, hmod, hr]⟩
  · rw [heq, Nat.div_self hd] at hdiv
    rw [heq, Nat.mod_self] at hmod
    rw [if_neg (by omega), Nat.compare_eq_eq.mpr heq]
    exact ⟨hdiv.symm, by simp [ExtendedMantissa.ofMantissaAndAccuracy, hmod]⟩
  · have hone : 2 * r / den = 1 := Nat.div_eq_of_lt_le (by omega) (by omega)
    have hleft : 2 * r % den = 2 * r - den := by
      rw [Nat.mod_eq_sub_mod hgt.le, Nat.mod_eq_of_lt (by omega)]
    rw [hone] at hdiv
    rw [hleft] at hmod
    rw [if_neg (by omega), Nat.compare_eq_gt.mpr hgt]
    refine ⟨hdiv.symm, ?_⟩
    simp only [ExtendedMantissa.ofMantissaAndAccuracy, hmod, true_iff]
    omega

theorem Shows.shiftRightOne (h : Shows num den em) (hd : 0 < den) :
    Shows num (den * 2) em.shiftRightOne := by
  obtain ⟨q, r, s⟩ := em
  obtain ⟨hhalves, hrest⟩ := h
  dsimp only at hhalves hrest
  have hbit : r.toNat < 2 := Bool.toNat_lt r
  have hdiv : 2 * num / (den * 2) = q := by
    rw [← Nat.div_div_eq_div_mul, ← hhalves]
    omega
  have hmod : 2 * num % (den * 2) = 2 * num % den + den * r.toNat := by
    have hlast : (2 * q + r.toNat) % 2 = r.toNat := by omega
    rw [Nat.mod_mul, ← hhalves, hlast]
  refine ⟨?_, ?_⟩
  · change 2 * (q / 2) + (q % 2 != 0).toNat = _
    have hlast : (q % 2 != 0).toNat = q % 2 := by
      obtain hq | hq := Nat.mod_two_eq_zero_or_one q <;> rw [hq] <;> rfl
    omega
  · change (r || s) = true ↔ _
    rw [hmod]
    cases r with
    | false => simpa using hrest
    | true => simp [hd.ne']

theorem Shows.shiftRight (h : Shows num den em) (hd : 0 < den) (k : Nat) :
    Shows num (den * 2 ^ k) (em >>> k) := by
  induction k with
  | zero =>
    rw [pow_zero, mul_one]
    exact h
  | succ k ih =>
    change Shows num (den * 2 ^ (k + 1)) (em >>> k).shiftRightOne
    rw [pow_succ, ← mul_assoc]
    exact ih.shiftRightOne (Nat.mul_pos hd (Nat.two_pow_pos k))

/-- Its bits are all that is needed to round a ratio. -/
theorem Shows.roundedMantissa (h : Shows num den em) (hd : 0 < den) :
    em.roundedMantissa = roundDiv num den := by
  obtain ⟨q, r, s⟩ := em
  obtain ⟨hhalves, hrest⟩ := h
  dsimp only at hhalves hrest
  have hbit : r.toNat < 2 := Bool.toNat_lt r
  have hdiv : num / den = q := by
    rw [← Nat.mul_div_mul_left num den Nat.two_pos,
      mul_comm 2 den, ← Nat.div_div_eq_div_mul, ← hhalves]
    omega
  have htwice : 2 * (num % den) = den * r.toNat + 2 * num % den := by
    have hnum := Nat.div_add_mod num den
    have hdouble := Nat.div_add_mod (2 * num) den
    rw [← hhalves, mul_add, mul_left_comm] at hdouble
    rw [hdiv] at hnum
    omega
  have hlt : 2 * num % den < den := Nat.mod_lt _ hd
  unfold roundDiv
  dsimp only
  rw [hdiv]
  cases r with
  | false =>
    rw [Bool.toNat_false, mul_zero, zero_add] at htwice
    rw [if_pos (by omega)]
    cases s <;> rfl
  | true =>
    rw [Bool.toNat_true, mul_one] at htwice
    rw [if_neg (by omega)]
    cases s with
    | false =>
      have hnone : 2 * num % den = 0 := by simpa using hrest
      rw [if_neg (by omega)]
      rfl
    | true =>
      have hsome : 2 * num % den ≠ 0 := hrest.mp rfl
      rw [if_pos (by omega)]
      rfl

end Shows

/-! ## Quotients of finite numbers -/

section Finite

variable {m n : Nat} {e f : Int}

/-- The numerator of a quotient, with all of both exponents that is above zero. -/
def quotientNum (m : Nat) (e f : Int) : Nat := m * 2 ^ (e - f).toNat

def quotientDen (n : Nat) (e f : Int) : Nat := n * 2 ^ (f - e).toNat

theorem quotientNum_pos (hm : 0 < m) (e f : Int) : 0 < quotientNum m e f :=
  Nat.mul_pos hm (Nat.two_pow_pos _)

theorem quotientDen_pos (hn : 0 < n) (e f : Int) : 0 < quotientDen n e f :=
  Nat.mul_pos hn (Nat.two_pow_pos _)

theorem quotient_ratio (m n : Nat) (e f : Int) :
    (quotientNum m e f / quotientDen n e f : ℚ) = m / n * 2 ^ (e - f) := by
  rw [← pow_toNat_div_pow_toNat 2 (e - f), neg_sub, div_mul_div_comm]
  push_cast [quotientNum, quotientDen]
  rfl

/-- The exponent that a quotient is computed with: low enough for all bits that are kept. -/
def quotientExponent (m : Nat) (e : Int) (n : Nat) (f : Int) : Int :=
  min (e - f) (max (m.log2 + 1 + e - (n.log2 + 1 + f) - 53) (-1074))

/-- The numerator, at this exponent. -/
def quotientShifted (m : Nat) (e : Int) (n : Nat) (f : Int) : Nat :=
  m * 2 ^ (e - f - quotientExponent m e n f).toNat

theorem div_finite (s t : Sign) {hm : 0 < m} {hn : 0 < n} :
    UnpackedFloat.div binary64 (.finite s m e hm) (.finite t n f hn) =
      roundWithAccuracy binary64 (s / t) (quotientShifted m e n f / n) (quotientExponent m e n f)
        (accuracyOfFraction (quotientShifted m e n f % n) n) := by
  rw [quotientShifted, ← Nat.shiftLeft_eq]
  rfl

theorem shifted_ratio (m n : Nat) (e f : Int) :
    (quotientShifted m e n f / n : ℚ) = m / n * 2 ^ (e - f) / 2 ^ quotientExponent m e n f := by
  have hle : quotientExponent m e n f ≤ e - f := min_le_left _ _
  have hpow : (2 : ℚ) ^ (e - f - quotientExponent m e n f).toNat =
      2 ^ (e - f - quotientExponent m e n f) := by
    rw [← zpow_natCast, Int.toNat_of_nonneg (by omega)]
  rw [quotientShifted, mul_div_assoc, ← zpow_sub₀ two_ne_zero, ← hpow]
  push_cast
  ring

/-- All bits that are kept are computed. -/
theorem quotientExponent_le (hm : 0 < m) (hn : 0 < n) (e f : Int) :
    quotientExponent m e n f ≤ roundedExponent (quotientShifted m e n f / n)
      (quotientExponent m e n f) := by
  by_cases hsmall : m.log2 + 1 + e - (n.log2 + 1 + f) - 53 ≤ -1074
  · have hleast : quotientExponent m e n f ≤ -1074 := by
      unfold quotientExponent
      omega
    exact hleast.trans (le_max_right _ _)
  · have hbits : n.log2 + 53 ≤ m.log2 + (e - f - quotientExponent m e n f).toNat := by
      unfold quotientExponent
      omega
    have hfull : 2 ^ 52 ≤ quotientShifted m e n f / n := by
      rw [Nat.le_div_iff_mul_le hn]
      calc 2 ^ 52 * n
        _ ≤ 2 ^ 52 * 2 ^ (n.log2 + 1) := Nat.mul_le_mul_left _ Nat.lt_log2_self.le
        _ = 2 ^ (n.log2 + 53) := by ring
        _ ≤ 2 ^ (m.log2 + (e - f - quotientExponent m e n f).toNat) :=
          Nat.pow_le_pow_right Nat.two_pos hbits
        _ = 2 ^ m.log2 * 2 ^ (e - f - quotientExponent m e n f).toNat := pow_add _ _ _
        _ ≤ quotientShifted m e n f := Nat.mul_le_mul_right _ (Nat.log2_self_le hm.ne')
    have hlog : 52 ≤ (quotientShifted m e n f / n).log2 := (Nat.le_log2 (by omega)).mpr hfull
    refine le_trans ?_ (le_max_left _ _)
    omega

theorem roundedExponent_quotient (hm : 0 < m) (hn : 0 < n) (e f : Int) :
    roundedExponent (quotientShifted m e n f / n) (quotientExponent m e n f) =
      ratioExponent (quotientNum m e f) (quotientDen n e f) := by
  have hle := quotientExponent_le hm hn e f
  have hratio := shifted_ratio m n e f
  have hpositive : (0 : ℚ) < m / n * 2 ^ (e - f) := by positivity
  rw [ratioExponent_eq (quotientNum_pos hm e f) (quotientDen_pos hn e f), quotient_ratio]
  generalize (m / n * 2 ^ (e - f) : ℚ) = v at hratio hpositive
  generalize quotientExponent m e n f = t, quotientShifted m e n f = a at *
  have hpow : (0 : ℚ) < 2 ^ t := by positivity
  rw [eq_div_iff hpow.ne'] at hratio
  have hupper : Int.log 2 v < (a / n).log2 + 1 + t := by
    have hlt : a < 2 ^ ((a / n).log2 + 1) * n := (Nat.div_lt_iff_lt_mul hn).mp Nat.lt_log2_self
    rw [← Int.lt_zpow_iff_log_lt one_lt_two hpositive, ← hratio, Nat.cast_ofNat,
      zpow_add₀ two_ne_zero]
    gcongr
    rw [div_lt_iff₀ (by positivity)]
    exact_mod_cast hlt
  obtain hzero | hpos := Nat.eq_zero_or_pos (a / n)
  · rw [hzero] at hle hupper ⊢
    unfold roundedExponent at hle ⊢
    rw [Nat.log2_zero] at *
    omega
  · have hlower : ((a / n).log2 : Int) + t ≤ Int.log 2 v := by
      have hge : 2 ^ (a / n).log2 * n ≤ a :=
        (Nat.le_div_iff_mul_le hn).mp (Nat.log2_self_le hpos.ne')
      rw [← Int.zpow_le_iff_le_log one_lt_two hpositive, ← hratio, Nat.cast_ofNat,
        zpow_add₀ two_ne_zero]
      gcongr
      rw [le_div_iff₀ (by positivity)]
      exact_mod_cast hge
    unfold roundedExponent
    omega

theorem roundedMantissa_quotient (hm : 0 < m) (hn : 0 < n) (e f : Int) :
    (ExtendedMantissa.ofMantissaAndAccuracy (quotientShifted m e n f / n)
      (accuracyOfFraction (quotientShifted m e n f % n) n) >>>
        (roundedExponent (quotientShifted m e n f / n) (quotientExponent m e n f) -
          quotientExponent m e n f).toNat).roundedMantissa =
      ratioMantissa (quotientNum m e f) (quotientDen n e f) := by
  have hle := quotientExponent_le hm hn e f
  rw [roundedExponent_quotient hm hn] at hle ⊢
  rw [((shows_fraction hn).shiftRight hn _).roundedMantissa (Nat.mul_pos hn (Nat.two_pow_pos _)),
    ratioMantissa]
  have hden := quotientDen_pos hn e f
  apply roundDiv_eq_of_ratio (by positivity) (by positivity)
  rw [scaled_ratio, quotient_ratio]
  generalize ratioExponent (quotientNum m e f) (quotientDen n e f) = r at hle
  have hpow : (2 : ℚ) ^ (r - quotientExponent m e n f).toNat =
      2 ^ r / 2 ^ quotientExponent m e n f := by
    rw [← zpow_natCast, Int.toNat_of_nonneg (by omega), zpow_sub₀ two_ne_zero]
  push_cast
  rw [← div_div, shifted_ratio, hpow, div_div_div_cancel_right₀ (by positivity)]

/-- A quotient of finite numbers is rounded once. -/
theorem div_canonical (s t : Sign) (hm : 0 < m) (hn : 0 < n) (e f : Int) : ∃ q r, Canonical q r ∧
    (nearestBits (quotientNum m e f) (quotientDen n e f) : Int) = min (ulps q r) (2047 * 2 ^ 52) ∧
    UnpackedFloat.div binary64 (.finite s m e hm) (.finite t n f hn) = ofMantissa (s / t) q r := by
  have hnum := quotientNum_pos hm e f
  have hden := quotientDen_pos hn e f
  have hlong := ratioMantissa_le hnum hden
  obtain ⟨q, r, hq, hulps, hsettle⟩ := settle_canonical hlong (le_ratioExponent _ _)
    (or_iff_not_imp_left.mpr (le_ratioMantissa hnum hden)) (s / t)
  refine ⟨q, r, hq, ?_, ?_⟩
  · rw [nearestBits_eq_min hnum, hulps]
  · rw [div_finite,
      roundWithAccuracy_settles (quotientExponent_le hm hn e f) (roundedMantissa_quotient hm hn e f)
      hlong, roundedExponent_quotient hm hn, hsettle]

/-- A quotient of finite numbers is the number nearest to the exact quotient. -/
theorem rank_div_finite (s t : Sign) (hm : 0 < m) (hn : 0 < n) (e f : Int) :
    rank (stored (UnpackedFloat.div binary64 (.finite s m e hm) (.finite t n f hn))) =
      (s / t).apply (nearestBits (quotientNum m e f) (quotientDen n e f)) := by
  obtain ⟨q, r, hq, hbits, hdiv⟩ := div_canonical s t hm hn e f
  rw [hdiv, rank_stored_ofMantissa hq, hbits]

theorem isNaN_stored_ofMantissa {s : Sign} (hm : Canonical m e) :
    (stored (ofMantissa s m e)).isNaN = false := by
  by_cases he : e ≤ 971
  · rw [stored_ofMantissa hm he, ofMantissa]
    split <;> rfl
  · have hfull : 2 ^ 52 ≤ m := hm.normal.resolve_left (by omega)
    rw [ofMantissa, dif_neg (by omega), stored_overflow (by omega)]
    rfl

end Finite

/-! ## Division by a positive number -/

/-- How far from zero a number is, and how far a quotient of it by a positive number. -/
inductive Scaled (n : Nat) (f : Int) : Int → Int → Prop where
  | zero : Scaled n f 0 0
  | infinite : Scaled n f (2047 * 2 ^ 52) (2047 * 2 ^ 52)
  | finite {m : Nat} {e : Int} : Canonical m e → e ≤ 971 → 0 < m →
      Scaled n f (ulps m e) (nearestBits (quotientNum m e f) (quotientDen n e f))

section Scaled

variable {n : Nat} {f a b c d : Int}

theorem Scaled.nonneg (h : Scaled n f a c) : 0 ≤ a ∧ 0 ≤ c := by
  cases h with
  | zero => exact ⟨le_refl _, le_refl _⟩
  | infinite => decide
  | finite hm _ hpos => exact ⟨(hm.ulps_pos hpos).le, Int.natCast_nonneg _⟩

theorem Scaled.eq_zero (h : Scaled n f a c) (ha : a ≤ 0) : c = 0 := by
  cases h with
  | zero => rfl
  | infinite => exact absurd ha (by decide)
  | finite hm _ hpos => exact absurd ha (hm.ulps_pos hpos).not_ge

/-- A number that is not further from zero has a value that is not larger. -/
theorem Canonical.value_le {m m' : Nat} {e e' : Int} (hm : Canonical m e) (hm' : Canonical m' e')
    (h : ulps m e ≤ ulps m' e') : (m * 2 ^ e : ℚ) ≤ m' * 2 ^ e' := by
  obtain ⟨hshort, hleast, hnormal⟩ := hm
  obtain ⟨hshort', hleast', hnormal'⟩ := hm'
  unfold ulps at h
  have hexponent : e ≤ e' := by omega
  obtain rfl | hlt := eq_or_lt_of_le hexponent
  · have hmantissa : m ≤ m' := by omega
    gcongr
  · have hfull : 2 ^ 52 ≤ m' := by omega
    calc (m * 2 ^ e : ℚ)
      _ ≤ (2 ^ 53 : ℕ) * 2 ^ e := by gcongr
      _ = (2 ^ 52 : ℕ) * 2 ^ (e + 1) := by
        rw [zpow_add_one₀ two_ne_zero]
        push_cast
        ring
      _ ≤ m' * 2 ^ e' := by
        gcongr
        · norm_num
        · exact hlt

theorem Scaled.mono (hn : 0 < n) (h : Scaled n f a c) (h' : Scaled n f b d) (hab : a ≤ b) :
    c ≤ d := by
  cases h with
  | zero => exact h'.nonneg.2
  | infinite =>
    cases h' with
    | zero => exact absurd hab (by decide)
    | infinite => exact le_refl _
    | finite hm he _ => exact absurd hab (hm.ulps_lt he).not_ge
  | @finite m e hm he hpos =>
    cases h' with
    | zero => exact absurd hab (hm.ulps_pos hpos).not_ge
    | infinite => exact Int.ofNat_le.mpr (nearestBits_le _ _)
    | @finite m' e' hm' he' hpos' =>
      have hvalue := hm.value_le hm' hab
      refine Int.ofNat_le.mpr
        (nearestBits_mono (quotientDen_pos hn e f) (quotientDen_pos hn e' f) ?_)
      rw [quotient_ratio, quotient_ratio, zpow_sub₀ two_ne_zero, zpow_sub₀ two_ne_zero,
        div_mul_div_comm, div_mul_div_comm]
      gcongr

theorem unpack_div (x y : Float) :
    (x / y).toModel.unpack =
      stored (UnpackedFloat.div binary64 x.toModel.unpack y.toModel.unpack) := rfl

theorem exists_scaled {x y : Float} (hx : x.isNaN = false) {hn : 0 < n}
    (hy : y.toModel.unpack = .finite .positive n f hn) : (x / y).isNaN = false ∧
      ∃ (s : Sign) (a c : Int), rank x.toModel.unpack = s.apply a ∧
      rank (x / y).toModel.unpack = s.apply c ∧
        Scaled n f a c := by
  change (x / y).toModel.unpack.isNaN = false ∧ _
  rw [unpack_div, hy]
  obtain ⟨s, hu⟩ | ⟨s, hu⟩ | ⟨s, m, e, hm, hu⟩ := unpack_cases hx <;> rw [hu]
  · have hdiv : UnpackedFloat.div binary64 (.infinity s) (.finite .positive n f hn) =
        .infinity s := by
      cases s <;> rfl
    rw [hdiv, stored_infinity]
    exact ⟨rfl, s, _, _, rfl, rfl, .infinite⟩
  · have hdiv : UnpackedFloat.div binary64 (.zero s) (.finite .positive n f hn) = .zero s := by
      cases s <;> rfl
    rw [hdiv, stored_zero]
    exact ⟨rfl, s, 0, 0, (sign_apply_zero s).symm, (sign_apply_zero s).symm, .zero⟩
  · obtain ⟨hcanonical, he⟩ := canonical_of_unpack hu
    have hsign : s / Sign.positive = s := by cases s <;> rfl
    have hrank := rank_div_finite s .positive hm hn e f
    obtain ⟨q, r, hq, -, hdiv⟩ := div_canonical s .positive hm hn e f
    rw [hsign] at hrank
    refine ⟨?_, s, _, _, rfl, hrank, .finite hcanonical he hm⟩
    rw [hdiv]
    exact isNaN_stored_ofMantissa hq

/-- Division by a positive number keeps numbers in order. -/
theorem div_le_div_of_finite {x y z : Float} {hn : 0 < n}
    (hz : z.toModel.unpack = .finite .positive n f hn) (h : x ≤ y) : x / z ≤ y / z := by
  obtain ⟨hx, hy⟩ := isNaN_of_le h
  obtain ⟨hxz, s, a, c, hrank, hquotient, hscaled⟩ := exists_scaled hx hz
  obtain ⟨hyz, t, b, d, hrank', hquotient', hscaled'⟩ := exists_scaled hy hz
  rw [float_le_iff hx hy, hrank, hrank'] at h
  rw [float_le_iff hxz hyz, hquotient, hquotient']
  obtain ⟨ha, hc⟩ := hscaled.nonneg
  obtain ⟨hb, hd⟩ := hscaled'.nonneg
  cases s with
  | positive =>
    cases t with
    | positive => exact hscaled.mono hn hscaled' h
    | negative =>
      -- Only zero is at both sides of zero.
      change a ≤ -b at h
      rw [hscaled.eq_zero (by omega), hscaled'.eq_zero (by omega)]
      decide
  | negative =>
    cases t with
    | positive => exact (Int.neg_nonpos_of_nonneg hc).trans hd
    | negative => exact Int.neg_le_neg (hscaled'.mono hn hscaled (Int.neg_le_neg_iff.mp h))

end Scaled

end PolarPlot
