import Mathlib
import PolarPlot.Number.Shortest
import PolarPlot.Proofs.Clamp

/-!
# Rounding of ratios

The nearest binary64 number depends on a ratio and not on how it is written (`nearestBits_congr`). A
finite number is the nearest to its own value (`nearestBits_parts`), so the digits of `shortest`
read back as the number they came from (`toFloat_shortest`).
-/

namespace PolarPlot.Number

variable {num den num' den' : Nat}

/-! ## Ratios -/

/-- A power is written as a numerator and a denominator, of which one is 1. -/
theorem pow_toNat_div_pow_toNat (b : ℚ) (k : Int) : b ^ k.toNat / b ^ (-k).toNat = b ^ k := by
  obtain ⟨n, rfl | rfl⟩ := k.eq_nat_or_neg <;> simp

/-- Whether a ratio is at least a power of two, on natural numbers. -/
theorem pow_le_ratio_iff (hd : 0 < den) (k : Int) :
    den * Nat.pow 2 k.toNat ≤ num * Nat.pow 2 (-k).toNat ↔ (2 : ℚ) ^ k ≤ num / den := by
  have hden : (0 : ℚ) < den := Nat.cast_pos.mpr hd
  have hpow : (0 : ℚ) < 2 ^ (-k).toNat := by positivity
  rw [← pow_toNat_div_pow_toNat, div_le_div_iff₀ hpow hden, mul_comm den, Nat.pow_eq, Nat.pow_eq]
  norm_cast

theorem binaryOrder_eq_log (hn : 0 < num) (hd : 0 < den) :
    binaryOrder num den = Int.log 2 (num / den : ℚ) := by
  have hratio : (0 : ℚ) < num / den := by positivity
  have hnum : ((2 : ℚ) ^ num.log2 ≤ num) ∧ (num : ℚ) < 2 ^ (num.log2 + 1) := by
    constructor
    · exact_mod_cast Nat.log2_self_le hn.ne'
    · exact_mod_cast Nat.lt_log2_self
  have hden : ((2 : ℚ) ^ den.log2 ≤ den) ∧ (den : ℚ) < 2 ^ (den.log2 + 1) := by
    constructor
    · exact_mod_cast Nat.log2_self_le hd.ne'
    · exact_mod_cast Nat.lt_log2_self
  -- The guess is right or one too large.
  have hupper : Int.log 2 (num / den : ℚ) < (num.log2 : Int) - den.log2 + 1 := by
    rw [← Int.lt_zpow_iff_log_lt one_lt_two hratio, div_lt_iff₀ (by positivity)]
    calc
      (num : ℚ) < 2 ^ (num.log2 + 1) := hnum.2
      _ = ((2 : ℕ) : ℚ) ^ ((num.log2 : Int) - den.log2 + 1) * 2 ^ den.log2 := by
        rw [← zpow_natCast, ← zpow_natCast, Nat.cast_ofNat, ← zpow_add₀ two_ne_zero]
        congr 1
        push_cast
        ring
      _ ≤ _ := by gcongr; exact hden.1
  have hlower : (num.log2 : Int) - den.log2 - 1 ≤ Int.log 2 (num / den : ℚ) := by
    rw [← Int.zpow_le_iff_le_log one_lt_two hratio, le_div_iff₀ (by positivity)]
    calc
      ((2 : ℕ) : ℚ) ^ ((num.log2 : Int) - den.log2 - 1) * den
          ≤ ((2 : ℕ) : ℚ) ^ ((num.log2 : Int) - den.log2 - 1) * 2 ^ (den.log2 + 1) := by
        gcongr
        exact hden.2.le
      _ = 2 ^ num.log2 := by
        rw [← zpow_natCast, ← zpow_natCast, Nat.cast_ofNat, ← zpow_add₀ two_ne_zero]
        congr 1
        push_cast
        ring
      _ ≤ num := hnum.1
  have hreach : ∀ k : Int, (2 : ℚ) ^ k ≤ num / den ↔ k ≤ Int.log 2 (num / den : ℚ) := by
    intro k
    rw [← Int.zpow_le_iff_le_log one_lt_two hratio, Nat.cast_ofNat]
  unfold binaryOrder
  simp only [pow_le_ratio_iff hd, hreach]
  split <;> omega

/-- A quotient is rounded by its ratio. -/
theorem roundDiv_mul_left {k : Nat} (hk : 0 < k) (num den : Nat) :
    roundDiv (k * num) (k * den) = roundDiv num den := by
  have hlt : ∀ {a b : Nat}, k * a < k * b ↔ a < b := Nat.mul_lt_mul_left hk
  have htwo : 2 * (k * (num % den)) = k * (2 * (num % den)) := by ring
  simp only [roundDiv, Nat.mul_div_mul_left _ _ hk, Nat.mul_mod_mul_left, htwo, hlt]

theorem roundDiv_congr (hd : 0 < den) (hd' : 0 < den') (h : num * den' = num' * den) :
    roundDiv num den = roundDiv num' den' := by
  rw [← roundDiv_mul_left hd' num den, ← roundDiv_mul_left hd num' den', mul_comm den' num, h,
    mul_comm num' den, mul_comm den' den]

theorem nearestBits_congr (hd : 0 < den) (hd' : 0 < den') (h : num * den' = num' * den) :
    nearestBits num den = nearestBits num' den' := by
  rcases Nat.eq_zero_or_pos num with rfl | hn
  · obtain rfl : num' = 0 := by
      rw [zero_mul] at h
      exact (mul_eq_zero.mp h.symm).resolve_right hd.ne'
    simp only [nearestBits, if_pos]
  · have hn' : 0 < num' := by
      refine Nat.pos_of_ne_zero ?_
      rintro rfl
      rw [zero_mul] at h
      exact (mul_pos hn hd').ne' h
    have hratio : (num / den : ℚ) = num' / den' := by
      rw [div_eq_div_iff (by positivity) (by positivity)]
      exact_mod_cast h
    simp only [nearestBits, if_neg hn.ne', if_neg hn'.ne', binaryOrder_eq_log hn hd,
      binaryOrder_eq_log hn' hd', hratio]
    congr 2
    generalize max (Int.log 2 (num' / den' : ℚ) - 52) (-1074) = e
    apply roundDiv_congr (mul_pos hd (Nat.pow_pos two_pos)) (mul_pos hd' (Nat.pow_pos two_pos))
    simp only [Nat.pow_eq]
    linear_combination (2 ^ (-e).toNat * 2 ^ e.toNat) * h

/-! ## Ratios out of range -/

/-- A ratio that is past the largest finite number. -/
theorem nearestBits_of_large (hd : 0 < den) {k : Nat} (hk : 1025 ≤ k) (h : den * 2 ^ k ≤ num) :
    nearestBits num den = infinityBits := by
  have hn : 0 < num := lt_of_lt_of_le (by positivity) h
  have hratio : (0 : ℚ) < num / den := by positivity
  have horder : (k : Int) ≤ Int.log 2 (num / den : ℚ) := by
    rw [← Int.zpow_le_iff_le_log one_lt_two hratio, le_div_iff₀ (by positivity), mul_comm]
    exact_mod_cast h
  simp only [nearestBits, if_neg hn.ne', binaryOrder_eq_log hn hd]
  have hexponent : 2047 ≤ (max (Int.log 2 (num / den : ℚ) - 52) (-1074) + 1074).toNat := by omega
  apply Nat.min_eq_right
  calc
    infinityBits = 2047 * Nat.pow 2 52 := rfl
    _ ≤ (max (Int.log 2 (num / den : ℚ) - 52) (-1074) + 1074).toNat * Nat.pow 2 52 :=
      Nat.mul_le_mul_right _ hexponent
    _ ≤ _ := Nat.le_add_right _ _

theorem roundDiv_eq_zero (h : 2 * num < den) : roundDiv num den = 0 := by
  have hlt : num < den := by omega
  simp only [roundDiv, Nat.mod_eq_of_lt hlt, Nat.div_eq_of_lt hlt, if_pos h]

theorem roundDiv_pow_eq_zero (hn : 0 < num) {e : Int} (he : e ≤ 0) {k : Nat} (hk : 2 - e ≤ k)
    (h : num * 2 ^ k ≤ den) :
    roundDiv (num * Nat.pow 2 (-e).toNat) (den * Nat.pow 2 e.toNat) = 0 := by
  obtain ⟨a, rfl⟩ : ∃ a : Nat, e = -a := ⟨(-e).toNat, by omega⟩
  have ha : a + 2 ≤ k := by omega
  have hpos : 0 < num * 2 ^ a := by positivity
  apply roundDiv_eq_zero
  rw [neg_neg, Int.toNat_natCast, Int.toNat_neg_natCast]
  calc
    2 * (num * 2 ^ a) < 4 * (num * 2 ^ a) := by omega
    _ = num * 2 ^ (a + 2) := by ring
    _ ≤ num * 2 ^ k := Nat.mul_le_mul_left _ (Nat.pow_le_pow_right two_pos ha)
    _ ≤ den := h
    _ = den * Nat.pow 2 0 := (mul_one den).symm

/-- A ratio that is nearer to zero than to any other number. -/
theorem nearestBits_of_small (hd : 0 < den) {k : Nat} (hk : 1076 ≤ k) (h : num * 2 ^ k ≤ den) :
    nearestBits num den = 0 := by
  rcases Nat.eq_zero_or_pos num with rfl | hn
  · simp only [nearestBits, if_pos]
  · have hratio : (0 : ℚ) < num / den := by positivity
    have horder : Int.log 2 (num / den : ℚ) < -(k : Int) + 1 := by
      have hcast : (num : ℚ) * 2 ^ k ≤ den := by exact_mod_cast h
      have hpow : (0 : ℚ) < 2 ^ k := by positivity
      rw [← Int.lt_zpow_iff_log_lt one_lt_two hratio, zpow_add_one₀ (by norm_num), zpow_neg,
        zpow_natCast, div_lt_iff₀ (by positivity), Nat.cast_ofNat, inv_mul_eq_div,
        div_mul_eq_mul_div, lt_div_iff₀ hpow]
      have hden : (0 : ℚ) < den := by positivity
      linarith
    simp only [nearestBits, if_neg hn.ne', binaryOrder_eq_log hn hd]
    generalize he : max (Int.log 2 (num / den : ℚ) - 52) (-1074) = e
    have hzero : (e + 1074).toNat = 0 := by omega
    rw [roundDiv_pow_eq_zero hn (by omega) (by omega) h, hzero]
    rfl

/-! ## Decimals -/

/-- The cases of `magnitudeBits` that keep the powers of ten small give what rounding would. -/
theorem magnitudeBits_eq (digits : Nat) (exponent : Int) :
    Decimal.magnitudeBits digits exponent =
      nearestBits (digits * Nat.pow 10 exponent.toNat) (Nat.pow 10 (-exponent).toNat) := by
  have height : ∀ n, 2 ^ (3 * n) ≤ 10 ^ n := by
    intro n
    rw [pow_mul]
    exact Nat.pow_le_pow_left (by norm_num) n
  unfold Decimal.magnitudeBits
  split
  · rename_i hzero
    simp only [hzero, zero_mul, nearestBits, if_pos]
  split
  · rename_i hpos hlarge
    symm
    apply nearestBits_of_large (Nat.pow_pos (by norm_num)) (k := 3 * exponent.toNat) (by omega)
    have hone : (-exponent).toNat = 0 := by omega
    rw [hone]
    calc
      Nat.pow 10 0 * 2 ^ (3 * exponent.toNat) ≤ 10 ^ exponent.toNat := by
        rw [Nat.pow_eq, pow_zero, one_mul]
        exact height _
      _ ≤ digits * Nat.pow 10 exponent.toNat := Nat.le_mul_of_pos_left _ (Nat.pos_of_ne_zero hpos)
  split
  · rename_i hsmall
    symm
    have hone : exponent.toNat = 0 := by omega
    apply nearestBits_of_small (Nat.pow_pos (by norm_num))
      (k := 3 * (-exponent).toNat - (digits.log2 + 1)) (by omega)
    calc
      digits * Nat.pow 10 exponent.toNat * 2 ^ (3 * (-exponent).toNat - (digits.log2 + 1))
          ≤ 2 ^ (digits.log2 + 1) * 2 ^ (3 * (-exponent).toNat - (digits.log2 + 1)) := by
        rw [hone, Nat.pow_eq, pow_zero, mul_one]
        exact Nat.mul_le_mul_right _ Nat.lt_log2_self.le
      _ = 2 ^ (3 * (-exponent).toNat) := by
        rw [← pow_add]
        congr 1
        omega
      _ ≤ Nat.pow 10 (-exponent).toNat := height _
  · rfl

/-- A decimal is rounded by its value. -/
theorem magnitudeBits_of_eq (hd : 0 < den) {digits : Nat} {exponent : Int}
    (h : (digits : ℚ) * 10 ^ exponent = num / den) :
    Decimal.magnitudeBits digits exponent = nearestBits num den := by
  rw [magnitudeBits_eq]
  apply nearestBits_congr (Nat.pow_pos (by norm_num)) hd
  rw [← pow_toNat_div_pow_toNat, mul_div_assoc',
    div_eq_div_iff (by positivity) (by positivity)] at h
  simp only [Nat.pow_eq]
  exact_mod_cast h

theorem magnitudeBits_congr {d d' : Nat} {e e' : Int} (h : (d : ℚ) * 10 ^ e = d' * 10 ^ e') :
    Decimal.magnitudeBits d e = Decimal.magnitudeBits d' e' := by
  rw [magnitudeBits_eq d']
  apply magnitudeBits_of_eq (Nat.pow_pos (by norm_num))
  rw [h, ← pow_toNat_div_pow_toNat, ← mul_div_assoc]
  simp only [Nat.pow_eq]
  push_cast
  rfl

theorem dropZeros_value (fuel d : Nat) (e : Int) :
    ((dropZeros fuel d e).1 : ℚ) * 10 ^ (dropZeros fuel d e).2 = d * 10 ^ e := by
  fun_induction dropZeros fuel d e with
  | case1 => rfl
  | case2 fuel d e h ih =>
    rw [ih, zpow_add_one₀ (by norm_num)]
    have hten : (d : ℚ) = (d / 10 : Nat) * 10 := by
      exact_mod_cast (Nat.div_mul_cancel (Nat.dvd_of_mod_eq_zero h.2)).symm
    rw [hten]
    ring
  | case3 => rfl

theorem exactDigits_value (p : Parts) :
    ((exactDigits p).1 : ℚ) * 10 ^ (exactDigits p).2 = p.num / p.den := by
  obtain ⟨negative, significand, exponent⟩ := p
  unfold exactDigits Parts.num Parts.den
  split
  · rename_i h
    have hone : (-exponent).toNat = 0 := by
      dsimp only at h
      omega
    simp [hone]
  · rename_i h
    obtain ⟨n, rfl⟩ : ∃ n : Nat, exponent = -n := ⟨(-exponent).toNat, by dsimp only at h; omega⟩
    simp only [Nat.pow_eq, neg_neg, Int.toNat_natCast, Int.toNat_neg_natCast]
    push_cast
    have hten : (10 : ℚ) = 2 * 5 := by norm_num
    rw [zpow_neg, zpow_natCast, hten, mul_pow]
    field_simp

/-! ## Numbers and their parts -/

theorem roundDiv_mul_right {k : Nat} (hk : 0 < k) (n : Nat) : roundDiv (n * k) k = n := by
  simp [roundDiv, hk]

/-- A significand that fits is not rounded. -/
theorem nearestBits_exact {s : Nat} {e : Int} (hpos : 0 < s) (hfits : s < 2 ^ 53)
    (hleast : -1074 ≤ e) (hgreatest : e ≤ 971) (hnormal : e = -1074 ∨ 2 ^ 52 ≤ s) :
    nearestBits (s * Nat.pow 2 e.toNat) (Nat.pow 2 (-e).toNat) = (e + 1074).toNat * 2 ^ 52 + s := by
  have hd : 0 < Nat.pow 2 (-e).toNat := Nat.pow_pos two_pos
  have hn : 0 < s * Nat.pow 2 e.toNat := mul_pos hpos (Nat.pow_pos two_pos)
  have hvalue : ((s * Nat.pow 2 e.toNat : Nat) / (Nat.pow 2 (-e).toNat : Nat) : ℚ) = s * 2 ^ e := by
    rw [← pow_toNat_div_pow_toNat, ← mul_div_assoc]
    simp only [Nat.pow_eq]
    push_cast
    rfl
  have hratio : (0 : ℚ) < s * 2 ^ e := by positivity
  have hupper : Int.log 2 (s * 2 ^ e : ℚ) < e + 53 := by
    rw [← Int.lt_zpow_iff_log_lt one_lt_two hratio, add_comm, zpow_add₀ (by norm_num),
      Nat.cast_ofNat]
    have hcast : (s : ℚ) < 2 ^ 53 := by exact_mod_cast hfits
    gcongr
    exact_mod_cast hcast
  have hlower : e = -1074 ∨ e + 52 ≤ Int.log 2 (s * 2 ^ e : ℚ) := by
    refine hnormal.imp_right fun hnormal => ?_
    rw [← Int.zpow_le_iff_le_log one_lt_two hratio, add_comm, zpow_add₀ (by norm_num),
      Nat.cast_ofNat]
    have hcast : (2 : ℚ) ^ 52 ≤ s := by exact_mod_cast hnormal
    gcongr
    exact_mod_cast hcast
  have hexponent : max (Int.log 2 (s * 2 ^ e : ℚ) - 52) (-1074) = e := by omega
  simp only [nearestBits, if_neg hn.ne', binaryOrder_eq_log hn hd, hvalue, hexponent]
  have hround : roundDiv (s * Nat.pow 2 e.toNat * Nat.pow 2 (-e).toNat)
      (Nat.pow 2 (-e).toNat * Nat.pow 2 e.toNat) = s := by
    rw [mul_assoc, mul_comm (Nat.pow 2 e.toNat)]
    exact roundDiv_mul_right (mul_pos hd (Nat.pow_pos two_pos)) s
  rw [hround]
  apply Nat.min_eq_left
  change (e + 1074).toNat * 4503599627370496 + s ≤ 9218868437227405312
  omega

/-- A number that is neither infinite nor no number. -/
def IsFinite (x : Float) : Prop := x.toBits.toNat / 2 ^ 52 % 2 ^ 11 < 2047

/-- A finite number is the nearest to its own value. -/
theorem nearestBits_parts {x : Float} (hx : IsFinite x) :
    nearestBits (parts x).num (parts x).den = x.toBits.toNat % 2 ^ 63 := by
  have h52 : Nat.pow 2 52 = 2 ^ 52 := rfl
  have h11 : Nat.pow 2 11 = 2 ^ 11 := rfl
  unfold IsFinite at hx
  unfold Parts.num Parts.den parts
  simp only [h52, h11]
  generalize x.toBits.toNat = bits at hx
  by_cases hfield : bits / 2 ^ 52 % 2 ^ 11 = 0
  · simp only [if_pos hfield]
    rcases Nat.eq_zero_or_pos (bits % 2 ^ 52) with hzero | hpos
    · rw [hzero, zero_mul]
      simp only [nearestBits, if_pos]
      omega
    · rw [nearestBits_exact hpos (by omega) le_rfl (by norm_num) (.inl rfl)]
      omega
  · simp only [if_neg hfield]
    rw [nearestBits_exact (by omega) (by omega) (by omega) (by omega) (.inr (by omega))]
    have hbits : bits % 2 ^ 63 = bits / 2 ^ 52 % 2 ^ 11 * 2 ^ 52 + bits % 2 ^ 52 := by omega
    have hexponent : ((bits / 2 ^ 52 % 2 ^ 11 : Nat) - 1075 + 1074 : Int).toNat =
        bits / 2 ^ 52 % 2 ^ 11 - 1 := by omega
    obtain ⟨field, hsucc⟩ := Nat.exists_eq_succ_of_ne_zero hfield
    rw [hbits, hexponent, hsucc, Nat.succ_sub_one, Nat.succ_eq_add_one]
    ring

theorem digitsOfCount?_spec {p : Parts} {order : Int} {count : Nat} {found : Nat × Int}
    (h : digitsOfCount? p order count = some found) :
    Decimal.magnitudeBits found.1 found.2 = nearestBits p.num p.den := by
  have hchoice : ∀ (near other : Nat) (exponent : Int),
      (if decide (Decimal.magnitudeBits near exponent = nearestBits p.num p.den) then
        some (near, exponent)
      else if decide (Decimal.magnitudeBits other exponent = nearestBits p.num p.den) then
        some (other, exponent)
      else none) = some found →
      Decimal.magnitudeBits found.1 found.2 = nearestBits p.num p.den := by
    intro near other exponent h
    split at h
    · cases h
      exact of_decide_eq_true ‹_›
    · split at h
      · cases h
        exact of_decide_eq_true ‹_›
      · cases h
  exact hchoice _ _ _ h

/-- The digits of a number read back as the number. -/
theorem magnitudeBits_shortest {x : Float} (hx : IsFinite x) :
    Decimal.magnitudeBits (shortest x).digits (shortest x).exponent = x.toBits.toNat % 2 ^ 63 := by
  rw [← nearestBits_parts hx]
  unfold shortest
  dsimp only
  split
  · rename_i hzero
    rw [Decimal.magnitudeBits, if_pos rfl, Parts.num, hzero, zero_mul]
    simp only [nearestBits, if_pos]
  · have hden : 0 < (parts x).den := Nat.pow_pos two_pos
    rw [magnitudeBits_congr (dropZeros_value _ _ _)]
    cases hfound : (List.range' 1 17).findSome? (digitsOfCount? (parts x)
        (decimalOrder (parts x).num (parts x).den)) with
    | none => exact magnitudeBits_of_eq hden (exactDigits_value _)
    | some found =>
      obtain ⟨count, -, hcount⟩ := List.exists_of_findSome?_eq_some hfound
      exact digitsOfCount?_spec hcount

theorem toFloat_shortest {x : Float} (hx : IsFinite x) : (shortest x).toFloat = x := by
  have hnegative : (shortest x).negative = decide (2 ^ 63 ≤ x.toBits.toNat) := by
    unfold shortest
    dsimp only
    split <;> rfl
  have hbits : (if decide (2 ^ 63 ≤ x.toBits.toNat) then Nat.pow 2 63 + x.toBits.toNat % 2 ^ 63
      else x.toBits.toNat % 2 ^ 63) = x.toBits.toNat := by
    have hlt := x.toBits.toNat_lt
    have hpow : Nat.pow 2 63 = 2 ^ 63 := rfl
    simp only [decide_eq_true_eq, hpow]
    split <;> omega
  rw [Decimal.toFloat, magnitudeBits_shortest hx, hnegative, ofMagnitudeBits, hbits,
    UInt64.ofNat_toNat, Float.ofBits_toBits]

/-! ## Numbers that have no parts -/

theorem eq_of_unpack {x y : Float} (h : x.toModel.unpack = y.toModel.unpack) : x = y := by
  rw [← Float.ofBits_toBits x, ← Float.ofBits_toBits y]
  exact congrArg (fun u => (⟨Float.Model.pack u⟩ : Float)) h

theorem eq_nan {x : Float} (h : x.isNaN) : x = nan := by
  have hnan : nan.toModel.unpack = .notANumber := rfl
  apply eq_of_unpack
  rw [hnan]
  change x.toModel.unpack.isNaN = true at h
  cases hx : x.toModel.unpack with
  | notANumber => rfl
  | infinity | zero | finite =>
    rw [hx] at h
    cases h

theorem eq_infinity {x : Float} (h : x.isInf) : x = infinity ∨ x = -infinity := by
  have hpositive : infinity.toModel.unpack = .infinity .positive := rfl
  have hnegative : (-infinity).toModel.unpack = .infinity .negative := rfl
  change x.toModel.unpack.isInf = true at h
  cases hx : x.toModel.unpack with
  | infinity s =>
    cases s with
    | positive => exact .inl (eq_of_unpack (hx.trans hpositive.symm))
    | negative => exact .inr (eq_of_unpack (hx.trans hnegative.symm))
  | notANumber | zero | finite =>
    rw [hx] at h
    cases h

open Float.Model.UnpackedFloat Float.Model.Format in
theorem isFinite_of {x : Float} (hnan : x.isNaN = false) (hinf : x.isInf = false) : IsFinite x := by
  change x.toModel.unpack.isNaN = false at hnan
  change x.toModel.unpack.isInf = false at hinf
  have hunpack : x.toModel.unpack = ofParts _ (@unpackExponent binary64 x.toBits.toBitVec) _ :=
    unpack_eq_ofParts x.toBits.toBitVec
  have hfield : (@unpackExponent binary64 x.toBits.toBitVec).toNat =
      x.toBits.toNat / 2 ^ 52 % 2 ^ 11 := by
    change (BitVec.extractLsb 62 52 x.toBits.toBitVec).toNat = _
    rw [BitVec.extractLsb_toNat, Nat.shiftRight_eq_div_pow]
    rfl
  by_contra hfinite
  have hones : @unpackExponent binary64 x.toBits.toBitVec = -1#11 := by
    apply BitVec.eq_of_toNat_eq
    unfold IsFinite at hfinite
    rw [hfield]
    change _ = 2047
    omega
  rw [hunpack, ofParts, if_pos hones] at hnan hinf
  split at hnan
  · rw [if_pos ‹_›] at hinf
    cases hinf
  · cases hnan

open Float.Model.UnpackedFloat Float.Model.Format in
/-- A word is no number only where its exponent is full and its mantissa is not empty. -/
theorem isNaN_ofBits {u : UInt64} (h : u.toNat / 2 ^ 52 % 2 ^ 11 = 2047 → u.toNat % 2 ^ 52 = 0) :
    (Float.ofBits u).isNaN = false := by
  have hbits : @isNaNBits binary64 u.toBitVec = false := by
    refine decide_eq_false ?_
    rintro ⟨hexponent, hmantissa⟩
    refine hmantissa (BitVec.eq_of_toNat_eq ?_)
    have hfield : (BitVec.extractLsb 62 52 u.toBitVec).toNat = (-1#11).toNat :=
      congrArg BitVec.toNat hexponent
    rw [BitVec.extractLsb_toNat, Nat.shiftRight_eq_div_pow] at hfield
    change (BitVec.extractLsb 51 0 u.toBitVec).toNat = 0
    rw [BitVec.extractLsb_toNat, Nat.shiftRight_zero]
    exact h hfield
  have hword : pack binary64 (unpack binary64 u.toBitVec) = u.toBitVec := by
    rw [pack_unpack, hbits]
    rfl
  change (unpack binary64 (pack binary64 (unpack binary64 u.toBitVec))).isNaN = false
  rw [Bool.eq_false_iff]
  intro hnan
  rw [isNaN_unpack_iff_of_valid valid_pack, hword] at hnan
  have hpacked := @isNaNBits_packedNaN binary64
  rw [← hnan, hbits] at hpacked
  cases hpacked

theorem nearestBits_le (num den : Nat) : nearestBits num den ≤ infinityBits := by
  unfold nearestBits
  split
  · exact Nat.zero_le _
  · exact Nat.min_le_right ..

/-- What is read from a decimal is a number. -/
theorem Decimal.isNaN_toFloat (d : Decimal) : d.toFloat.isNaN = false := by
  have hle : magnitudeBits d.digits d.exponent ≤ 2047 * 2 ^ 52 := by
    rw [magnitudeBits_eq]
    exact nearestBits_le ..
  apply isNaN_ofBits
  have hpow : Nat.pow 2 63 = 2 ^ 63 := rfl
  rw [hpow, UInt64.toNat_ofNat']
  generalize magnitudeBits d.digits d.exponent = bits at hle
  split <;> omega

end PolarPlot.Number
