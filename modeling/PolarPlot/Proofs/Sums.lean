import PolarPlot.Proofs.Rounding

/-!
# Sums of binary64 numbers

A sum is rounded, so it may be the number that was added to. It is never on the wrong side of it
(`add_toward`): numbers are counted from zero (`rank`), and rounding keeps to the same side of a
number that needs no rounding (`le_rounded`, `rounded_le`).
-/

namespace PolarPlot

open Float.Model hiding pack unpack
open Float.Model.UnpackedFloat Float.Model.Format

/-! ## Mantissas -/

/-- A mantissa without its last `k` bits, rounded. -/
def roundOff (m k : Nat) : Nat := (ExtendedMantissa.mk m false false >>> k).roundedMantissa

/-- What is known after a shift: the bits that are kept, and that nothing was lost if all others are
zero. -/
structure Shifted (m k : Nat) (em : ExtendedMantissa) : Prop where
  mantissa : em.mantissa = m / 2 ^ k
  exact : m % 2 ^ k = 0 → em.roundBit = false ∧ em.stickyBit = false

theorem shifted (m k : Nat) : Shifted m k (ExtendedMantissa.mk m false false >>> k) := by
  induction k with
  | zero => exact ⟨(Nat.div_one m).symm, fun _ => ⟨rfl, rfl⟩⟩
  | succ k ih =>
    change Shifted m (k + 1) (ExtendedMantissa.mk m false false >>> k).shiftRightOne
    refine ⟨?_, fun h => ?_⟩
    · rw [ExtendedMantissa.shiftRightOne, ih.mantissa, Nat.div_div_eq_div_mul, pow_succ]
    · rw [pow_succ, Nat.mod_mul] at h
      obtain ⟨hround, hsticky⟩ := ih.exact (by omega)
      have hlast : m / 2 ^ k % 2 = 0 := by
        have hpos : 0 < 2 ^ k := Nat.two_pow_pos k
        simpa [Nat.pos_iff_ne_zero.mp hpos] using (Nat.add_eq_zero_iff.mp h).2
      simp [ExtendedMantissa.shiftRightOne, ih.mantissa, hround, hsticky, hlast]

theorem le_roundToNearestEven (q : Nat) : ∀ a : Accuracy, q ≤ a.roundToNearestEven q
  | .exact | .inexact .lt => Nat.le_refl q
  | .inexact .eq | .inexact .gt => Nat.le_add_right q _

theorem roundToNearestEven_le (q : Nat) : ∀ a : Accuracy, a.roundToNearestEven q ≤ q + 1
  | .exact | .inexact .lt => Nat.le_add_right q 1
  | .inexact .eq => Nat.add_le_add_left (Nat.le_of_lt_succ (Nat.mod_lt q Nat.two_pos)) q
  | .inexact .gt => Nat.le_refl _

theorem le_roundOff {m n k : Nat} (h : n * 2 ^ k ≤ m) : n ≤ roundOff m k := by
  refine le_trans ?_ (le_roundToNearestEven _ _)
  rw [(shifted m k).mantissa]
  exact (Nat.le_div_iff_mul_le (Nat.two_pow_pos k)).mpr h

theorem roundOff_le {m n k : Nat} (h : m ≤ n * 2 ^ k) : roundOff m k ≤ n := by
  obtain ⟨hmantissa, hexact⟩ := shifted m k
  by_cases hmod : m % 2 ^ k = 0
  · obtain ⟨hround, hsticky⟩ := hexact hmod
    have hkept : roundOff m k = m / 2 ^ k := by
      rw [roundOff, ExtendedMantissa.roundedMantissa, ← hmantissa]
      generalize ExtendedMantissa.mk m false false >>> k = em at hround hsticky
      obtain ⟨q, r, s⟩ := em
      obtain rfl : r = false := hround
      obtain rfl : s = false := hsticky
      rfl
    rw [hkept]
    exact Nat.div_le_of_le_mul (by rwa [mul_comm])
  · -- something is lost, so the bits that are kept are below n
    have hlt : m / 2 ^ k < n := by
      rw [Nat.div_lt_iff_lt_mul (Nat.two_pow_pos k)]
      refine lt_of_le_of_ne h fun heq => hmod ?_
      rw [heq, Nat.mul_mod_left]
    refine le_trans (roundToNearestEven_le _ _) ?_
    rw [hmantissa]
    exact hlt

/-! ## Rounding -/

/-- The exponent that a number is rounded to. -/
def roundedExponent (m : Nat) (e : Int) : Int := max (m.log2 + 1 + e - 53) (-1074)

/-- The mantissa that a number is rounded to. It may be one bit too long. -/
def roundedMantissa (m : Nat) (e : Int) : Nat :=
  roundOff (m * 2 ^ (e - roundedExponent m e).toNat) (roundedExponent m e - e).toNat

/-- The number with a sign, a mantissa and an exponent. -/
def ofMantissa (s : Sign) (m : Nat) (e : Int) : UnpackedFloat :=
  if h : m = 0 then .zero s else .finite s m e (Nat.pos_of_ne_zero h)

/-- The number with a rounded mantissa. -/
def settle (s : Sign) (m : Nat) (e : Int) : UnpackedFloat :=
  if m = 2 ^ 53 then ofMantissa s (2 ^ 52) (e + 1) else ofMantissa s m e

theorem log2_mul_two_pow {m : Nat} (hm : 0 < m) (k : Nat) : (m * 2 ^ k).log2 = m.log2 + k := by
  have hpos : m * 2 ^ k ≠ 0 := (Nat.mul_pos hm (Nat.two_pow_pos k)).ne'
  rw [Nat.log2_eq_iff hpos, pow_add, show m.log2 + k + 1 = m.log2 + 1 + k by omega, pow_add]
  exact ⟨Nat.mul_le_mul_right _ (Nat.log2_self_le hm.ne'),
    Nat.mul_lt_mul_of_pos_right Nat.lt_log2_self (Nat.two_pow_pos k)⟩

theorem shiftToTargetExponent_eq (m : Nat) (e : Int) :
    shiftToTargetExponent binary64 m e .exact =
      (ExtendedMantissa.mk m false false >>> (roundedExponent m e - e).toNat,
        e + (roundedExponent m e - e).toNat) := rfl

theorem shiftToTargetExponent_short {m : Nat} {e : Int} (hm : m < 2 ^ 53) (he : -1074 ≤ e) :
    shiftToTargetExponent binary64 m e .exact = (⟨m, false, false⟩, e) := by
  have hlog : m.log2 < 53 := by
    obtain rfl | hpos := Nat.eq_zero_or_pos m
    · decide
    · exact (Nat.log2_lt hpos.ne').mpr hm
  have hnone : (roundedExponent m e - e).toNat = 0 := by
    unfold roundedExponent
    omega
  rw [shiftToTargetExponent_eq, hnone, Nat.cast_zero, add_zero]
  rfl

theorem shiftToTargetExponent_long {e : Int} (he : -1074 ≤ e) :
    shiftToTargetExponent binary64 (2 ^ 53) e .exact = (⟨2 ^ 52, false, false⟩, e + 1) := by
  have hone : (roundedExponent (2 ^ 53) e - e).toNat = 1 := by
    rw [roundedExponent, Nat.log2_two_pow]
    omega
  rw [shiftToTargetExponent_eq, hone]
  rfl

theorem roundWithAccuracy_eq (s : Sign) (m : Nat) (e : Int) (a : Accuracy) :
    roundWithAccuracy binary64 s m e a =
      ofMantissa s
        (shiftToTargetExponent binary64
          (ExtendedMantissa.ofMantissaAndAccuracy m a >>>
            (roundedExponent m e - e).toNat).roundedMantissa
          (e + (roundedExponent m e - e).toNat) .exact).1.mantissa
        (shiftToTargetExponent binary64
          (ExtendedMantissa.ofMantissaAndAccuracy m a >>>
            (roundedExponent m e - e).toNat).roundedMantissa
          (e + (roundedExponent m e - e).toNat) .exact).2 := rfl

theorem roundWithAccuracy_settles {s : Sign} {m q : Nat} {e : Int} {a : Accuracy}
    (he : e ≤ roundedExponent m e)
    (hq : (ExtendedMantissa.ofMantissaAndAccuracy m a >>>
      (roundedExponent m e - e).toNat).roundedMantissa = q) (hlong : q ≤ 2 ^ 53) :
    roundWithAccuracy binary64 s m e a = settle s q (roundedExponent m e) := by
  have hleast : -1074 ≤ roundedExponent m e := le_max_right _ _
  have hexponent : e + ((roundedExponent m e - e).toNat : Int) = roundedExponent m e := by omega
  rw [roundWithAccuracy_eq, hexponent, hq, settle]
  obtain hshort | rfl := lt_or_eq_of_le hlong
  · rw [shiftToTargetExponent_short hshort hleast, if_neg hshort.ne]
  · rw [shiftToTargetExponent_long hleast, if_pos rfl]

theorem roundWithAccuracy_exact {s : Sign} {m : Nat} {e : Int} (he : e ≤ roundedExponent m e)
    (hlong : roundOff m (roundedExponent m e - e).toNat ≤ 2 ^ 53) :
    roundWithAccuracy binary64 s m e .exact =
      settle s (roundOff m (roundedExponent m e - e).toNat) (roundedExponent m e) :=
  roundWithAccuracy_settles he rfl hlong

/-- Moving a mantissa to the left does not change the exponent that it is rounded to. -/
theorem roundedExponent_shift {m : Nat} (hm : 0 < m) (e : Int) (k : Nat) :
    roundedExponent (m * 2 ^ k) (e - k) = roundedExponent m e := by
  unfold roundedExponent
  rw [log2_mul_two_pow hm]
  push_cast
  congr 1
  ring

theorem roundedMantissa_le (m : Nat) (e : Int) : roundedMantissa m e ≤ 2 ^ 53 := by
  apply roundOff_le
  have hbits : m.log2 + 1 + (e - roundedExponent m e).toNat ≤
      53 + (roundedExponent m e - e).toNat := by
    have hexponent : m.log2 + 1 + e - 53 ≤ roundedExponent m e := le_max_left _ _
    omega
  calc m * 2 ^ (e - roundedExponent m e).toNat
    _ ≤ 2 ^ (m.log2 + 1) * 2 ^ (e - roundedExponent m e).toNat :=
      Nat.mul_le_mul_right _ Nat.lt_log2_self.le
    _ ≤ 2 ^ 53 * 2 ^ (roundedExponent m e - e).toNat := by
      rw [← pow_add, ← pow_add]
      exact Nat.pow_le_pow_right Nat.two_pos hbits

/-- The mantissa has all of its bits, unless the exponent is the least one. -/
theorem le_roundedMantissa {m : Nat} (hm : 0 < m) {e : Int} (he : roundedExponent m e ≠ -1074) :
    2 ^ 52 ≤ roundedMantissa m e := by
  apply le_roundOff
  have hbits : 52 + (roundedExponent m e - e).toNat ≤ m.log2 + (e - roundedExponent m e).toNat := by
    unfold roundedExponent at he ⊢
    omega
  calc 2 ^ 52 * 2 ^ (roundedExponent m e - e).toNat
    _ ≤ 2 ^ m.log2 * 2 ^ (e - roundedExponent m e).toNat := by
      rw [← pow_add, ← pow_add]
      exact Nat.pow_le_pow_right Nat.two_pos hbits
    _ ≤ m * 2 ^ (e - roundedExponent m e).toNat := Nat.mul_le_mul_right _ (Nat.log2_self_le hm.ne')

theorem round_eq {m : Nat} (hm : 0 < m) (s : Sign) (e : Int) :
    UnpackedFloat.round binary64 s m e = settle s (roundedMantissa m e) (roundedExponent m e) := by
  have hround : UnpackedFloat.round binary64 s m e =
      roundWithAccuracy binary64 s (m <<< (e - roundedExponent m e).toNat)
        (e - (e - roundedExponent m e).toNat) .exact := rfl
  have hexponent := roundedExponent_shift hm e (e - roundedExponent m e).toNat
  have hle := roundedMantissa_le m e
  unfold roundedMantissa at hle ⊢
  generalize roundedExponent m e = t at *
  have hshift : (t - (e - ((e - t).toNat : Int))).toNat = (t - e).toNat := by omega
  rw [hround, Nat.shiftLeft_eq, roundWithAccuracy_exact, hexponent, hshift]
  · omega
  · rwa [hexponent, hshift]

/-! ## Numbers, counted from zero -/

/-- Mantissas and exponents of numbers that need no rounding. -/
structure Canonical (m : Nat) (e : Int) : Prop where
  short : m < 2 ^ 53
  least : -1074 ≤ e
  normal : e = -1074 ∨ 2 ^ 52 ≤ m

/-- How many numbers there are from zero up to one with a mantissa and an exponent. -/
def ulps (m : Nat) (e : Int) : Int := (e + 1074) * 2 ^ 52 + m

section Canonical

variable {m n : Nat} {e f : Int}

theorem Canonical.ulps_injective (hm : Canonical m e) (hn : Canonical n f)
    (h : ulps m e = ulps n f) : m = n ∧ e = f := by
  obtain ⟨hm, he, hnormal⟩ := hm
  obtain ⟨hn, hf, hnormal'⟩ := hn
  unfold ulps at h
  omega

theorem Canonical.ulps_pos (hm : Canonical m e) (hpos : 0 < m) : 0 < ulps m e := by
  have he := hm.least
  unfold ulps
  omega

theorem Canonical.ulps_lt (hm : Canonical m e) (he : e ≤ 971) : ulps m e < 2047 * 2 ^ 52 := by
  have hshort := hm.short
  unfold ulps
  omega

/-- Rounding does not go below a number that needs no rounding. -/
theorem le_rounded (hn : Canonical n f) (hef : e ≤ f) (hpos : 0 < m)
    (h : n * 2 ^ (f - e).toNat ≤ m) :
    ulps n f ≤ ulps (roundedMantissa m e) (roundedExponent m e) := by
  have hle : f ≤ roundedExponent m e := by
    obtain rfl | hnormal := hn.normal
    · exact le_max_right _ _
    · have hbits : 52 + (f - e).toNat ≤ m.log2 := by
        rw [Nat.le_log2 hpos.ne', pow_add]
        exact le_trans (Nat.mul_le_mul_right _ hnormal) h
      refine le_trans ?_ (le_max_left _ _)
      omega
  have hshort := hn.short
  have hleast := hn.least
  unfold ulps
  obtain heq | hlt := eq_or_lt_of_le hle
  · have hn : n ≤ roundedMantissa m e := by
      rw [roundedMantissa, ← heq, Int.toNat_of_nonpos (by omega), pow_zero, mul_one]
      exact le_roundOff h
    omega
  · have hfull := le_roundedMantissa hpos (by omega : roundedExponent m e ≠ -1074)
    omega

/-- Rounding does not go above a number that needs no rounding. -/
theorem rounded_le (hn : Canonical n f) (hef : e ≤ f) (hpos : 0 < m)
    (h : m ≤ n * 2 ^ (f - e).toNat) :
    ulps (roundedMantissa m e) (roundedExponent m e) ≤ ulps n f := by
  have hle : roundedExponent m e ≤ f := by
    have hbits : m.log2 < 53 + (f - e).toNat := by
      rw [Nat.log2_lt hpos.ne', pow_add]
      exact lt_of_le_of_lt h (Nat.mul_lt_mul_of_pos_right hn.short (Nat.two_pow_pos _))
    have hleast := hn.least
    unfold roundedExponent
    omega
  have hlong := roundedMantissa_le m e
  have hleast : -1074 ≤ roundedExponent m e := le_max_right _ _
  have hnormal := hn.normal
  unfold ulps
  obtain heq | hlt := eq_or_lt_of_le hle
  · have hn : roundedMantissa m e ≤ n := by
      rw [roundedMantissa, heq, Int.toNat_of_nonpos (by omega), pow_zero, mul_one]
      exact roundOff_le h
    omega
  · omega

/-- What is settled needs no more rounding. -/
theorem settle_canonical (hlong : m ≤ 2 ^ 53) (hleast : -1074 ≤ e)
    (hnormal : e = -1074 ∨ 2 ^ 52 ≤ m) (s : Sign) :
    ∃ q t, Canonical q t ∧ ulps q t = ulps m e ∧ settle s m e = ofMantissa s q t := by
  rw [settle]
  by_cases hcarry : m = 2 ^ 53
  · rw [if_pos hcarry]
    refine ⟨2 ^ 52, e + 1, ⟨by decide, by omega, .inr (Nat.le_refl _)⟩, ?_, rfl⟩
    rw [ulps, ulps, hcarry]
    push_cast
    ring
  · rw [if_neg hcarry]
    exact ⟨m, e, ⟨lt_of_le_of_ne hlong hcarry, hleast, hnormal⟩, rfl, rfl⟩

theorem round_canonical (hpos : 0 < m) (s : Sign) (e : Int) : ∃ q t, Canonical q t ∧
    ulps q t = ulps (roundedMantissa m e) (roundedExponent m e) ∧
    UnpackedFloat.round binary64 s m e = ofMantissa s q t := by
  rw [round_eq hpos]
  exact settle_canonical (roundedMantissa_le m e) (le_max_right _ _)
    (or_iff_not_imp_left.mpr (le_roundedMantissa hpos)) s

end Canonical

/-- The place of a number among all others, counted from zero. -/
def rank : UnpackedFloat → Int
  | .infinity s => s.apply (2047 * 2 ^ 52)
  | .notANumber | .zero _ => 0
  | .finite s m e _ => s.apply (ulps m e)

/-! ## Words -/

/-- A number as its word gives it back: one that is too large is infinite. -/
def stored (u : UnpackedFloat) : UnpackedFloat := unpack binary64 (pack binary64 u)

section Words

variable {s : Sign} {m : Nat} {e : Int}

theorem finite_congr {n : Nat} {f : Int} {hm : 0 < m} {hn : 0 < n} (h : m = n) (h' : e = f) :
    UnpackedFloat.finite s m e hm = .finite s n f hn := by
  subst h h'
  rfl

theorem finite_eq_ofParts (hm : Canonical m e) (he : e ≤ 971) (hpos : 0 < m) (s : Sign) :
    ∃ e' m', UnpackedFloat.finite s m e hpos = ofParts s e' m' := by
  obtain ⟨hshort, hleast, hnormal⟩ := hm
  by_cases hfull : 2 ^ 52 ≤ m
  · have he' : (BitVec.ofNat 11 (e + 1075).toNat).toNat = (e + 1075).toNat := by
      rw [BitVec.toNat_ofNat, Nat.mod_eq_of_lt]
      omega
    have hm' : (BitVec.ofNat 52 (m - 2 ^ 52)).toNat = m - 2 ^ 52 := by
      rw [BitVec.toNat_ofNat, Nat.mod_eq_of_lt]
      omega
    refine ⟨BitVec.ofNat 11 (e + 1075).toNat, BitVec.ofNat 52 (m - 2 ^ 52), ?_⟩
    rw [ofParts, if_neg, if_neg]
    · apply finite_congr
      · rw [toNat_implicit, hm']
        omega
      · rw [he']
        omega
    · intro h
      have h0 := congrArg BitVec.toNat h
      rw [he', BitVec.toNat_zero] at h0
      omega
    · intro h
      have h1 : (e + 1075).toNat = 2047 := he'.symm.trans (congrArg BitVec.toNat h)
      omega
  · obtain rfl : e = -1074 := hnormal.resolve_right hfull
    have hm' : (BitVec.ofNat 52 m).toNat = m := by
      rw [BitVec.toNat_ofNat, Nat.mod_eq_of_lt]
      omega
    refine ⟨0#11, BitVec.ofNat 52 m, ?_⟩
    rw [ofParts, if_neg (by decide), if_pos rfl, dif_neg]
    · exact finite_congr hm'.symm rfl
    · intro h
      have h0 := congrArg BitVec.toNat h
      rw [hm', BitVec.toNat_zero] at h0
      omega

theorem stored_finite (hm : Canonical m e) (he : e ≤ 971) (hpos : 0 < m) (s : Sign) :
    stored (.finite s m e hpos) = .finite s m e hpos := by
  obtain ⟨e', m', h⟩ := finite_eq_ofParts hm he hpos s
  rw [h, stored, unpack_pack_ofParts]

theorem stored_overflow (he : 971 < e) (hpos : 0 < m) (s : Sign) :
    stored (.finite s m e hpos) = .infinity s := by
  have hlarge : 2 ^ binary64.exponentBits ≤
      (e + binary64.exponentBias + binary64.mantissaBitsWithoutImplicit).toNat + 1 := by
    change 2048 ≤ (e + 1023 + 52).toNat + 1
    omega
  have hpack : pack binary64 (.finite s m e hpos) = packedInfinity binary64 s := if_pos hlarge
  rw [stored, hpack]
  exact unpack_packComponents s (-1#11) 0#52

/-- Every number has a mantissa and an exponent that need no rounding. -/
theorem canonical_of_unpack {x : Float} {hpos : 0 < m} (h : x.toModel.unpack = .finite s m e hpos) :
    Canonical m e ∧ e ≤ 971 := by
  have hparts := (unpack_eq_ofParts x.toModel.toBits.toBitVec).symm.trans h
  generalize @unpackExponent binary64 x.toModel.toBits.toBitVec = e' at hparts
  generalize @unpackMantissa binary64 x.toModel.toBits.toBitVec = m' at hparts
  have hexponent : e'.toNat < 2048 := e'.isLt
  have hmantissa : m'.toNat < 2 ^ 52 := m'.isLt
  by_cases hall : e' = -1#11
  · rw [ofParts, if_pos hall] at hparts
    split at hparts <;> cases hparts
  · have htop : e'.toNat ≠ 2047 := fun h => hall (BitVec.eq_of_toNat_eq h)
    by_cases hnone : e' = 0#11
    · subst hnone
      rw [ofParts, if_neg hall, if_pos rfl] at hparts
      split at hparts
      · cases hparts
      · cases hparts
        exact ⟨⟨by omega, by decide, .inl rfl⟩, by decide⟩
    · rw [ofParts, if_neg hall, if_neg hnone] at hparts
      have hbottom : e'.toNat ≠ 0 := fun h => hnone (BitVec.eq_of_toNat_eq h)
      have himplicit := toNat_implicit m'
      cases hparts
      exact ⟨⟨by omega, by omega, .inr (by omega)⟩, by omega⟩

end Words

/-! ## Sums -/

section Signs

variable (s : Sign)

theorem sign_apply_zero : s.apply 0 = 0 := by cases s <;> rfl

theorem sign_apply_add (a b : Int) : s.apply a + s.apply b = s.apply (a + b) := by
  cases s with
  | positive => rfl
  | negative => exact (neg_add a b).symm

theorem sign_apply_neg (a : Int) : s.apply (-a) = -s.apply a := by cases s <;> rfl

theorem neg_sign_apply (a : Int) : (-s).apply a = -s.apply a := by
  cases s with
  | positive => rfl
  | negative => exact (neg_neg a).symm

theorem sign_apply_apply (a : Int) : s.apply (s.apply a) = a := by
  cases s with
  | positive => rfl
  | negative => exact neg_neg a

theorem sign_eq_or_neg (t : Sign) : t = s ∨ t = -s := by
  cases s <;> cases t <;> simp [Neg.neg]

end Signs

section Rounded

variable {s : Sign} {m n : Nat} {e f : Int}

theorem rank_ofMantissa (hm : Canonical m e) : rank (ofMantissa s m e) = s.apply (ulps m e) := by
  by_cases hzero : m = 0
  · have hnormal := hm.normal
    have hnone : ulps m e = 0 := by
      unfold ulps
      omega
    rw [ofMantissa, dif_pos hzero, rank, hnone, sign_apply_zero]
  · rw [ofMantissa, dif_neg hzero, rank]

theorem stored_notANumber : stored .notANumber = .notANumber := rfl

theorem stored_zero (s : Sign) : stored (.zero s) = .zero s := by cases s <;> rfl

theorem stored_infinity (s : Sign) : stored (.infinity s) = .infinity s := by cases s <;> rfl

theorem stored_ofMantissa (hm : Canonical m e) (he : e ≤ 971) :
    stored (ofMantissa s m e) = ofMantissa s m e := by
  unfold ofMantissa
  split
  · exact stored_zero s
  · exact stored_finite hm he _ s

/-- The place of a stored number: the largest numbers are infinite. -/
theorem rank_stored_ofMantissa (hm : Canonical m e) :
    rank (stored (ofMantissa s m e)) = s.apply (min (ulps m e) (2047 * 2 ^ 52)) := by
  by_cases he : e ≤ 971
  · rw [stored_ofMantissa hm he, rank_ofMantissa hm, min_eq_left (hm.ulps_lt he).le]
  · have hfull : 2 ^ 52 ≤ m := hm.normal.resolve_left (by omega)
    have hlarge : 2047 * 2 ^ 52 ≤ ulps m e := by
      unfold ulps
      omega
    rw [ofMantissa, dif_neg (by omega), stored_overflow (by omega), rank, min_eq_right hlarge]

theorem rank_stored_round (hm : 0 < m) :
    s.apply (rank (stored (UnpackedFloat.round binary64 s m e))) =
    min (ulps (roundedMantissa m e) (roundedExponent m e)) (2047 * 2 ^ 52) := by
  obtain ⟨q, t, hq, hulps, hround⟩ := round_canonical hm s e
  rw [hround, ← hulps, rank_stored_ofMantissa hq, sign_apply_apply]

/-- A rounded number that is in the place of another is that other. -/
theorem stored_round_eq (hm : 0 < m) (hn : Canonical n f) (hf : f ≤ 971) (hpos : 0 < n)
    (h : ulps (roundedMantissa m e) (roundedExponent m e) = ulps n f) :
    stored (UnpackedFloat.round binary64 s m e) = .finite s n f hpos := by
  obtain ⟨q, t, hq, hulps, hround⟩ := round_canonical hm s e
  obtain ⟨rfl, rfl⟩ := hq.ulps_injective hn (hulps.trans h)
  rw [hround, stored_ofMantissa hq hf, ofMantissa, dif_neg hpos.ne']

theorem normalize_apply (hm : 0 < m) (s z : Sign) (e : Int) :
    UnpackedFloat.normalize binary64 (s.apply m) e z = UnpackedFloat.round binary64 s m e := by
  have hpos : (0 : Int) < m := Int.natCast_pos.mpr hm
  cases s with
  | positive =>
    have hsign : compare (m : Int) 0 = .gt := Int.compare_eq_gt.mpr hpos
    change UnpackedFloat.normalize binary64 m e z = _
    rw [UnpackedFloat.normalize, hsign]
    rfl
  | negative =>
    have hsign : compare (-m : Int) 0 = .lt := Int.compare_eq_lt.mpr (Int.neg_neg_of_pos hpos)
    change UnpackedFloat.normalize binary64 (-m) e z = _
    rw [UnpackedFloat.normalize, hsign]
    simp only [neg_neg, Int.toNat_natCast]

end Rounded

/-- In the direction of a sign, a number does not stand before another: it is the other, or stands
after it. Or it is no number. -/
def Reaches (s : Sign) (u r : UnpackedFloat) : Prop :=
  r = .notANumber ∨ r = u ∨ s.apply (rank u) < s.apply (rank r)

section Finite

variable {s : Sign} {m n : Nat} {e f : Int}

theorem reaches_round_same (hn : Canonical n f) (hf : f ≤ 971) (hpos : 0 < n) (hef : e ≤ f)
    (hm : 0 < m) (h : n * 2 ^ (f - e).toNat ≤ m) :
    Reaches s (.finite s n f hpos) (stored (UnpackedFloat.round binary64 s m e)) := by
  have hle := le_rounded hn hef hm h
  have hlt := hn.ulps_lt hf
  obtain heq | hulps := eq_or_lt_of_le hle
  · exact .inr (.inl (stored_round_eq hm hn hf hpos heq.symm))
  · refine .inr (.inr ?_)
    rw [rank_stored_round hm, rank, sign_apply_apply]
    exact lt_min hulps hlt

theorem reaches_round_opposite (hn : Canonical n f) (hf : f ≤ 971) (hpos : 0 < n) (hef : e ≤ f)
    (hm : 0 < m) (h : m ≤ n * 2 ^ (f - e).toNat) :
    Reaches s (.finite (-s) n f hpos) (stored (UnpackedFloat.round binary64 (-s) m e)) := by
  have hle := rounded_le hn hef hm h
  obtain heq | hulps := eq_or_lt_of_le hle
  · exact .inr (.inl (stored_round_eq hm hn hf hpos heq))
  · refine .inr (.inr ?_)
    have hrank := rank_stored_round (s := -s) (e := e) hm
    rw [neg_sign_apply] at hrank
    rw [rank, neg_sign_apply, sign_apply_neg, sign_apply_apply, neg_lt, hrank]
    exact lt_of_le_of_lt (min_le_left _ _) hulps

theorem rounded_nonneg (hm : 0 < m) :
    0 ≤ s.apply (rank (stored (UnpackedFloat.round binary64 s m e))) := by
  have hleast : -1074 ≤ roundedExponent m e := le_max_right _ _
  rw [rank_stored_round hm, ulps]
  omega

/-- A sum of finite numbers, with both mantissas moved to the lesser exponent. -/
theorem add_finite (s t : Sign) {hm : 0 < m} {hn : 0 < n} :
    UnpackedFloat.add binary64 (.finite s m e hm) (.finite t n f hn) =
      UnpackedFloat.normalize binary64
        (s.apply ((m * 2 ^ (e - min e f).toNat : Nat)) +
          t.apply ((n * 2 ^ (f - min e f).toNat : Nat)))
        (min e f) .positive := by
  rw [← Nat.shiftLeft_eq, ← Nat.shiftLeft_eq]
  rfl

theorem reaches_add_finite (s t : Sign) (hm : Canonical m e) (he : e ≤ 971) (hpos : 0 < m)
    (hn : 0 < n) :
    Reaches t (.finite s m e hpos)
      (stored (UnpackedFloat.add binary64 (.finite s m e hpos) (.finite t n f hn))) := by
  have hleast : min e f ≤ e := min_le_left e f
  have hstep : 0 < n * 2 ^ (f - min e f).toNat := Nat.mul_pos hn (Nat.two_pow_pos _)
  rw [add_finite]
  generalize ha : m * 2 ^ (e - min e f).toNat = a
  generalize n * 2 ^ (f - min e f).toNat = d at hstep
  obtain rfl | rfl := sign_eq_or_neg t s
  · rw [sign_apply_add, ← Nat.cast_add, normalize_apply (by omega)]
    exact reaches_round_same hm he hpos hleast (by omega) (by omega)
  · have hbefore : t.apply (rank (.finite (-t) m e hpos)) < 0 := by
      have hulps := hm.ulps_pos hpos
      rw [rank, neg_sign_apply, sign_apply_neg, sign_apply_apply]
      omega
    rw [neg_sign_apply, ← sign_apply_neg, sign_apply_add]
    obtain hlt | rfl | hgt := lt_trichotomy a d
    · rw [show (-(a : Int) + d) = (d - a : Nat) by omega, normalize_apply (by omega)]
      exact .inr (.inr (lt_of_lt_of_le hbefore (rounded_nonneg (by omega))))
    · have hnone : stored (UnpackedFloat.normalize binary64 0 (min e f) .positive) =
          .zero .positive :=
        stored_zero .positive
      rw [neg_add_cancel, sign_apply_zero, hnone]
      refine .inr (.inr ?_)
      rwa [show rank (.zero .positive) = 0 from rfl, sign_apply_zero]
    · rw [show (-(a : Int) + d) = -(a - d : Nat) by omega, sign_apply_neg, ← neg_sign_apply,
        normalize_apply (by omega)]
      exact reaches_round_opposite hm he hpos hleast (by omega) (by omega)

end Finite

/-- The numbers other than zero that have a sign. -/
def Points (s : Sign) : UnpackedFloat → Prop
  | .infinity t | .finite t _ _ _ => t = s
  | .notANumber | .zero _ => False

theorem unpack_add (x y : Float) :
    (x + y).toModel.unpack =
      stored (UnpackedFloat.add binary64 x.toModel.unpack y.toModel.unpack) := rfl

theorem Points.cases {s : Sign} {u : UnpackedFloat} (h : Points s u) :
    u = .infinity s ∨ ∃ m e hm, u = .finite s m e hm := by
  cases u with
  | infinity t =>
    obtain rfl : t = s := h
    exact .inl rfl
  | notANumber | zero t => exact h.elim
  | finite t m e hm =>
    obtain rfl : t = s := h
    exact .inr ⟨m, e, hm, rfl⟩

theorem rank_unpack_lt {x : Float} {t : Sign} {m : Nat} {e : Int} {hm : 0 < m}
    (hx : x.toModel.unpack = .finite t m e hm) (s : Sign) :
    -(2047 * 2 ^ 52) < s.apply (t.apply (ulps m e)) ∧
    s.apply (t.apply (ulps m e)) < 2047 * 2 ^ 52 := by
  obtain ⟨hcanonical, he⟩ := canonical_of_unpack hx
  have hpos := hcanonical.ulps_pos hm
  have hlt := hcanonical.ulps_lt he
  cases s <;> cases t <;> simp only [Sign.apply] <;> omega

theorem rank_unpack_le (x : Float) (s : Sign) :
    -(2047 * 2 ^ 52) ≤ s.apply (rank x.toModel.unpack) ∧
    s.apply (rank x.toModel.unpack) ≤ 2047 * 2 ^ 52 := by
  cases hx : x.toModel.unpack with
  | infinity t => cases s <;> cases t <;> decide
  | notANumber | zero t =>
    rw [rank, sign_apply_zero]
    decide
  | finite t m e hm =>
    have hlt := rank_unpack_lt hx s
    exact ⟨hlt.1.le, hlt.2.le⟩

/-- A sum is not on the wrong side of the number that is added to. -/
theorem reaches_add (x : Float) {y : Float} {s : Sign} (hy : Points s y.toModel.unpack) :
    Reaches s x.toModel.unpack (x + y).toModel.unpack := by
  rw [unpack_add]
  obtain hy | ⟨n, f, hn, hy⟩ := hy.cases
  · rw [hy]
    cases hx : x.toModel.unpack with
    | notANumber => exact .inl stored_notANumber
    | infinity t =>
      obtain rfl | rfl := sign_eq_or_neg s t
      · refine .inr (.inl ?_)
        cases t <;> rfl
      · refine .inl ?_
        cases s <;> rfl
    | zero t =>
      refine .inr (.inr ?_)
      cases s <;> cases t <;> decide
    | finite t m e hm =>
      refine .inr (.inr ?_)
      have hsum : UnpackedFloat.add binary64 (.finite t m e hm) (.infinity s) = .infinity s := rfl
      rw [hsum, stored_infinity, rank, rank, sign_apply_apply]
      exact (rank_unpack_lt hx s).2
  · rw [hy]
    obtain ⟨hcanonical, hf⟩ := canonical_of_unpack hy
    cases hx : x.toModel.unpack with
    | notANumber => exact .inl stored_notANumber
    | infinity t => exact .inr (.inl (stored_infinity t))
    | zero t =>
      refine .inr (.inr ?_)
      have hsum : UnpackedFloat.add binary64 (.zero t) (.finite s n f hn) = .finite s n f hn := rfl
      rw [hsum, stored_finite hcanonical hf, rank, rank, sign_apply_zero, sign_apply_apply]
      exact hcanonical.ulps_pos hn
    | finite t m e hm =>
      obtain ⟨hcanonical, he⟩ := canonical_of_unpack hx
      exact reaches_add_finite t s hcanonical he hm hn

/-- A sum with a positive or a negative number is the number that it was added to, or stands on its
side of it. -/
theorem add_toward (x : Float) {y : Float} {s : Sign} (hy : Points s y.toModel.unpack)
    (h : (x + y).isNaN = false) :
    x + y = x ∨ s.apply (rank x.toModel.unpack) < s.apply (rank (x + y).toModel.unpack) := by
  obtain hnan | heq | hlt := reaches_add x hy
  · change (x + y).toModel.unpack.isNaN = false at h
    rw [hnan] at h
    cases h
  · exact .inl (Number.eq_of_unpack heq)
  · exact .inr hlt

end PolarPlot
