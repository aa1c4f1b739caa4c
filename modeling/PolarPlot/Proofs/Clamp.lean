import PolarPlot.Drawing.Buffer

/-!
# Clamped radii

A clamped radius is never outside of the unit circle (`Buffer.not_lt_abs_clamp`). The order and the
length of binary64 numbers are given on their words, so the proof goes through the parts of a word:
the length of a number has the word with its sign taken away (`unpack_pack_abs`).
-/

namespace PolarPlot

open Float.Model hiding pack unpack
open Float.Model.UnpackedFloat Float.Model.Format

/-! ## Words -/

section Words

variable {s : Sign} {e : BitVec 11} {m : BitVec 52}

theorem sign_packComponents (s : Sign) (e : BitVec 11) (m : BitVec 52) :
    Sign.ofBitVec (@unpackSign binary64 (packComponents binary64 s e m)) = s := by
  have htop : @unpackSign binary64 (packComponents binary64 s e m) =
      (s.toBitVec ++ e ++ m).extractLsb' 63 1 := rfl
  -- The bit above the mantissa and the exponent is the sign.
  rw [htop, BitVec.extractLsb'_append_eq_of_le (by decide),
    BitVec.extractLsb'_append_eq_of_le (by decide)]
  cases s <;> rfl

theorem pack_subnormal (hm : 0 < m.toNat) :
    pack binary64 (.finite s m.toNat (-1074) hm) = packComponents binary64 s 0#11 m := by
  have hfits : ¬ 2 ^ binary64.exponentBits ≤
      ((-1074 : Int) + binary64.exponentBias + binary64.mantissaBitsWithoutImplicit).toNat + 1 := by
    decide
  have hsmall : ¬ m.toNat.log2 + 1 = binary64.mantissaBits := by
    have hlog : m.toNat.log2 < 52 := (Nat.log2_lt (Nat.ne_of_gt hm)).mpr m.isLt
    change ¬ m.toNat.log2 + 1 = 53
    omega
  unfold pack
  simp only [if_neg hfits, if_neg hsmall]
  rw [BitVec.ofNat_toNat, BitVec.setWidth_eq]

theorem toNat_implicit (m : BitVec 52) : (1#1 ++ m).toNat = 4503599627370496 + m.toNat :=
  (Nat.two_pow_add_eq_or_of_lt m.isLt 1).symm

theorem pack_normal (he : e ≠ -1#11) (hm : 0 < (1#1 ++ m).toNat) :
    pack binary64 (.finite s (1#1 ++ m).toNat (e.toNat - 1075) hm) =
      packComponents binary64 s e m := by
  have hlt : e.toNat < 2047 := by
    have hword := e.isLt
    have hne : e.toNat ≠ 2047 := fun h => he (BitVec.eq_of_toNat_eq h)
    omega
  have hbias : ((e.toNat : Int) - 1075 + binary64.exponentBias +
      binary64.mantissaBitsWithoutImplicit).toNat = e.toNat := by
    change ((e.toNat : Int) - 1075 + 1023 + 52).toNat = e.toNat
    omega
  have hfits : ¬ 2 ^ binary64.exponentBits ≤ e.toNat + 1 := by
    change ¬ 2048 ≤ e.toNat + 1
    omega
  have hlarge : (1#1 ++ m).toNat.log2 + 1 = binary64.mantissaBits := by
    have hword := m.isLt
    have hlog : (1#1 ++ m).toNat.log2 = 52 := by
      rw [toNat_implicit, Nat.log2_eq_iff (by omega)]
      omega
    rw [hlog]
    rfl
  have hmantissa : BitVec.ofNat 52 (1#1 ++ m).toNat = m := by
    apply BitVec.eq_of_toNat_eq
    have hword := m.isLt
    rw [BitVec.toNat_ofNat, toNat_implicit]
    omega
  have hexponent : BitVec.ofNat 11 e.toNat = e := by simp
  unfold pack
  simp only [hbias, if_neg hfits, if_pos hlarge]
  rw [hexponent, hmantissa]

/-- The number with a sign, an exponent and a mantissa. -/
def ofParts (s : Sign) (e : BitVec 11) (m : BitVec 52) : UnpackedFloat :=
  if e = -1#11 then
    if m = 0#52 then .infinity s else .notANumber
  else if e = 0#11 then
    if h : m = 0#52 then .zero s
    else .finite s m.toNat (e.toNat - 1075 + 1)
      (by simpa [BitVec.toNat_pos, BitVec.pos_iff_ne_zero])
  else .finite s (1#1 ++ m).toNat (e.toNat - 1075) (by rw [toNat_implicit]; omega)

theorem unpack_eq_ofParts (b : BitVec 64) :
    unpack binary64 b = ofParts (.ofBitVec (@unpackSign binary64 b))
      (@unpackExponent binary64 b) (@unpackMantissa binary64 b) := rfl

theorem unpack_packComponents (s : Sign) (e : BitVec 11) (m : BitVec 52) :
    unpack binary64 (packComponents binary64 s e m) = ofParts s e m := by
  have he : unpackExponent (packComponents binary64 s e m) = e := unpackExponent_packComponents
  have hm : unpackMantissa (packComponents binary64 s e m) = m := unpackMantissa_packComponents
  rw [unpack_eq_ofParts, sign_packComponents, he, hm]

theorem abs_ofParts (s : Sign) : (ofParts s e m).abs = ofParts .positive e m := by
  by_cases he : e = -1#11
  · by_cases hm : m = 0#52
    · rw [ofParts, ofParts, if_pos he, if_pos he, if_pos hm, if_pos hm]
      rfl
    · rw [ofParts, ofParts, if_pos he, if_pos he, if_neg hm, if_neg hm]
      rfl
  · by_cases h0 : e = 0#11
    · by_cases hm : m = 0#52
      · rw [ofParts, ofParts, if_neg he, if_neg he, if_pos h0, if_pos h0, dif_pos hm, dif_pos hm]
        rfl
      · rw [ofParts, ofParts, if_neg he, if_neg he, if_pos h0, if_pos h0, dif_neg hm, dif_neg hm]
        rfl
    · rw [ofParts, ofParts, if_neg he, if_neg he, if_neg h0, if_neg h0]
      rfl

theorem unpack_pack_ofParts :
    unpack binary64 (pack binary64 (ofParts s e m)) = ofParts s e m := by
  by_cases he : e = -1#11
  · by_cases hm : m = 0#52
    · rw [ofParts, if_pos he, if_pos hm]
      cases s <;> rfl
    · rw [ofParts, if_pos he, if_neg hm]
      rfl
  · suffices hpack : pack binary64 (ofParts s e m) = packComponents binary64 s e m by
      rw [hpack, unpack_packComponents]
    by_cases h0 : e = 0#11
    · subst h0
      by_cases hm : m = 0#52
      · subst hm
        rfl
      · rw [ofParts, if_neg he, if_pos rfl, dif_neg hm]
        exact pack_subnormal _
    · rw [ofParts, if_neg he, if_neg h0]
      exact pack_normal he _

/-- The length of a number keeps all of its word but the sign. -/
theorem unpack_pack_abs (b : BitVec 64) :
    unpack binary64 (pack binary64 (unpack binary64 b).abs) = (unpack binary64 b).abs := by
  rw [unpack_eq_ofParts b, abs_ofParts, unpack_pack_ofParts]

end Words

/-! ## Numbers -/

theorem lt_iff_compare (x y : Float) :
    x < y ↔ x.toModel.unpack.compare y.toModel.unpack = some .lt := by
  change decide (x.toModel < y.toModel) = true ↔ _
  rw [decide_eq_true_iff]
  change (x.toModel.unpack.compare y.toModel.unpack == some .lt) = true ↔ _
  exact beq_iff_eq

theorem le_iff_compare (x y : Float) :
    x ≤ y ↔ (x.toModel.unpack.compare y.toModel.unpack).any (·.isLE) = true := by
  change decide (x.toModel ≤ y.toModel) = true ↔ _
  rw [decide_eq_true_iff]
  rfl

theorem float_le_of_lt {x y : Float} (h : x < y) : x ≤ y := by
  rw [lt_iff_compare] at h
  rw [le_iff_compare, h]
  rfl

/-- What is compared with something is a number. -/
theorem isNaN_of_le {x y : Float} (h : x ≤ y) : x.isNaN = false ∧ y.isNaN = false := by
  rw [le_iff_compare] at h
  change x.toModel.unpack.isNaN = false ∧ y.toModel.unpack.isNaN = false
  generalize x.toModel.unpack = u, y.toModel.unpack = v at h
  constructor
  · cases u with
    | notANumber => cases v <;> cases h
    | infinity | zero | finite => rfl
  · cases v with
    | notANumber => cases u <;> cases h
    | infinity | zero | finite => rfl

theorem unpack_abs (x : Float) : x.abs.toModel.unpack = x.toModel.unpack.abs :=
  unpack_pack_abs x.toModel.toBits.toBitVec

theorem unpack_one :
    (1 : Float).toModel.unpack = .finite .positive 4503599627370496 (-52) (by decide) := rfl

theorem unpack_neg_one :
    (-1 : Float).toModel.unpack = .finite .negative 4503599627370496 (-52) (by decide) := rfl

theorem not_lt_abs {x : Float} (hl : -1 < x) (hr : x < 1) : ¬ 1 < x.abs := by
  rw [lt_iff_compare, unpack_neg_one] at hl
  rw [lt_iff_compare, unpack_one] at hr
  rw [lt_iff_compare, unpack_one, unpack_abs]
  generalize x.toModel.unpack = u at hl hr
  intro h
  cases u with
  | infinity s =>
    cases s with
    | negative => cases hl
    | positive => cases hr
  | notANumber => cases hl
  | zero s => cases h
  | finite s m e hm =>
    change some ((compare (-52) e).then (compare 4503599627370496 m)) = some .lt at h
    rw [Option.some.injEq] at h
    cases s with
    | negative =>
      change some ((compare (-52) e).then (compare 4503599627370496 m)).swap = some .lt at hl
      rw [h] at hl
      cases hl
    | positive =>
      change some ((compare e (-52)).then (compare m 4503599627370496)) = some .lt at hr
      rw [Option.some.injEq] at hr
      simp only [Ordering.then_eq_lt, Int.compare_eq_lt, Int.compare_eq_eq,
        Nat.compare_eq_lt] at h hr
      omega

namespace Buffer

theorem clamp_cases (x : Float) :
    (-1 < x ∧ x < 1 ∧ clamp x = x) ∨ (-1 < x ∧ ¬ x < 1 ∧ clamp x = 1) ∨
    (¬ -1 < x ∧ clamp x = -1) := by
  unfold clamp
  by_cases hl : -1 < x
  · by_cases hr : x < 1
    · simp [hl, hr]
    · simp [hl, hr]
  · have hneg : (-1 : Float) < 1 := by decide
    simp [hl, hneg]

theorem not_lt_abs_clamp (x : Float) : ¬ 1 < (clamp x).abs := by
  obtain ⟨hl, hr, h⟩ | ⟨_, _, h⟩ | ⟨_, h⟩ := clamp_cases x <;> rw [h]
  · exact not_lt_abs hl hr
  · decide
  · decide

end Buffer

end PolarPlot
