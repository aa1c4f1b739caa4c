import PolarPlot.Proofs.Sums

/-!
# The order of binary64 numbers

Numbers are compared by their places among all numbers, counted from zero
(`compare_eq_compare_rank`). Comparisons thus become comparisons of integers: `float_le_iff`,
`float_lt_iff` and `float_beq_iff`.
-/

namespace PolarPlot

open Float.Model hiding pack unpack
open Float.Model.UnpackedFloat Number

section Order

variable {m n : Nat} {e f : Int}

theorem Canonical.compare_ulps (hm : Canonical m e) (hn : Canonical n f) :
    (compare e f).then (compare m n) = compare (ulps m e) (ulps n f) := by
  obtain ⟨hshort, hleast, hnormal⟩ := hm
  obtain ⟨hshort', hleast', hnormal'⟩ := hn
  obtain hlt | rfl | hgt := lt_trichotomy e f
  · rw [Int.compare_eq_lt.mpr hlt, Ordering.lt_then, eq_comm, Int.compare_eq_lt, ulps, ulps]
    omega
  · rw [Int.compare_eq_eq.mpr rfl, Ordering.eq_then]
    obtain hlt | rfl | hgt := lt_trichotomy m n
    · rw [Nat.compare_eq_lt.mpr hlt, eq_comm, Int.compare_eq_lt, ulps, ulps]
      omega
    · rw [Nat.compare_eq_eq.mpr rfl, eq_comm, Int.compare_eq_eq]
    · rw [Nat.compare_eq_gt.mpr hgt, eq_comm, Int.compare_eq_gt, ulps, ulps]
      omega
  · rw [Int.compare_eq_gt.mpr hgt, Ordering.gt_then, eq_comm, Int.compare_eq_gt, ulps, ulps]
    omega

theorem swap_compare (a b : Int) : (compare a b).swap = compare (-a) (-b) := by
  obtain hlt | rfl | hgt := lt_trichotomy a b
  · rw [Int.compare_eq_lt.mpr hlt, Int.compare_eq_gt.mpr (Int.neg_lt_neg hlt), Ordering.swap_lt]
  · rw [Int.compare_eq_eq.mpr rfl, Int.compare_eq_eq.mpr rfl, Ordering.swap_eq]
  · rw [Int.compare_eq_gt.mpr hgt, Int.compare_eq_lt.mpr (Int.neg_lt_neg hgt), Ordering.swap_gt]

theorem unpack_cases {x : Float} (hx : x.isNaN = false) :
    (∃ s, x.toModel.unpack = .infinity s) ∨ (∃ s, x.toModel.unpack = .zero s) ∨
      ∃ s m e hm, x.toModel.unpack = .finite s m e hm := by
  change x.toModel.unpack.isNaN = false at hx
  cases hu : x.toModel.unpack with
  | notANumber =>
    rw [hu] at hx
    cases hx
  | infinity s => exact .inl ⟨s, rfl⟩
  | zero s => exact .inr (.inl ⟨s, rfl⟩)
  | finite s m e hm => exact .inr (.inr ⟨s, m, e, hm, rfl⟩)

/-- Numbers are compared by their places. -/
theorem compare_eq_compare_rank {x y : Float} (hx : x.isNaN = false) (hy : y.isNaN = false) :
    x.toModel.unpack.compare y.toModel.unpack =
      some (compare (rank x.toModel.unpack) (rank y.toModel.unpack)) := by
  obtain ⟨s, hu⟩ | ⟨s, hu⟩ | ⟨s, m, e, hm, hu⟩ := unpack_cases hx <;> rw [hu]
  · obtain ⟨t, hv⟩ | ⟨t, hv⟩ | ⟨t, n, f, hn, hv⟩ := unpack_cases hy <;> rw [hv]
    · cases s <;> cases t <;> rfl
    · cases s <;> rfl
    · obtain ⟨hlower, hupper⟩ := rank_unpack_lt hv .positive
      cases s with
      | positive => exact congrArg some (Int.compare_eq_gt.mpr hupper).symm
      | negative => exact congrArg some (Int.compare_eq_lt.mpr hlower).symm
  · obtain ⟨t, hv⟩ | ⟨t, hv⟩ | ⟨t, n, f, hn, hv⟩ := unpack_cases hy <;> rw [hv]
    · cases t <;> rfl
    · rfl
    · have hpos := (canonical_of_unpack hv).1.ulps_pos hn
      cases t with
      | positive => exact congrArg some (Int.compare_eq_lt.mpr hpos).symm
      | negative => exact congrArg some (Int.compare_eq_gt.mpr (Int.neg_neg_of_pos hpos)).symm
  · obtain ⟨hlower, hupper⟩ := rank_unpack_lt hu .positive
    have hcanonical := (canonical_of_unpack hu).1
    have hpos := hcanonical.ulps_pos hm
    obtain ⟨t, hv⟩ | ⟨t, hv⟩ | ⟨t, n, f, hn, hv⟩ := unpack_cases hy <;> rw [hv]
    · cases t with
      | positive => cases s <;> exact congrArg some (Int.compare_eq_lt.mpr hupper).symm
      | negative => cases s <;> exact congrArg some (Int.compare_eq_gt.mpr hlower).symm
    · cases s with
      | positive => exact congrArg some (Int.compare_eq_gt.mpr hpos).symm
      | negative => exact congrArg some (Int.compare_eq_lt.mpr (Int.neg_neg_of_pos hpos)).symm
    · have hcanonical' := (canonical_of_unpack hv).1
      have hpos' := hcanonical'.ulps_pos hn
      cases s with
      | positive =>
        cases t with
        | positive => exact congrArg some (hcanonical.compare_ulps hcanonical')
        | negative =>
          exact congrArg some (Int.compare_eq_gt.mpr (by change -ulps n f < ulps m e; omega)).symm
      | negative =>
        cases t with
        | positive =>
          exact congrArg some (Int.compare_eq_lt.mpr (by change -ulps m e < ulps n f; omega)).symm
        | negative =>
          change some ((compare e f).then (compare m n)).swap =
            some (compare (-ulps m e) (-ulps n f))
          rw [hcanonical.compare_ulps hcanonical', swap_compare]

theorem sign_apply_injective {s t : Sign} {a b : Int} (ha : 0 < a) (hb : 0 < b)
    (h : s.apply a = t.apply b) : s = t ∧ a = b := by
  cases s with
  | positive =>
    cases t with
    | positive => exact ⟨rfl, h⟩
    | negative =>
      change a = -b at h
      omega
  | negative =>
    cases t with
    | positive =>
      change -a = b at h
      omega
    | negative => exact ⟨rfl, Int.neg_inj.mp h⟩

/-- A number other than zero is known by its place. -/
theorem eq_of_rank_eq {x y : Float} (h : rank x.toModel.unpack = rank y.toModel.unpack)
    (hne : rank x.toModel.unpack ≠ 0) : x = y := by
  have hinf : (0 : Int) < 2047 * 2 ^ 52 := by decide
  apply eq_of_unpack
  cases hu : x.toModel.unpack with
  | zero | notANumber =>
    rw [hu] at hne
    exact absurd rfl hne
  | infinity s =>
    rw [hu] at h hne
    cases hv : y.toModel.unpack with
    | zero | notANumber =>
      rw [hv] at h
      exact absurd h hne
    | infinity t =>
      rw [hv] at h
      rw [(sign_apply_injective hinf hinf h).1]
    | finite t n f hn =>
      obtain ⟨hcanonical, hf⟩ := canonical_of_unpack hv
      rw [hv] at h
      exact absurd (sign_apply_injective hinf (hcanonical.ulps_pos hn) h).2
        (hcanonical.ulps_lt hf).ne'
  | finite s m e hm =>
    obtain ⟨hcanonical, he⟩ := canonical_of_unpack hu
    have hpos := hcanonical.ulps_pos hm
    rw [hu] at h hne
    cases hv : y.toModel.unpack with
    | zero | notANumber =>
      rw [hv] at h
      exact absurd h hne
    | infinity t =>
      rw [hv] at h
      exact absurd (sign_apply_injective hpos hinf h).2 (hcanonical.ulps_lt he).ne
    | finite t n f hn =>
      obtain ⟨hcanonical', -⟩ := canonical_of_unpack hv
      rw [hv] at h
      obtain ⟨rfl, hulps⟩ := sign_apply_injective hpos (hcanonical'.ulps_pos hn) h
      obtain ⟨hmantissa, hexponent⟩ := hcanonical.ulps_injective hcanonical' hulps
      exact finite_congr hmantissa hexponent

theorem float_le_iff {x y : Float} (hx : x.isNaN = false) (hy : y.isNaN = false) :
    x ≤ y ↔ rank x.toModel.unpack ≤ rank y.toModel.unpack := by
  rw [le_iff_compare, compare_eq_compare_rank hx hy, Option.any_some, Int.isLE_compare]

theorem float_lt_iff {x y : Float} (hx : x.isNaN = false) (hy : y.isNaN = false) :
    x < y ↔ rank x.toModel.unpack < rank y.toModel.unpack := by
  rw [lt_iff_compare, compare_eq_compare_rank hx hy, Option.some.injEq, Int.compare_eq_lt]

theorem beq_iff_compare (x y : Float) :
    (x == y) = true ↔ x.toModel.unpack.compare y.toModel.unpack = some .eq := by
  change (x.toModel.unpack.compare y.toModel.unpack == some .eq) = true ↔ _
  exact beq_iff_eq

theorem float_beq_iff {x y : Float} (hx : x.isNaN = false) (hy : y.isNaN = false) :
    (x == y) = true ↔ rank x.toModel.unpack = rank y.toModel.unpack := by
  rw [beq_iff_compare, compare_eq_compare_rank hx hy, Option.some.injEq, Int.compare_eq_eq]

theorem float_le_refl {x : Float} (hx : x.isNaN = false) : x ≤ x :=
  (float_le_iff hx hx).mpr (le_refl _)

theorem float_le_trans {x y z : Float} (h : x ≤ y) (h' : y ≤ z) : x ≤ z := by
  obtain ⟨hx, hy⟩ := isNaN_of_le h
  have hz := (isNaN_of_le h').2
  rw [float_le_iff hx hy] at h
  rw [float_le_iff hy hz] at h'
  exact (float_le_iff hx hz).mpr (h.trans h')

theorem float_not_lt {x y : Float} (hx : x.isNaN = false) (hy : y.isNaN = false) :
    ¬ x < y ↔ y ≤ x := by
  rw [float_lt_iff hx hy, float_le_iff hy hx, not_lt]

theorem float_lt_of_le {x y : Float} (h : x ≤ y) (hne : ¬ (y == x) = true) : x < y := by
  obtain ⟨hx, hy⟩ := isNaN_of_le h
  rw [float_le_iff hx hy] at h
  rw [float_beq_iff hy hx] at hne
  exact (float_lt_iff hx hy).mpr (lt_of_le_of_ne h (Ne.symm hne))

end Order

end PolarPlot
