import PolarPlot.Proofs.Reordering

/-!
# Normalizing twice

After a buffer is normalized all its radii are clamped, and one of them has length 1, unless all are
zero. Its factor is 1 from then on (`Buffer.factor_rescaled`), and dividing a clamped radius by 1
and clamping it changes nothing. So a second normalized target in front of another one makes no
difference (`normalized_normalized`).
-/

namespace PolarPlot

open Float.Model hiding pack unpack
open Float.Model.UnpackedFloat Float.Model.Format Number

/-! ## Exact quotients -/

section Exact

variable {m : Nat} {e : Int}

theorem nearestBits_div_one (hm : Canonical m e) (he : e ≤ 971) (hpos : 0 < m) :
    (nearestBits (quotientNum m e (-52)) (quotientDen (2 ^ 52) e (-52)) : Int) = ulps m e := by
  obtain ⟨hshort, hleast, hnormal⟩ := hm
  have hden : 0 < quotientDen (2 ^ 52) e (-52) := quotientDen_pos (by decide) _ _
  have hden' : 0 < Nat.pow 2 (-e).toNat := Nat.pow_pos two_pos
  have hratio : quotientNum m e (-52) * Nat.pow 2 (-e).toNat =
      m * Nat.pow 2 e.toNat * quotientDen (2 ^ 52) e (-52) := by
    have hexponent : (e - -52).toNat + (-e).toNat = e.toNat + (52 + (-52 - e).toNat) := by omega
    simp only [quotientNum, quotientDen, Nat.pow_eq, mul_assoc, ← pow_add, hexponent]
  rw [nearestBits_congr hden hden' hratio, nearestBits_exact hpos hshort hleast he hnormal, ulps]
  push_cast
  rw [Int.toNat_of_nonneg (by omega)]

theorem nearestBits_div_self (hpos : 0 < m) (e : Int) :
    nearestBits (quotientNum m e e) (quotientDen m e e) = 1023 * 2 ^ 52 := by
  have hone : nearestBits 1 1 = 1023 * 2 ^ 52 := by decide
  rw [← hone]
  apply nearestBits_congr (quotientDen_pos hpos e e) one_pos
  rw [quotientNum, quotientDen, mul_one, one_mul]

end Exact

theorem sign_div_positive (s : Sign) : s / Sign.positive = s := by cases s <;> rfl

theorem rank_ne_zero {x : Float} {s : Sign} {m : Nat} {e : Int} {hm : 0 < m}
    (h : x.toModel.unpack = .finite s m e hm) : rank x.toModel.unpack ≠ 0 := by
  have hpos := (canonical_of_unpack h).1.ulps_pos hm
  rw [h, rank]
  cases s with
  | positive => exact hpos.ne'
  | negative => exact (Int.neg_neg_of_pos hpos).ne

theorem isNaN_div {x : Float} (hx : x.isNaN) (y : Float) : (x / y).isNaN := by
  have hu : x.toModel.unpack = .notANumber := by
    rw [eq_nan hx]
    rfl
  have hdiv : UnpackedFloat.div binary64 .notANumber y.toModel.unpack = .notANumber := by
    cases y.toModel.unpack <;> rfl
  change (x / y).toModel.unpack.isNaN = true
  rw [unpack_div, hu, hdiv, stored_notANumber]
  rfl

/-- Dividing by 1 changes nothing. -/
theorem float_div_one (x : Float) : x / 1 = x := by
  cases hx : x.isNaN with
  | true =>
    rw [eq_nan hx]
    decide
  | false =>
    obtain ⟨s, hu⟩ | ⟨s, hu⟩ | ⟨s, m, e, hm, hu⟩ := unpack_cases hx
    · apply eq_of_unpack
      have hdiv : UnpackedFloat.div binary64 (.infinity s) (1 : Float).toModel.unpack =
          .infinity s := by
        cases s <;> rfl
      rw [unpack_div, hu, hdiv, stored_infinity]
    · apply eq_of_unpack
      have hdiv : UnpackedFloat.div binary64 (.zero s) (1 : Float).toModel.unpack = .zero s := by
        cases s <;> rfl
      rw [unpack_div, hu, hdiv, stored_zero]
    · obtain ⟨hcanonical, he⟩ := canonical_of_unpack hu
      have hrank : rank (x / 1).toModel.unpack = rank x.toModel.unpack := by
        rw [unpack_div, hu, unpack_one, rank_div_finite, sign_div_positive, rank]
        exact congrArg s.apply (nearestBits_div_one hcanonical he hm)
      exact (eq_of_rank_eq hrank.symm (rank_ne_zero hu)).symm

/-! ## Clamped radii -/

namespace Buffer

theorem clamp_clamp (x : Float) : clamp (clamp x) = clamp x := by
  obtain ⟨-, -, h⟩ | ⟨-, -, h⟩ | ⟨-, h⟩ := clamp_cases x
  · rw [h, h]
  · rw [h]
    decide
  · rw [h]
    decide

/-- A radius that is divided by its own length ends up on the unit circle, also if it is
infinite. -/
theorem abs_clamp_div_abs {x : Float} (hx : 0 < x.abs) : (clamp (x / x.abs)).abs = 1 := by
  have hnumber : x.isNaN = false := by rw [← isNaN_abs, (isNaN_of_le (float_le_of_lt hx)).2]
  obtain ⟨s, hu⟩ | ⟨s, hu⟩ | ⟨s, m, e, hm, hu⟩ := unpack_cases hnumber
  · have hinf : x.isInf := by
      change x.toModel.unpack.isInf = true
      rw [hu]
      rfl
    have hlength : x.abs = Number.infinity := by
      obtain rfl | rfl := eq_infinity hinf <;> decide
    rw [hlength, clamp_div_infinity_of_isInf hinf]
    decide
  · rw [lt_iff_compare, unpack_abs, hu] at hx
    cases hx
  · have hlength : x.abs.toModel.unpack = .finite .positive m e hm := by
      rw [unpack_abs, hu]
      rfl
    have hrank : rank (x / x.abs).toModel.unpack = s.apply (1023 * 2 ^ 52) := by
      rw [unpack_div, hu, hlength, rank_div_finite, sign_div_positive, nearestBits_div_self hm]
      rfl
    cases s with
    | positive =>
      have hone : x / x.abs = 1 := eq_of_rank_eq (hrank.trans rfl) (by rw [hrank]; decide)
      have hclamp : clamp 1 = 1 := by decide
      rw [hone, hclamp]
      decide
    | negative =>
      have hone : x / x.abs = -1 := eq_of_rank_eq (hrank.trans rfl) (by rw [hrank]; decide)
      have hclamp : clamp (-1) = -1 := by decide
      rw [hone, hclamp]
      decide

theorem clamp_of_isNaN {x : Float} (hx : x.isNaN) : clamp x = -1 := by
  obtain ⟨hl, -⟩ | ⟨hl, -⟩ | ⟨-, h⟩ := clamp_cases x
  · exact absurd hl (not_lt_of_isNaN hx)
  · exact absurd hl (not_lt_of_isNaN hx)
  · exact h

theorem abs_pos_iff {x : Float} (hx : x.isNaN = false) : 0 < x.abs ↔ rank x.toModel.unpack ≠ 0 := by
  rw [lt_iff_compare, unpack_abs]
  obtain ⟨s, hu⟩ | ⟨s, hu⟩ | ⟨s, m, e, hm, hu⟩ := unpack_cases hx
  · rw [hu]
    exact iff_of_true rfl (by cases s <;> decide)
  · rw [hu]
    exact iff_of_false (by intro h; cases h) (fun h => h rfl)
  · refine iff_of_true ?_ (rank_ne_zero hu)
    rw [hu]
    rfl

theorem abs_clamp_pos_iff {x : Float} (hx : x.isNaN = false) : 0 < (clamp x).abs ↔ 0 < x.abs := by
  rw [abs_pos_iff (clamp_mem x).1, abs_pos_iff hx, rank_clamp hx]
  omega

/-! ## The factor after a normalization -/

section Factor

variable {c : Command} {cs : List Command}

theorem mem_lengths {d : Command} (h : d ∈ c :: cs) : d.r.abs ∈ c.r.abs :: cs.map (·.r.abs) :=
  List.mem_map_of_mem (f := fun c : Command => c.r.abs) h

theorem exists_largest (c : Command) (cs : List Command) :
    ∃ d ∈ c :: cs, d.r.abs = largest c.r.abs (cs.map (·.r.abs)) :=
  List.mem_map.mp (largest_mem c.r.abs (cs.map (·.r.abs)))

theorem factor_of_unit (hclamped : ∀ d ∈ cs, d.r.isNaN = false ∧ ¬ 1 < d.r.abs)
    (hunit : ∃ d ∈ cs, d.r.abs = 1) : factor cs = 1 := by
  cases cs with
  | nil => rfl
  | cons c cs =>
    obtain ⟨u, hu, hone⟩ := hunit
    obtain ⟨d, hd, hlargest⟩ := exists_largest c cs
    obtain ⟨hnumber, hle⟩ := hclamped d hd
    have hlead : c.r.abs.isNaN = false := (isNaN_abs c.r).trans (hclamped c (.head _)).1
    have hge := le_largest hlead (hone ▸ mem_lengths hu) (by decide)
    rw [← isNaN_abs] at hnumber
    rw [factor_cons, ← hlargest]
    rw [← hlargest, float_le_iff (by decide) hnumber] at hge
    rw [float_not_lt (by decide) hnumber, float_le_iff hnumber (by decide)] at hle
    rw [← eq_of_rank_eq (le_antisymm hge hle) (by decide), if_pos (by decide)]

theorem factor_of_zeros (hzeros : ∀ d ∈ cs, ¬ 0 < d.r.abs) : factor cs = 1 := by
  cases cs with
  | nil => rfl
  | cons c cs =>
    obtain ⟨d, hd, hlargest⟩ := exists_largest c cs
    rw [factor_cons, ← hlargest, if_neg (hzeros d hd)]

/-- A normalization leaves one radius of length 1, unless it leaves none of any length. -/
theorem unit_or_zeros (cs : List Command) :
    (∃ c ∈ cs, (rescale (factor cs) c).r.abs = 1) ∨
    ∀ c ∈ cs, ¬ 0 < (rescale (factor cs) c).r.abs := by
  simp only [r_rescale]
  by_cases hnan : ∃ c ∈ cs, c.r.isNaN
  · obtain ⟨c, hc, hnan⟩ := hnan
    refine .inl ⟨c, hc, ?_⟩
    rw [clamp_of_isNaN (isNaN_div hnan _)]
    decide
  · have hnumbers : ∀ c ∈ cs, c.r.isNaN = false := by simpa using hnan
    cases cs with
    | nil => exact .inr (fun c hc => absurd hc List.not_mem_nil)
    | cons c cs =>
      rw [factor_cons]
      by_cases hpos : 0 < largest c.r.abs (cs.map (·.r.abs))
      · obtain ⟨d, hd, hlargest⟩ := exists_largest c cs
        rw [if_pos hpos, ← hlargest]
        rw [← hlargest] at hpos
        exact .inl ⟨d, hd, abs_clamp_div_abs hpos⟩
      · rw [if_neg hpos]
        refine .inr fun d hd => ?_
        rw [float_div_one, abs_clamp_pos_iff (hnumbers d hd)]
        intro hlt
        have hlead : c.r.abs.isNaN = false := (isNaN_abs c.r).trans (hnumbers c (.head _))
        have hle := le_largest hlead (mem_lengths hd) ((isNaN_abs d.r).trans (hnumbers d hd))
        obtain ⟨hx, hy⟩ := isNaN_of_le hle
        rw [float_lt_iff (by decide) hx] at hlt
        rw [float_le_iff hx hy] at hle
        exact hpos ((float_lt_iff (by decide) hy).mpr (hlt.trans_le hle))

/-- A second normalization scales nothing. -/
theorem factor_rescaled (cs : List Command) : factor (rescaled cs) = 1 := by
  obtain ⟨c, hc, hone⟩ | hzeros := unit_or_zeros cs
  · refine factor_of_unit ?_ ⟨_, List.mem_map_of_mem hc, hone⟩
    intro d hd
    obtain ⟨x, -, rfl⟩ := List.mem_map.mp hd
    exact ⟨(givenOn_rescale _ x).number, rescale_in_circle _ x⟩
  · refine factor_of_zeros ?_
    intro d hd
    obtain ⟨x, hx, rfl⟩ := List.mem_map.mp hd
    exact hzeros x hx

end Factor

theorem rescale_one_rescale (f : Float) (c : Command) : rescale 1 (rescale f c) = rescale f c := by
  have hradius : clamp (clamp (c.r / f) / 1) = clamp (c.r / f) := by rw [float_div_one, clamp_clamp]
  cases c with
  | vertex r theta => exact congrArg (Command.vertex · theta) hradius
  | arc r theta sweep => exact congrArg (Command.arc · theta sweep) hradius
  | bare r theta => exact congrArg (Command.bare · theta) hradius

end Buffer

theorem rescaled_rescaled (cs : List Command) : rescaled (rescaled cs) = rescaled cs := by
  rw [rescaled, Buffer.factor_rescaled, rescaled, List.map_map]
  exact List.map_congr_left fun c _ => Buffer.rescale_one_rescale _ c

/-! ## Targets behind targets -/

section Targets

variable {σ : Type}

/-- Gives all commands to a target, then closes it. -/
def Target.present (T : Target σ) (cs : List Command) : Action σ Unit := do
  T.replay cs
  T.close

theorem mapEnd_onInner (act : Action σ Unit) (b : Buffer σ) :
    mapEnd id Buffer.inner (Buffer.onInner act b) = act b.inner := by
  unfold Buffer.onInner Action.on
  cases act b.inner <;> rfl

/-- A normalized target presents all commands to the one behind it, with their radii scaled. -/
theorem Target.present_normalized (T : Target σ) (cs : List Command) (s : σ) :
    mapEnd id Buffer.inner (T.normalized.present cs (Buffer.initial s)) =
      T.present (rescaled cs) s := by
  rw [Target.present, bind_of_ok (Target.initial_replay rfl cs), Target.normalized_close,
    mapEnd_onInner, Target.present]

/-- The target behind two normalized targets ends like the one behind a single normalized target,
whatever the radii are: both times it is given the same commands, and no cause or state is
different. -/
theorem normalized_normalized (T : Target σ) (cs : List Command) (s : σ) :
    mapEnd id (fun b => b.inner.inner)
      (T.normalized.normalized.present cs (Buffer.initial (Buffer.initial s))) =
      mapEnd id Buffer.inner (T.normalized.present cs (Buffer.initial s)) ∧
    ∃ ds, List.Forall₂ Command.GivenOn cs ds ∧
      mapEnd id Buffer.inner (T.normalized.present cs (Buffer.initial s)) = T.present ds s := by
  have htwice (r : EStateM.Result Cause (Buffer (Buffer σ)) Unit) :
      mapEnd id (fun b => b.inner.inner) r = mapEnd id Buffer.inner (mapEnd id Buffer.inner r) := by
        cases r <;> rfl
  refine ⟨?_, rescaled cs, forall₂_rescaled cs, T.present_normalized cs s⟩
  rw [htwice, T.normalized.present_normalized, T.present_normalized, rescaled_rescaled,
    T.present_normalized]

end Targets

end PolarPlot
