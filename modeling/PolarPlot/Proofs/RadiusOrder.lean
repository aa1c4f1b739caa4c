import PolarPlot.Proofs.Normalized
import PolarPlot.Proofs.Quotients

/-!
# The order of normalized radii

Dividing by a positive number and then clamping keeps radii in order, as long as the number is
finite. When the largest of the radii is infinite, all that is infinite is no number after the
division and ends up at `-1`, and all else at zero. So the order is kept except between a finite
radius and `infinity` (`normalized_order`).
-/

namespace PolarPlot

open Float.Model (UnpackedFloat)
open Number

namespace Buffer

/-! ## Clamping -/

theorem rank_clamp {x : Float} (hx : x.isNaN = false) :
    rank (clamp x).toModel.unpack =
      max (-(1023 * 2 ^ 52)) (min (rank x.toModel.unpack) (1023 * 2 ^ 52)) := by
  have hone : rank (1 : Float).toModel.unpack = 1023 * 2 ^ 52 := by
    rw [unpack_one]
    rfl
  have hneg : rank (-1 : Float).toModel.unpack = -(1023 * 2 ^ 52) := by
    rw [unpack_neg_one]
    rfl
  have hlower := float_lt_iff (x := -1) (y := x) (by decide) hx
  have hupper := float_lt_iff (x := x) (y := 1) hx (by decide)
  rw [hneg] at hlower
  rw [hone] at hupper
  obtain ⟨hl, hr, h⟩ | ⟨hl, hr, h⟩ | ⟨hl, h⟩ := clamp_cases x <;> rw [h]
  · rw [hlower] at hl
    rw [hupper] at hr
    omega
  · rw [hlower] at hl
    rw [hupper] at hr
    omega
  · rw [hlower] at hl
    omega

/-- Clamping keeps numbers in order. -/
theorem clamp_mono {x y : Float} (h : x ≤ y) : clamp x ≤ clamp y := by
  obtain ⟨hx, hy⟩ := isNaN_of_le h
  rw [float_le_iff hx hy] at h
  rw [float_le_iff (clamp_mem x).1 (clamp_mem y).1, rank_clamp hx, rank_clamp hy]
  omega

/-! ## The factor -/

section Largest

variable {lead x : Float}

theorem largest_of_isNaN (hlead : lead.isNaN) (xs : List Float) : largest lead xs = lead := by
  induction xs with
  | nil => rfl
  | cons x xs ih =>
    have hlt : ¬ lead < x := by
      intro h
      rw [(isNaN_of_le (float_le_of_lt h)).1] at hlead
      cases hlead
    rw [largest, if_neg hlt, ih]

/-- The next one in the lead is a number, and not less than the two that it was chosen from. -/
theorem le_lead (hlead : lead.isNaN = false) (x : Float) :
    lead ≤ (if lead < x then x else lead) ∧
    (x.isNaN = false → x ≤ (if lead < x then x else lead)) := by
  by_cases hlt : lead < x
  · rw [if_pos hlt]
    exact ⟨float_le_of_lt hlt, float_le_refl⟩
  · rw [if_neg hlt]
    exact ⟨float_le_refl hlead, fun hx => (float_not_lt hlead hx).mp hlt⟩

/-- What comes out is not less than any number among the items, if the first of them is a number. -/
theorem le_largest (hlead : lead.isNaN = false) {xs : List Float} (h : x ∈ lead :: xs)
    (hx : x.isNaN = false) : x ≤ largest lead xs := by
  induction xs generalizing lead x with
  | nil =>
    obtain rfl := List.mem_singleton.mp h
    exact float_le_refl hx
  | cons y ys ih =>
    obtain ⟨hle, hnext⟩ := le_lead hlead y
    have hnumber := (isNaN_of_le hle).2
    have hbest := ih hnumber (.head _) hnumber
    rw [largest]
    obtain rfl | h := List.mem_cons.mp h
    · exact float_le_trans hle hbest
    · obtain rfl | h := List.mem_cons.mp h
      · exact float_le_trans (hnext hx) hbest
      · exact ih hnumber (.tail _ h) hx

end Largest

section Factor

variable {c x : Command} {cs : List Command}

theorem factor_cons (c : Command) (cs : List Command) : factor (c :: cs) =
    if 0 < largest c.r.abs (cs.map (·.r.abs)) then largest c.r.abs (cs.map (·.r.abs)) else 1 := rfl

theorem factor_pos (cs : List Command) : 0 < factor cs := by
  cases cs with
  | nil => decide
  | cons c cs =>
    rw [factor_cons]
    split
    · assumption
    · decide

theorem isNaN_abs (x : Float) : x.abs.isNaN = x.isNaN := by
  change x.abs.toModel.unpack.isNaN = x.toModel.unpack.isNaN
  rw [unpack_abs]
  cases x.toModel.unpack <;> rfl

/-- A first radius that is no number keeps the lead, and then nothing is scaled. -/
theorem factor_of_isNaN (hc : c.r.isNaN) : factor (c :: cs) = 1 := by
  have hlead : c.r.abs.isNaN := (isNaN_abs c.r).trans hc
  rw [factor_cons, largest_of_isNaN hlead, eq_nan hlead, if_neg (by decide)]

theorem rank_lt_of_finite {x : Float} (hx : x.isInf = false) :
    -(2047 * 2 ^ 52) < rank x.toModel.unpack ∧ rank x.toModel.unpack < 2047 * 2 ^ 52 := by
  change x.toModel.unpack.isInf = false at hx
  cases hu : x.toModel.unpack with
  | infinity s =>
    rw [hu] at hx
    cases hx
  | finite s m e hm => exact rank_unpack_lt hu .positive
  | zero | notANumber =>
    rw [rank]
    decide

theorem eq_infinity_of_le {x : Float} (h : infinity ≤ x) : x = infinity := by
  obtain ⟨hinf, hx⟩ := isNaN_of_le h
  cases hxinf : x.isInf with
  | true =>
    obtain rfl | rfl := eq_infinity hxinf
    · rfl
    · exact absurd h (by decide)
  | false =>
    rw [float_le_iff hinf hx] at h
    exact absurd h (rank_lt_of_finite hxinf).2.not_ge

theorem factor_of_isInf (hc : c.r.isNaN = false) (hx : x ∈ c :: cs) (hinf : x.r.isInf) :
    factor (c :: cs) = infinity := by
  have hlead : c.r.abs.isNaN = false := (isNaN_abs c.r).trans hc
  have habs : x.r.abs = infinity := by
    obtain h | h := eq_infinity hinf <;> rw [h] <;> decide
  have hmem : infinity ∈ c.r.abs :: cs.map (·.r.abs) := by
    rw [← habs, ← List.map_cons (f := fun c : Command => c.r.abs)]
    exact List.mem_map_of_mem hx
  rw [factor_cons, eq_infinity_of_le (le_largest hlead hmem (by decide)), if_pos (by decide)]

theorem factor_infinite_or_finite (cs : List Command) :
    factor cs = infinity ∨ ∃ n f, ∃ hn : 0 < n,
      (factor cs).toModel.unpack = .finite .positive n f hn := by
  have hpos := factor_pos cs
  have hzero : (0 : Float).toModel.unpack = .zero .positive := rfl
  rw [lt_iff_compare, hzero] at hpos
  cases hu : (factor cs).toModel.unpack with
  | infinity s =>
    rw [hu] at hpos
    cases s with
    | positive => exact .inl (eq_of_unpack hu)
    | negative => cases hpos
  | finite s n f hn =>
    rw [hu] at hpos
    cases s with
    | positive => exact .inr ⟨n, f, hn, rfl⟩
    | negative => cases hpos
  | zero | notANumber =>
    rw [hu] at hpos
    cases hpos

end Factor

/-! ## Rescaling -/

theorem r_rescale (f : Float) (c : Command) : (rescale f c).r = clamp (c.r / f) := by
  cases c <;> rfl

theorem clamp_div_infinity_of_isInf {x : Float} (hx : x.isInf) : clamp (x / infinity) = -1 := by
  obtain rfl | rfl := eq_infinity hx <;> decide

theorem unpack_div_infinity {x : Float} (hx : x.isNaN = false) (hfinite : x.isInf = false) :
    ∃ s, (x / infinity).toModel.unpack = .zero s := by
  have hinf : infinity.toModel.unpack = .infinity .positive := rfl
  rw [unpack_div, hinf]
  obtain ⟨s, hu⟩ | ⟨s, hu⟩ | ⟨s, m, e, hm, hu⟩ := unpack_cases hx
  · change x.toModel.unpack.isInf = false at hfinite
    rw [hu] at hfinite
    cases hfinite
  · have hdiv : UnpackedFloat.div .binary64 (.zero s) (.infinity .positive) = .zero s := by
      cases s <;> rfl
    exact ⟨s, by rw [hu, hdiv, stored_zero]⟩
  · have hdiv : UnpackedFloat.div .binary64 (.finite s m e hm) (.infinity .positive) = .zero s := by
      cases s <;> rfl
    exact ⟨s, by rw [hu, hdiv, stored_zero]⟩

theorem rank_clamp_div_infinity {x : Float} (hx : x.isNaN = false) (hfinite : x.isInf = false) :
    rank (clamp (x / infinity)).toModel.unpack = 0 := by
  obtain ⟨s, hs⟩ := unpack_div_infinity hx hfinite
  have hnumber : (x / infinity).isNaN = false := by
    change (x / infinity).toModel.unpack.isNaN = false
    rw [hs]
    rfl
  rw [rank_clamp hnumber, hs, rank]
  decide

/-- When the largest radius is infinite, all infinite radii end up below all others. -/
theorem clamp_div_infinity_le_iff {x y : Float} (h : x ≤ y) :
    clamp (x / infinity) ≤ clamp (y / infinity) ↔ ¬ (y = infinity ∧ x.isInf = false) := by
  obtain ⟨hx, hy⟩ := isNaN_of_le h
  cases hxinf : x.isInf with
  | true =>
    refine iff_of_true ?_ (fun h => nomatch h.2)
    rw [clamp_div_infinity_of_isInf hxinf]
    exact (clamp_mem _).2.1
  | false =>
    rw [float_le_iff (clamp_mem _).1 (clamp_mem _).1, rank_clamp_div_infinity hx hxinf]
    cases hyinf : y.isInf with
    | true =>
      have hlow : ¬ 0 ≤ rank (-1 : Float).toModel.unpack := by decide
      rw [clamp_div_infinity_of_isInf hyinf]
      obtain rfl | rfl := eq_infinity hyinf
      · exact iff_of_false hlow (fun h => h ⟨rfl, rfl⟩)
      · rw [float_le_iff hx hy] at h
        exact absurd h (rank_lt_of_finite hxinf).1.not_ge
    | false =>
      rw [rank_clamp_div_infinity hy hyinf]
      refine iff_of_true (le_refl _) ?_
      rintro ⟨rfl, -⟩
      cases hyinf

/-- The order of two radii is kept, unless the larger one is infinite, the other one is not, and the
first radius of all is a number. -/
theorem rescale_le_iff {x y : Command} {cs : List Command} (hy : y ∈ cs) (h : x.r ≤ y.r) :
    (rescale (factor cs) x).r ≤ (rescale (factor cs) y).r ↔
      ¬ (y.r = infinity ∧ x.r.isInf = false ∧ ∀ c ∈ cs.head?, c.r.isNaN = false) := by
  rw [r_rescale, r_rescale]
  cases cs with
  | nil => cases hy
  | cons c cs =>
    have hhead : (∀ d ∈ (c :: cs).head?, d.r.isNaN = false) ↔ c.r.isNaN = false := by simp
    rw [hhead]
    obtain hinf | ⟨n, f, hn, hfinite⟩ := factor_infinite_or_finite (c :: cs)
    · have hc : c.r.isNaN = false := by
        by_contra hnan
        rw [factor_of_isNaN (Bool.not_eq_false _ ▸ hnan)] at hinf
        exact absurd hinf (by decide)
      rw [hinf, clamp_div_infinity_le_iff h]
      simp only [hc, and_true]
    · refine iff_of_true (clamp_mono (div_le_div_of_finite hfinite h)) ?_
      rintro ⟨hyinf, -, hc⟩
      rw [factor_of_isInf hc hy (by rw [hyinf]; decide)] at hfinite
      cases hfinite

end Buffer

theorem mem_zip_rescaled {cs : List Command} {x x' : Command} (h : (x, x') ∈ cs.zip (rescaled cs)) :
    x ∈ cs ∧ x' = Buffer.rescale (Buffer.factor cs) x := by
  rw [rescaled, ← List.map_prod_left_eq_zip] at h
  obtain ⟨c, hc, heq⟩ := List.mem_map.mp h
  cases heq
  exact ⟨hc, rfl⟩

/-- Closing a normalized target keeps the order of all radii that are numbers, with one exception:
when the first radius of all is a number, those at `infinity` end up below all that are finite. -/
theorem normalized_order {σ : Type} (T : Target σ) (cs : List Command) (s : σ) :
    ∃ ds e b, List.Forall₂ Command.GivenOn cs ds ∧
      T.logged.normalized.ending (.ok ()) ⟨cs.toArray, ⟨[], s⟩⟩ = (e, b) ∧
      T.normalized.ending (.ok ()) ⟨cs.toArray, s⟩ = (e, ⟨b.items, b.inner.state⟩) ∧
      b.items = ds.toArray ∧ Shown T none ds s e b.inner ∧
      ∀ x x' y y', (x, x') ∈ cs.zip ds → (y, y') ∈ cs.zip ds → x.r ≤ y.r →
        (x'.r ≤ y'.r ↔
          ¬ (y.r = infinity ∧ x.r.isInf = false ∧ ∀ c ∈ cs.head?, c.r.isNaN = false)) := by
  obtain ⟨e, b, hlogged, hclose, hitems, hshown⟩ := shown_normalized T cs s
  refine ⟨rescaled cs, e, b, forall₂_rescaled cs, hlogged, hclose, hitems, hshown, ?_⟩
  intro x x' y y' hx hy h
  obtain ⟨-, rfl⟩ := mem_zip_rescaled hx
  obtain ⟨hmem, rfl⟩ := mem_zip_rescaled hy
  exact Buffer.rescale_le_iff hmem h

/-- Radii on both sides of all numbers. -/
def unboundedRadii : List Command := [.vertex 1 0, .arc infinity 1 2, .vertex (-infinity) 3]

theorem normalized_order_unboundedRadii :
    ∃ x y z e b, Target.recorder.normalized.ending (.ok ()) ⟨unboundedRadii.toArray, []⟩ = (e, b) ∧
      b.items = #[x, y, z] ∧ (1 : Float) ≤ infinity ∧ ¬ x.r ≤ y.r ∧ -infinity ≤ (1 : Float) ∧
      z.r ≤ x.r := by
  obtain ⟨ds, e, b, hds, -, hclose, hitems, -, horder⟩ :=
    normalized_order Target.recorder unboundedRadii []
  obtain ⟨x, y, z, rfl⟩ : ∃ x y z, ds = [x, y, z] := List.length_eq_three.mp hds.length_eq.symm
  have hone : (1 : Float) ≤ infinity := by decide
  have hneg : -infinity ≤ (1 : Float) := by decide
  refine ⟨x, y, z, e, _, hclose, hitems, hone, ?_, hneg, ?_⟩
  · intro h
    refine (horder _ _ _ _ (.head _) (.tail _ (.head _)) hone).mp h ⟨rfl, by decide, ?_⟩
    rintro c ⟨⟩
    decide
  · refine (horder _ _ _ _ (.tail _ (.tail _ (.head _))) (.head _) hneg).mpr ?_
    rintro ⟨h, -⟩
    exact absurd h (by decide)

end PolarPlot
