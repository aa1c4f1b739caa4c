import PolarPlot.Proofs.Courses
import PolarPlot.Proofs.FloatOrder

/-!
# Ranges that stall

A checked step points to the end of its range, but the sum of a value and a step is rounded, and may
be the value again. A range that comes to such a value gives it forever. All other ranges are finite
(`Range.finite_iff_not_stalls`): their values stand in order among the binary64 numbers, and there
are fewer than 2^64 of these.
-/

namespace PolarPlot

open Float.Model hiding pack unpack
open Float.Model.UnpackedFloat

/-! ## Comparisons -/

section Comparisons

variable {x y : Float}

theorem unpack_zero : (0 : Float).toModel.unpack = .zero .positive := rfl

/-- A number other than zero has a sign. -/
theorem points_of_ne_zero (hnan : y.isNaN = false) (hzero : ¬ (y == 0) = true) :
    Points .positive y.toModel.unpack ∧ 0 < y ∨ Points .negative y.toModel.unpack ∧ y < 0 := by
  change y.toModel.unpack.isNaN = false at hnan
  rw [beq_iff_compare, unpack_zero] at hzero
  rw [lt_iff_compare, lt_iff_compare, unpack_zero]
  generalize y.toModel.unpack = u at *
  cases u with
  | notANumber => cases hnan
  | zero s => exact absurd rfl hzero
  | infinity s | finite s m e hm =>
    cases s with
    | positive => exact .inl ⟨rfl, rfl⟩
    | negative => exact .inr ⟨rfl, rfl⟩

theorem isNaN_add (x : Float) (h : y.isNaN = true) : (x + y).isNaN = true := by
  change y.toModel.unpack.isNaN = true at h
  change (x + y).toModel.unpack.isNaN = true
  rw [unpack_add]
  generalize x.toModel.unpack = u, y.toModel.unpack = v at h
  cases v with
  | notANumber =>
    have hsum : UnpackedFloat.add Format.binary64 u .notANumber = .notANumber := by cases u <;> rfl
    rw [hsum, stored_notANumber]
    rfl
  | infinity | zero | finite => cases h

end Comparisons

/-! ## Values -/

/-- A step that is not refused is not zero, unless the bounds are equal, and does not point away
from the end. -/
theorem Range.check_some {start stop step : Float} (h : check start stop (some step) = .ok ()) :
    (¬ (start == stop) = true → ¬ (step == 0) = true) ∧ ¬ (stop < start ∧ 0 < step) ∧
      ¬ (start < stop ∧ step < 0) := by
  rw [check] at h
  by_cases hzero : (!(start == stop) && step == 0) = true
  · rw [if_pos hzero] at h
    cases h
  · rw [if_neg hzero] at h
    by_cases hup : stop < start ∧ 0 < step
    · rw [if_pos hup] at h
      cases h
    · rw [if_neg hup] at h
      by_cases hdown : start < stop ∧ step < 0
      · rw [if_pos hdown] at h
        cases h
      · refine ⟨fun hne heq => hzero ?_, hup, hdown⟩
        rw [Bool.eq_false_of_not_eq_true hne, heq]
        rfl

namespace Course

variable {c : Course} {k : Nat}

/-- The side of a value that the next one is expected on. -/
def direction (c : Course) : Sign := if c.first < c.last then .positive else .negative

/-- The place of a value, counted in the direction of its course. -/
def place (c : Course) (k : Nat) : Int := c.direction.apply (rank (c.value k).toModel.unpack)

theorem isNaN_value (hne : ¬ (c.first == c.last) = true) (h : c.GoesOn k) :
    (c.value k).isNaN = false := by
  rw [GoesOn, if_neg hne] at h
  split at h
  · split at h
    · exact (isNaN_of_le h).1
    · exact (isNaN_of_le (float_le_of_lt h)).1
  · split at h
    · exact (isNaN_of_le h).2
    · exact (isNaN_of_le (float_le_of_lt h)).2

/-- A course that goes on to its first round has its bounds in the order of its direction. -/
theorem lt_of_goesOn (hne : ¬ (c.first == c.last) = true) (h : c.GoesOn 0)
    (hlt : ¬ c.first < c.last) : c.last < c.first := by
  rw [GoesOn, if_neg hne, if_neg hlt] at h
  split at h
  · exact float_lt_of_le h hne
  · exact h

theorem points_step (hcheck : Range.check c.first c.last c.stride = .ok ())
    (hne : ¬ (c.first == c.last) = true) (h : c.GoesOn 0) (hnan : c.step.isNaN = false) :
    Points c.direction c.step.toModel.unpack := by
  unfold direction
  cases hstride : c.stride with
  | none =>
    rw [step, hstride]
    split <;> rfl
  | some stride =>
    have hstep : c.step = stride := by rw [step, hstride]; rfl
    rw [hstride] at hcheck
    rw [hstep] at hnan ⊢
    obtain ⟨hzero, hup, hdown⟩ := Range.check_some hcheck
    obtain ⟨hpoints, hpos⟩ | ⟨hpoints, hneg⟩ := points_of_ne_zero hnan (hzero hne)
    · by_cases hlt : c.first < c.last
      · rwa [if_pos hlt]
      · exact absurd ⟨lt_of_goesOn hne h hlt, hpos⟩ hup
    · by_cases hlt : c.first < c.last
      · exact absurd ⟨hlt, hneg⟩ hdown
      · rwa [if_neg hlt]

/-- Each value is the one before, or has a later place. -/
theorem value_or_place_lt (hcheck : Range.check c.first c.last c.stride = .ok ())
    (hne : ¬ (c.first == c.last) = true) (hfirst : c.GoesOn 0) (h : c.GoesOn (k + 1)) :
    c.value (k + 1) = c.value k ∨ c.place k < c.place (k + 1) := by
  have hnumber := isNaN_value hne h
  have hstep : c.step.isNaN = false := by
    cases hnan : c.step.isNaN with
    | false => rfl
    | true => exact (isNaN_add (c.value k) hnan).symm.trans hnumber
  exact add_toward (c.value k) (points_step hcheck hne hfirst hstep) hnumber

end Course

/-! ## Ranges -/

namespace Range

variable {r r' : Range} {v : Float}

theorem take_of_none (h : r.next? = none) (n : Nat) : r.take n = ([], r) := by
  cases n with
  | zero => rfl
  | succ n => simp only [take, h]

theorem take_of_some (h : r.next? = some (v, r')) (n : Nat) :
    r.take (n + 1) = (v :: (r'.take n).1, (r'.take n).2) := by
  simp only [take, h]

/-- Some values and then some more are taken one after the other. -/
theorem take_add (r : Range) (m n : Nat) :
    r.take (m + n) = ((r.take m).1 ++ ((r.take m).2.take n).1, ((r.take m).2.take n).2) := by
  induction m generalizing r with
  | zero =>
    rw [Nat.zero_add]
    rfl
  | succ m ih =>
    cases h : r.next? with
    | none => rw [take_of_none h, take_of_none h, take_of_none h, List.append_nil]
    | some p => rw [Nat.succ_add, take_of_some h, take_of_some h, ih, List.cons_append]

/-- A range that its next value does not change gives this value forever. -/
theorem take_of_fixed (h : r.next? = some (v, r)) (n : Nat) :
    r.take n = (List.replicate n v, r) := by
  induction n with
  | zero => rfl
  | succ n ih => rw [take_of_some h, ih, List.replicate_succ]

end Range

namespace Course

variable {c : Course} {k : Nat}

theorem take_of_goesOn (h : ∀ j < k, c.GoesOn j) : (c.range.take k).2 = c.rest k := by
  induction k with
  | zero => exact c.rest_zero.symm
  | succ k ih =>
    rw [Range.take_add, ih fun j hj => h j (Nat.lt_succ_of_lt hj),
      Range.take_of_some (next?_of_goesOn (h k (Nat.lt_succ_self k)))]
    rfl

/-- A range that has not ended went on to all rounds so far. -/
theorem goesOn_of_take {last : Nat} (h : ∀ n ≤ last, (c.range.take n).2.next? ≠ none)
    (hk : k ≤ last) : c.GoesOn k := by
  induction k using Nat.strong_induction_on with
  | _ k ih =>
    by_contra hstop
    refine h k hk ?_
    rw [take_of_goesOn fun j hj => ih j hj (by omega), next?_of_not_goesOn hstop]

/-- A course stalls at a round: adding the step does not change the value, and the next round has it
again. -/
structure Stalls (c : Course) (k : Nat) : Prop where
  goesOn : ∀ j ≤ k + 1, c.GoesOn j
  same : c.value k + c.step = c.value k

theorem ne_of_goesOn (h : c.GoesOn (k + 1)) : ¬ (c.first == c.last) = true := by
  intro heq
  rw [GoesOn, if_pos heq] at h
  cases h

theorem Stalls.next? (h : c.Stalls k) : (c.rest k).next? = some (c.value k, c.rest k) := by
  have hne := ne_of_goesOn (h.goesOn (k + 1) (Nat.le_refl _))
  have hrest : c.rest (k + 1) = c.rest k := by
    rw [rest, rest, if_neg hne, if_neg hne, value, h.same]
  rw [next?_of_goesOn (h.goesOn k (Nat.le_succ k)), hrest]

theorem Stalls.take (h : c.Stalls k) (n : Nat) :
    c.range.take (k + n) = ((c.range.take k).1 ++ List.replicate n (c.value k), c.rest k) := by
  have hrest : (c.range.take k).2 = c.rest k := take_of_goesOn fun j hj => h.goesOn j (by omega)
  rw [Range.take_add, hrest, Range.take_of_fixed h.next?]

/-- A range that stalls never ends. -/
theorem Stalls.endless (h : c.Stalls k) (n : Nat) : (c.range.take n).2.next? ≠ none := by
  by_cases hn : n ≤ k
  · rw [take_of_goesOn fun j hj => h.goesOn j (by omega), next?_of_goesOn (h.goesOn n (by omega))]
    exact Option.some_ne_none _
  · obtain ⟨i, rfl⟩ := Nat.exists_eq_add_of_le (Nat.le_of_not_le hn)
    rw [h.take, h.next?]
    exact Option.some_ne_none _

/-- A range with more than 2^64 values stalls. Its values would else have different places, and
there are not so many. -/
theorem exists_stalls (hcheck : Range.check c.first c.last c.stride = .ok ())
    (h : ∀ n ≤ 2 ^ 64, (c.range.take n).2.next? ≠ none) : ∃ k, c.Stalls k := by
  generalize hlast : 2 ^ 64 = last at h
  have hgoes : ∀ {n}, n ≤ last → c.GoesOn n := goesOn_of_take h
  have hne : ¬ (c.first == c.last) = true := ne_of_goesOn (k := 0) (hgoes (by omega))
  by_contra hnever
  have hplace : ∀ n ≤ last, c.place 0 + n ≤ c.place n := by
    intro n hn
    induction n with
    | zero => exact (add_zero _).le
    | succ n ih =>
      have hbefore := ih (by omega)
      obtain hsame | hlater := value_or_place_lt hcheck hne (hgoes (by omega)) (hgoes hn)
      · exact absurd ⟨n, fun j hj => hgoes (by omega), hsame⟩ hnever
      · push_cast
        omega
  have hfirst : -(2047 * 2 ^ 52) ≤ c.place 0 := (rank_unpack_le (c.value 0) c.direction).1
  have hend : c.place last ≤ 2047 * 2 ^ 52 := (rank_unpack_le (c.value last) c.direction).2
  have htotal := hplace last (Nat.le_refl last)
  omega

end Course

namespace Range

/-- Some range with a checked step has no end: one is too little to come from 2^53 to the next
number. -/
theorem not_forall_finite : ¬ ∀ start stop step inclusive, check start stop step = .ok () →
    ∃ n, ((between start stop step inclusive).take n).2.next? = none := by
  intro hall
  obtain ⟨n, hn⟩ := hall 9007199254740992 9007199254740994 (some 1) true (by decide +kernel)
  have hfixed : (between 9007199254740992 9007199254740994 (some 1) true).next? =
      some (9007199254740992, between 9007199254740992 9007199254740994 (some 1) true) := by
    decide +kernel
  rw [take_of_fixed hfixed, hfixed] at hn
  cases hn

/-- A range with a checked step has at most 2^64 values, unless it stalls. If it does, it gives one
value forever. -/
theorem finite_iff_not_stalls {start stop : Float} {step : Option Float} (inclusive : Bool)
    (h : check start stop step = .ok ()) :
    ((∃ n ≤ 2 ^ 64, ((between start stop step inclusive).take n).2.next? = none) ↔
      ¬ ∃ k, (⟨start, stop, step, inclusive⟩ : Course).Stalls k) ∧
    ∀ k, (⟨start, stop, step, inclusive⟩ : Course).Stalls k → ∀ n,
      ((between start stop step inclusive).take (k + n)).1 =
        ((between start stop step inclusive).take k).1 ++
          List.replicate n ((⟨start, stop, step, inclusive⟩ : Course).value k) := by
  refine ⟨⟨?_, ?_⟩, fun k hk n => congrArg Prod.fst (hk.take n)⟩
  · rintro ⟨n, -, hend⟩ ⟨k, hk⟩
    exact hk.endless n hend
  · intro hnever
    by_contra hendless
    refine hnever (Course.exists_stalls (c := ⟨start, stop, step, inclusive⟩) h ?_)
    intro n hn hend
    exact hendless ⟨n, hn, hend⟩

theorem finite_iff_not_stalls_ones :
    check 9007199254740992 9007199254740994 (some 1) = .ok () ∧
      ¬ (∃ n ≤ 2 ^ 64, ((between 9007199254740992 9007199254740994 (some 1) true).take n).2.next? =
        none) ∧
      (∀ n, ((between 9007199254740992 9007199254740994 (some 1) true).take (0 + n)).1 =
        List.replicate n 9007199254740992) ∧
      ¬ ∃ k, (⟨9007199254740990, 9007199254740994, some 2, true⟩ : Course).Stalls k := by
  have hcheck : check 9007199254740992 9007199254740994 (some 1) = .ok () := by decide +kernel
  have hstalls : (⟨9007199254740992, 9007199254740994, some 1, true⟩ : Course).Stalls 0 := by
    refine ⟨fun j hj => ?_, by decide +kernel⟩
    obtain rfl | rfl : j = 0 ∨ j = 1 := by omega
    all_goals
      unfold Course.GoesOn
      decide +kernel
  obtain ⟨hfinite, hvalues⟩ := finite_iff_not_stalls true hcheck
  refine ⟨hcheck, fun hend => hfinite.mp hend ⟨0, hstalls⟩, hvalues 0 hstalls, ?_⟩
  exact (finite_iff_not_stalls true (by decide +kernel)).1.mp ⟨3, by decide, by decide +kernel⟩

end Range

end PolarPlot
