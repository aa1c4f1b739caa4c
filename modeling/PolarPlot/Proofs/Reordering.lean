import Mathlib.Data.List.FinRange
import PolarPlot.Proofs.RadiusOrder

/-!
# Normalized commands in another order

The factor of a buffer is that of its radii that are numbers, unless the first radius is none: that
one keeps the lead, and nothing is scaled (`Buffer.factor_of_led`, `Buffer.factor_of_not_led`).
Which radius is the largest does not depend on the order of the commands, but which one is the first
does. So a permutation leaves the factor as it is, unless it changes whether the first radius is a
number (`normalized_permuted`).
-/

namespace PolarPlot

open Number

namespace Buffer

/-! ## The largest item -/

section Largest

variable {lead x : Float} {xs : List Float}

theorem largest_mem (lead : Float) (xs : List Float) : largest lead xs ∈ lead :: xs := by
  induction xs generalizing lead with
  | nil => exact .head _
  | cons x xs ih =>
    rw [largest]
    obtain heq | hmem := List.mem_cons.mp (ih (if lead < x then x else lead))
    · rw [heq]
      split
      · exact .tail _ (.head _)
      · exact .head _
    · exact .tail _ (.tail _ hmem)

theorem not_lt_of_isNaN (hx : x.isNaN) : ¬ lead < x := by
  intro h
  rw [(isNaN_of_le (float_le_of_lt h)).2] at hx
  cases hx

/-- What is no number never takes the lead. -/
theorem largest_filter (lead : Float) (xs : List Float) :
    largest lead (xs.filter fun x => !x.isNaN) = largest lead xs := by
  induction xs generalizing lead with
  | nil => rfl
  | cons x xs ih =>
    cases hx : x.isNaN with
    | true =>
      rw [List.filter_cons, hx, if_neg (by decide), ih, largest, if_neg (not_lt_of_isNaN hx)]
    | false =>
      rw [List.filter_cons, hx, if_pos (by decide), largest, largest, ih]

end Largest

/-! ## The factor -/

/-- The commands whose radius is a number. -/
def numbers (cs : List Command) : List Command := cs.filter fun c => !c.r.isNaN

/-- The first radius, if there is one, is a number. -/
def Led (cs : List Command) : Prop := ∀ c ∈ cs.head?, c.r.isNaN = false

section Factor

variable {c : Command} {cs ds : List Command}

theorem led_cons : Led (c :: cs) ↔ c.r.isNaN = false := by simp [Led]

theorem factor_of_not_led (h : ¬ Led cs) : factor cs = 1 := by
  cases cs with
  | nil => rfl
  | cons c cs =>
    rw [led_cons, Bool.not_eq_false] at h
    exact factor_of_isNaN h

/-- Behind a number, what is no number does not count. -/
theorem factor_of_led (h : Led cs) : factor cs = factor (numbers cs) := by
  cases cs with
  | nil => rfl
  | cons c cs =>
    rw [led_cons] at h
    have hlengths : (numbers cs).map (·.r.abs) = (cs.map (·.r.abs)).filter fun x => !x.isNaN := by
      rw [List.filter_map, numbers]
      congr 2
      funext d
      rw [Function.comp_apply, isNaN_abs]
    have hnumbers : numbers (c :: cs) = c :: numbers cs := List.filter_cons_of_pos (by rw [h]; rfl)
    rw [hnumbers, factor_cons, factor_cons, hlengths, largest_filter]

/-- The largest length is not above the largest of more. -/
theorem largest_le_largest {d : Command} (hc : c.r.isNaN = false) (hd : d.r.isNaN = false)
    (h : c :: cs ⊆ d :: ds) :
    largest c.r.abs (cs.map (·.r.abs)) ≤ largest d.r.abs (ds.map (·.r.abs)) := by
  have hlead : c.r.abs.isNaN = false := (isNaN_abs c.r).trans hc
  have hnumber := (isNaN_of_le (le_largest hlead (.head (cs.map (·.r.abs))) hlead)).2
  refine le_largest ((isNaN_abs d.r).trans hd) ?_ hnumber
  exact List.map_subset (fun c : Command => c.r.abs) h (largest_mem _ _)

/-- The factor of numbers does not depend on their order. -/
theorem factor_perm (h : cs.Perm ds) (hcs : Led cs) (hds : Led ds) : factor cs = factor ds := by
  cases cs with
  | nil => rw [h.nil_eq]
  | cons c cs =>
    cases ds with
    | nil => exact absurd h.eq_nil (List.cons_ne_nil _ _)
    | cons d ds =>
      rw [led_cons] at hcs hds
      have hle := largest_le_largest hcs hds h.subset
      have hge := largest_le_largest hds hcs h.symm.subset
      rw [factor_cons, factor_cons]
      obtain ⟨hx, hy⟩ := isNaN_of_le hle
      generalize largest c.r.abs (cs.map (·.r.abs)) = x, largest d.r.abs (ds.map (·.r.abs)) = y at *
      rw [float_le_iff hx hy] at hle
      rw [float_le_iff hy hx] at hge
      have hrank := le_antisymm hle hge
      have hzero : rank (0 : Float).toModel.unpack = 0 := rfl
      by_cases hpos : 0 < x
      · rw [float_lt_iff (by decide) hx, hzero] at hpos
        rw [eq_of_rank_eq hrank hpos.ne']
      · have hpos' : ¬ 0 < y := by
          rwa [float_lt_iff (by decide) hy, ← hrank, ← float_lt_iff (by decide) hx]
        rw [if_neg hpos, if_neg hpos']

theorem led_numbers (cs : List Command) : Led (numbers cs) := by
  intro c hc
  have hmem := (List.mem_filter.mp (List.mem_of_mem_head? hc)).2
  simpa using hmem

/-- When a permutation leaves the factor as it is. -/
theorem factor_eq_factor_iff (h : cs.Perm ds) :
    factor cs = factor ds ↔ (Led cs ↔ Led ds) ∨ factor (numbers ds) = 1 := by
  have hnumbers : factor (numbers cs) = factor (numbers ds) :=
    factor_perm (h.filter _) (led_numbers cs) (led_numbers ds)
  by_cases hcs : Led cs <;> by_cases hds : Led ds
  · simp [factor_of_led hcs, factor_of_led hds, hnumbers, hcs, hds]
  · simp [factor_of_led hcs, factor_of_not_led hds, hnumbers, hcs, hds]
  · simp [factor_of_not_led hcs, factor_of_led hds, hcs, hds, eq_comm]
  · simp [factor_of_not_led hcs, factor_of_not_led hds, hcs, hds]

end Factor

end Buffer

/-! ## Closing -/

/-- Closing a normalized target that holds `cs` leaves `ds` in its buffer and shows `ds` to the
target behind it. -/
def Target.GivesOn {σ : Type} (T : Target σ) (s : σ) (cs ds : List Command) : Prop :=
  ∃ e b, T.logged.normalized.ending (.ok ()) ⟨cs.toArray, ⟨[], s⟩⟩ = (e, b) ∧
    T.normalized.ending (.ok ()) ⟨cs.toArray, s⟩ = (e, ⟨b.items, b.inner.state⟩) ∧
    b.items = ds.toArray ∧ Shown T none ds s e b.inner

/-- A permutation of the commands leaves the factor as it is, unless the first radius is a number
only before it or only after it, and the numbers alone would be scaled. If the factor stays, the
same commands are given on in their new order. -/
theorem normalized_permuted {σ : Type} (T : Target σ) (s : σ) {n : Nat} (cs : Fin n → Command)
    (π : Equiv.Perm (Fin n)) :
    (Buffer.factor (List.ofFn (cs ∘ π)) = Buffer.factor (List.ofFn cs) ↔
      (Buffer.Led (List.ofFn (cs ∘ π)) ↔ Buffer.Led (List.ofFn cs)) ∨
        Buffer.factor (Buffer.numbers (List.ofFn cs)) = 1) ∧
    (Buffer.factor (List.ofFn (cs ∘ π)) = Buffer.factor (List.ofFn cs) → ∃ ds : Fin n → Command,
      T.GivesOn s (List.ofFn cs) (List.ofFn ds) ∧
      T.GivesOn s (List.ofFn (cs ∘ π)) (List.ofFn (ds ∘ π))) := by
  refine ⟨Buffer.factor_eq_factor_iff (π.ofFn_comp_perm cs), fun hfactor => ?_⟩
  have hpermuted : rescaled (List.ofFn (cs ∘ π)) =
      List.ofFn ((Buffer.rescale (Buffer.factor (List.ofFn cs)) ∘ cs) ∘ π) := by
    rw [rescaled, hfactor, List.map_ofFn, Function.comp_assoc]
  refine ⟨Buffer.rescale (Buffer.factor (List.ofFn cs)) ∘ cs, ?_, ?_⟩
  · rw [← List.map_ofFn]
    exact shown_normalized T (List.ofFn cs) s
  · rw [← hpermuted]
    exact shown_normalized T (List.ofFn (cs ∘ π)) s

/-- A radius that is no number stands between two that are. -/
def gapBetween : Fin 3 → Command := ![.vertex 2 0, .arc nan 1 2, .vertex 1 3]

/-- Swapping the ends keeps a number in front. Swapping the first two does not, and then nothing is
scaled. -/
theorem normalized_permuted_gapBetween :
    (∃ ds : Fin 3 → Command, Target.recorder.GivesOn [] (List.ofFn gapBetween) (List.ofFn ds) ∧
      Target.recorder.GivesOn [] (List.ofFn (gapBetween ∘ Equiv.swap 0 2))
        (List.ofFn (ds ∘ Equiv.swap 0 2))) ∧
    Buffer.factor (List.ofFn (gapBetween ∘ Equiv.swap 0 1)) ≠
      Buffer.factor (List.ofFn gapBetween) := by
  have hled : Buffer.Led (List.ofFn gapBetween) := Buffer.led_cons.mpr (by decide)
  have hkept : Buffer.Led (List.ofFn (gapBetween ∘ Equiv.swap 0 2)) :=
    Buffer.led_cons.mpr (by decide)
  have hlost : ¬ Buffer.Led (List.ofFn (gapBetween ∘ Equiv.swap 0 1)) := by
    intro h
    exact absurd (Buffer.led_cons.mp h) (by decide)
  obtain ⟨hstays, hgiven⟩ := normalized_permuted Target.recorder [] gapBetween (Equiv.swap 0 2)
  refine ⟨hgiven (hstays.mpr (.inl (iff_of_true hkept hled))), ?_⟩
  intro h
  obtain hboth | hone := (normalized_permuted Target.recorder [] gapBetween (Equiv.swap 0 1)).1.mp h
  · exact hlost (hboth.mpr hled)
  · exact absurd hone (by decide)

end PolarPlot
