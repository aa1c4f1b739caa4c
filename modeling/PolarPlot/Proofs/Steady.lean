import PolarPlot.Drawing.Listing
import PolarPlot.Proofs.PictureSteps

/-!
# Targets with a writer that never fails

Where the writer never fails (`Writer.Steady`), a listing takes every command that can be drawn. A
picture takes those in the unit circle whose angles are finite (`Svg.accept_succeeds`) and can then
be closed (`Svg.close_succeeds`). An infinite angle has no place in it (`Svg.accept_fails`).
-/

namespace PolarPlot

open Number

/-! ## Steps that succeed -/

section Steps

variable {σ τ α β : Type} {I : σ → Prop}

/-- A step succeeds wherever a condition holds, and keeps it. -/
def Succeeds (I : σ → Prop) (act : Action σ α) : Prop :=
  ∀ s, I s → ∃ a t, act s = .ok a t ∧ I t

/-- A step fails wherever a condition holds. -/
def Fails (I : σ → Prop) (act : Action σ α) (c : Cause) : Prop :=
  ∀ s, I s → ∃ t, act s = .error c t

theorem Succeeds.pure (a : α) : Succeeds I (Pure.pure a) := fun s hs => ⟨a, s, rfl, hs⟩

theorem Succeeds.get : Succeeds I (get : Action σ σ) := fun s hs => ⟨s, s, rfl, hs⟩

theorem Succeeds.modify {f : σ → σ} (hf : ∀ s, I s → I (f s)) :
    Succeeds I (modify f : Action σ Unit) := fun s hs => ⟨(), f s, rfl, hf s hs⟩

theorem Succeeds.bind {act : Action σ α} {g : α → Action σ β} (h : Succeeds I act)
    (hg : ∀ a, Succeeds I (g a)) : Succeeds I (act >>= g) := by
  intro s hs
  obtain ⟨a, t, ha, ht⟩ := h s hs
  obtain ⟨b, u, hb, hu⟩ := hg a t ht
  exact ⟨b, u, (bind_of_ok ha).trans hb, hu⟩

theorem Succeeds.on {J : τ → Prop} {get : σ → τ} {set : τ → σ → σ} {act : Action τ α}
    (h : Succeeds J act) (hget : ∀ s, I s → J (get s)) (hset : ∀ s t, J t → I (set t s)) :
    Succeeds I (Action.on get set act) := by
  intro s hs
  obtain ⟨a, t, ha, ht⟩ := h (get s) (hget s hs)
  exact ⟨a, set t s, Action.on_eq_ok.mpr ⟨t, ha, rfl⟩, hset s t ht⟩

theorem Succeeds.replay {T : Target σ} {cs : List Command} (h : ∀ x ∈ cs, Succeeds I (T.accept x)) :
    Succeeds I (T.replay cs) := by
  induction cs with
  | nil => exact .pure ()
  | cons x cs ih => exact (h x (.head _)).bind fun _ => ih fun y hy => h y (.tail _ hy)

theorem Fails.now {act : Action σ α} {c : Cause} (h : Fails I act c) (g : α → Action σ β) :
    Fails I (act >>= g) c := by
  intro s hs
  obtain ⟨t, ht⟩ := h s hs
  exact ⟨t, bind_eq_error.mpr (.inl ht)⟩

theorem Succeeds.fails {act : Action σ α} {g : α → Action σ β} {c : Cause} (h : Succeeds I act)
    (hg : ∀ a, Fails I (g a) c) : Fails I (act >>= g) c := by
  intro s hs
  obtain ⟨a, t, ha, ht⟩ := h s hs
  obtain ⟨u, hu⟩ := hg a t ht
  exact ⟨u, (bind_of_ok ha).trans hu⟩

/-- A replay fails at the first command that makes the target fail. -/
theorem Fails.replay {T : Target σ} {c : Cause} (bad : Command → Bool) {cs : List Command}
    (hgood : ∀ x ∈ cs, bad x = false → Succeeds I (T.accept x))
    (hbad : ∀ x ∈ cs, bad x → Fails I (T.accept x) c) (h : cs.any bad) :
    Fails I (T.replay cs) c := by
  induction cs with
  | nil => cases h
  | cons x cs ih =>
    cases hx : bad x with
    | true => exact (hbad x (.head _) hx).now _
    | false =>
      rw [List.any_cons, hx, Bool.false_or] at h
      apply (hgood x (.head _) hx).fails
      intro _
      exact ih (fun y hy => hgood y (.tail _ hy)) (fun y hy => hbad y (.tail _ hy)) h

end Steps

/-! ## Writers and listings -/

/-- A writer that never fails. -/
def Writer.Steady (w : Writer) : Prop := w.writeFault = none ∧ w.flushFault = none

theorem Writer.write_succeeds (what text : String) : Succeeds Steady (write what text) := by
  intro w hw
  have hfault : w.nextFault? = none := by simp [nextFault?, hw.1]
  exact ⟨(), { w with written := w.written.push text }, by simp only [write, hfault], hw⟩

theorem Writer.flush_succeeds : Succeeds Steady flush := by
  intro w hw
  exact ⟨(), w, by simp only [flush, hw.2], hw⟩

theorem Target.listing_accept {x : Command} (hx : x.isDrawable) :
    Succeeds Writer.Steady (Target.listing.accept x) := by
  cases x with
  | vertex r theta => exact Writer.write_succeeds _ _
  | arc r theta sweep => exact (Writer.write_succeeds _ _).bind fun _ => Writer.write_succeeds _ _
  | bare r theta => cases hx

/-! ## Pictures -/

namespace Svg

def Steady (s : State) : Prop := s.writer.Steady

variable {canvas : Canvas}

/-- Steps that do not fail by themselves succeed. -/
theorem Composed.succeeds {closing : Bool} {α : Type} {act : Action State α}
    (h : Composed (fun _ => False) closing act) : Succeeds Steady act := by
  induction h with
  | pure a => exact .pure a
  | throw hc => exact hc.elim
  | change hf =>
    apply Succeeds.modify
    intro s hs
    unfold Steady
    rwa [writer_of_change hf]
  | write text => exact (Writer.write_succeeds _ _).on (fun _ hs => hs) fun _ _ ht => ht
  | flush => exact Writer.flush_succeeds.on (fun _ hs => hs) fun _ _ ht => ht
  | look _ _ ih => exact Succeeds.get.bind ih
  | bind _ _ ih ihg => exact ih.bind ihg

theorem accept_succeeds {x : Command} (hx : x.isDrawable) (hr : ¬ 1 < x.r.abs)
    (hinf : x.isInfinite = false) : Succeeds Steady (accept canvas x) := by
  refine (accept_composed fun e he => ?_).succeeds
  cases he with
  | outside h => exact hr h
  | infinite h =>
    rw [hinf] at h
    cases h
  | bare r theta => cases hx

/-- An infinite angle is found when the page is started, and before anything else is done. -/
theorem accept_of_infinite {x : Command} {s t : State} (hstart : start canvas s = .ok () t)
    (hr : ¬ 1 < x.r.abs) (hinf : x.isInfinite) : accept canvas x s = .error .infiniteAngle t := by
  refine (bind_of_ok hstart).trans ?_
  rw [if_neg hr]
  cases x with
  | vertex r theta =>
    refine bind_eq_error.mpr (.inl ?_)
    rw [toCartesian_of_isInf canvas r hinf]
    rfl
  | arc r theta sweep =>
    cases htheta : theta.isInf with
    | true =>
      refine bind_eq_error.mpr (.inl ?_)
      rw [toCartesian_of_isInf canvas r htheta]
      rfl
    | false =>
      simp only [Command.isInfinite, htheta, Bool.false_or] at hinf
      obtain ⟨first, hfirst⟩ := exists_toCartesian canvas r htheta
      refine (bind_of_ok (congrFun hfirst t)).trans (bind_eq_error.mpr (.inl ?_))
      rw [toCartesian_of_isInf canvas r hinf]
      rfl
  | bare r theta => cases hinf

theorem accept_fails {x : Command} (hr : ¬ 1 < x.r.abs) (hinf : x.isInfinite) :
    Fails Steady (accept canvas x) .infiniteAngle := by
  intro s hs
  obtain ⟨_, t, hstart, -⟩ := start_composed.succeeds s hs
  exact ⟨t, accept_of_infinite hstart hr hinf⟩

theorem close_succeeds : Succeeds Steady (close canvas) := close_composed.succeeds

end Svg

end PolarPlot
