import PolarPlot.Proofs.Independence
import PolarPlot.Proofs.Picture

/-!
# Commands that a picture refuses

With a writer that never fails, a picture refuses a command for what the command is
(`Command.fits`), and it does so before it has done anything but start the page
(`Svg.accept_of_not_fits`). A page that was started early is the same in the end
(`Svg.close_begun`), so refused commands leave no trace in the document (`Svg.refused_untraced`).
-/

namespace PolarPlot

open Number

/-! ## What a target can be asked -/

namespace Target

variable {σ : Type}

def ask (T : Target σ) : Event → Action σ Unit
  | .offer x => T.accept x
  | .close => T.close

/-- The states that a target comes to, whatever it was asked and whether or not it failed. -/
inductive Reaches (T : Target σ) (first : σ) : σ → Prop where
  | start : Reaches T first first
  | done {s t : σ} (e : Event) : Reaches T first s → T.ask e s = .ok () t → Reaches T first t
  | failed {s t : σ} {c : Cause} (e : Event) : Reaches T first s → T.ask e s = .error c t →
      Reaches T first t

/-- Gives commands one by one and goes on after those that are refused: the commands that were
taken, and the state in the end. -/
def offerAll (T : Target σ) : List Command → σ → List Command × σ
  | [], s => ([], s)
  | c :: cs, s =>
    match T.accept c s with
    | .ok _ t => (c :: (offerAll T cs t).1, (offerAll T cs t).2)
    | .error _ t => offerAll T cs t

variable {T : Target σ} {c : Command} {cs : List Command} {s t : σ}

theorem offerAll_of_ok (h : T.accept c s = .ok () t) :
    T.offerAll (c :: cs) s = (c :: (T.offerAll cs t).1, (T.offerAll cs t).2) := by
  simp only [offerAll, h]

theorem offerAll_of_error {e : Cause} (h : T.accept c s = .error e t) :
    T.offerAll (c :: cs) s = T.offerAll cs t := by
  simp only [offerAll, h]

end Target

namespace Svg

variable {canvas : Canvas} {s t : State} {c : Command}

/-! ## The start of a page -/

/-- The picture with its page started. -/
def State.begun (canvas : Canvas) (s : State) : State :=
  if s.started then s
  else { s with
    started := true
    writer := { s.writer with written := s.writer.written.push (header canvas.size) } }

theorem begun_of_started (h : s.started = true) : s.begun canvas = s := if_pos h

@[simp] theorem begun_started (canvas : Canvas) (s : State) : (s.begun canvas).started = true := by
  unfold State.begun
  split
  · assumption
  · rfl

@[simp] theorem begun_closed (canvas : Canvas) (s : State) :
    (s.begun canvas).closed = s.closed := by
  unfold State.begun
  split <;> rfl

@[simp] theorem begun_begun (canvas : Canvas) (s : State) :
    (s.begun canvas).begun canvas = s.begun canvas :=
  begun_of_started (begun_started canvas s)

theorem Steady.begun (h : Steady s) (canvas : Canvas) : Steady (s.begun canvas) := by
  unfold State.begun
  split <;> exact h

theorem start_begun (h : Steady s) : start canvas s = .ok () (s.begun canvas) := by
  cases hs : s.started with
  | true =>
    rw [begun_of_started hs]
    refine (bind_of_ok rfl).trans ?_
    rw [hs]
    rfl
  | false =>
    have hfault : s.writer.nextFault? = none := by simp [Writer.nextFault?, h.1]
    refine (bind_of_ok rfl).trans ?_
    rw [hs]
    refine (bind_of_ok rfl).trans ?_
    simp [write, Action.on, Writer.write, hfault, State.begun, hs]

/-- Where the page is started first, it may as well be started before. -/
theorem start_bind_begun {α : Type} (h : Steady s) (g : Unit → Action State α) :
    (start canvas >>= g) s = (start canvas >>= g) (s.begun canvas) := by
  have hstart : start canvas (s.begun canvas) = .ok () (s.begun canvas) := by
    rw [start_begun (h.begun canvas), begun_begun]
  rw [bind_of_ok (start_begun h), bind_of_ok hstart]

theorem accept_begun (h : Steady s) (c : Command) :
    accept canvas c s = accept canvas c (s.begun canvas) := start_bind_begun h _

theorem close_begun (h : Steady s) (hs : s.closed = true → s.started = true) :
    close canvas s = close canvas (s.begun canvas) := by
  cases hclosed : s.closed with
  | true => rw [begun_of_started (hs hclosed)]
  | false =>
    have hopen : (!(s.begun canvas).closed) = true := by rw [begun_closed, hclosed]; rfl
    have hopen' : (!s.closed) = true := by rw [hclosed]; rfl
    refine (bind_of_ok rfl).trans (Eq.trans ?_ (bind_of_ok rfl).symm)
    rw [if_pos hopen, if_pos hopen']
    exact start_bind_begun h _

/-! ## Refusals -/

end Svg

/-- Whether a picture can show a command: it is in the unit circle, and its angles are finite. -/
def Command.fits (c : Command) : Bool := c.isDrawable && !decide (1 < c.r.abs) && !c.isInfinite

namespace Svg

variable {canvas : Canvas} {s t : State} {c : Command}

/-- What does not fit is refused, when the page is started and nothing else is done. -/
theorem accept_of_not_fits (canvas : Canvas) (hs : Steady s) (h : c.fits = false) :
    ∃ e, c.Refused e ∧ accept canvas c s = .error e (s.begun canvas) := by
  have hstart : start canvas (s.begun canvas) = .ok () (s.begun canvas) := by
    rw [start_begun (hs.begun canvas), begun_begun]
  rw [accept_begun hs]
  by_cases hr : 1 < c.r.abs
  · refine ⟨_, .outside hr, (bind_of_ok hstart).trans ?_⟩
    rw [if_pos hr]
    rfl
  · cases hinf : c.isInfinite with
    | true => exact ⟨_, .infinite hinf, accept_of_infinite hstart hr hinf⟩
    | false =>
      cases c with
      | bare r theta =>
        refine ⟨_, .bare r theta, (bind_of_ok hstart).trans ?_⟩
        rw [if_neg hr]
        rfl
      | vertex | arc => simp [Command.fits, Command.isDrawable, hr, hinf] at h

theorem accept_of_fits (canvas : Canvas) (hs : Steady s) (h : c.fits = true) :
    ∃ t, accept canvas c s = .ok () t ∧ Steady t := by
  simp only [Command.fits, Bool.and_eq_true, Bool.not_eq_true', decide_eq_false_iff_not] at h
  have hsucceeds : Succeeds Steady (accept canvas c) := accept_succeeds h.1.1 h.1.2 h.2
  obtain ⟨_, t, ht, hsteady⟩ := hsucceeds s hs
  exact ⟨t, ht, hsteady⟩

/-- A command is taken if it fits, and refused if not. -/
theorem accept_cases (canvas : Canvas) (hs : Steady s) (c : Command) :
    (c.fits = true ∧ ∃ t, accept canvas c s = .ok () t ∧ Steady t) ∨
      c.fits = false ∧ ∃ e, c.Refused e ∧ accept canvas c s = .error e (s.begun canvas) := by
  cases hfits : c.fits with
  | true => exact .inl ⟨rfl, accept_of_fits canvas hs hfits⟩
  | false => exact .inr ⟨rfl, accept_of_not_fits canvas hs hfits⟩

/-! ## Pictures that are in order -/

theorem accept_started (hs : Steady s) (h : accept canvas c s = .ok () t) : t.started = true := by
  rw [accept_begun hs] at h
  exact (accept_composed fun _ he => he).started h (begun_started canvas s)

theorem close_started (hs : Steady s) (hsound : s.closed = true → s.started = true)
    (h : close canvas s = .ok () t) : t.started = true := by
  rw [close_begun hs hsound] at h
  exact (close_composed (Q := fun _ => True)).started h (begun_started canvas s)

/-- A picture with a writer that never fails, and with a page if it was closed. -/
structure Sound (s : State) : Prop where
  steady : Steady s
  started : s.closed = true → s.started = true

theorem Sound.begun (h : Sound s) (canvas : Canvas) : Sound (s.begun canvas) where
  steady := h.steady.begun canvas
  started := fun _ => begun_started canvas s

theorem Sound.accept (h : Sound s) (ht : accept canvas c s = .ok () t) : Sound t where
  steady := by
    obtain ⟨-, u, hu, hsteady⟩ | ⟨-, e, -, hu⟩ := accept_cases canvas h.steady c
    · cases ht.symm.trans hu
      exact hsteady
    · cases ht.symm.trans hu
  started := fun _ => accept_started h.steady ht

theorem accept_eq_error (hs : Steady s) {e : Cause} (ht : Svg.accept canvas c s = .error e t) :
    c.Refused e ∧ t = s.begun canvas := by
  obtain ⟨-, u, hu, -⟩ | ⟨-, e', he, hu⟩ := accept_cases canvas hs c
  · cases ht.symm.trans hu
  · cases ht.symm.trans hu
    exact ⟨he, rfl⟩

theorem Sound.close (h : Sound s) (ht : Svg.close canvas s = .ok () t) : Sound t where
  steady := by
    have hcloses : Succeeds Steady (Svg.close canvas) := close_succeeds
    obtain ⟨_, u, hu, hsteady⟩ := hcloses s h.steady
    rw [ht] at hu
    cases hu
    exact hsteady
  started := fun _ => close_started h.steady h.started ht

/-- A picture stays in order, whatever it is asked. -/
theorem Sound.reaches {w : Writer} (hw : w.Steady)
    (h : (Target.svg canvas).Reaches (.initial w) s) : Sound s := by
  induction h with
  | start => exact ⟨hw, fun h => by cases h⟩
  | done e _ ht ih =>
    cases e with
    | offer x => exact ih.accept ht
    | close => exact ih.close ht
  | failed e _ ht ih =>
    cases e with
    | offer x =>
      obtain ⟨-, rfl⟩ := accept_eq_error ih.steady ht
      exact ih.begun canvas
    | close =>
      have hcloses : Succeeds Steady (Svg.close canvas) := close_succeeds
      obtain ⟨_, u, hu, -⟩ := hcloses _ ih.steady
      rw [Target.ask] at ht
      cases ht.symm.trans hu

/-! ## Documents -/

theorem Sound.replay {cs : List Command} (h : Sound s)
    (ht : (Target.svg canvas).replay cs s = .ok () t) : Sound t := by
  induction cs generalizing s with
  | nil =>
    cases ht
    exact h
  | cons c cs ih =>
    obtain ⟨_, u, hu, ht⟩ := bind_eq_ok.mp ht
    exact ih (h.accept hu) ht

theorem replay_begun {cs : List Command} (hs : Steady s)
    (h : (Target.svg canvas).replay cs (s.begun canvas) = .ok () t) :
    ∃ u, (Target.svg canvas).replay cs s = .ok () u ∧ u.begun canvas = t.begun canvas := by
  cases cs with
  | nil =>
    cases h
    exact ⟨s, rfl, (begun_begun canvas s).symm⟩
  | cons c cs =>
    obtain ⟨_, u, hu, h⟩ := bind_eq_ok.mp h
    exact ⟨t, bind_eq_ok.mpr ⟨(), u, (accept_begun hs c).trans hu, h⟩, rfl⟩

/-- The commands that are taken are those that fit. Given alone they make the same picture, but for
the time when its page is started. -/
theorem replay_offerAll (canvas : Canvas) (hs : Sound s) (cs : List Command) :
    ((Target.svg canvas).offerAll cs s).1 = cs.filter Command.fits ∧
      Sound ((Target.svg canvas).offerAll cs s).2 ∧
      ∃ t, (Target.svg canvas).replay ((Target.svg canvas).offerAll cs s).1 s = .ok () t ∧
        t.begun canvas = ((Target.svg canvas).offerAll cs s).2.begun canvas := by
  induction cs generalizing s with
  | nil => exact ⟨rfl, hs, s, rfl, rfl⟩
  | cons c cs ih =>
    obtain ⟨hfits, u, hu, -⟩ | ⟨hfits, e, -, hu⟩ := accept_cases canvas hs.steady c
    · obtain ⟨htaken, hsound, t, ht, hsame⟩ := ih (hs.accept hu)
      rw [Target.offerAll_of_ok hu, List.filter_cons_of_pos hfits]
      exact ⟨congrArg _ htaken, hsound, t, (bind_of_ok hu).trans ht, hsame⟩
    · -- the page is started by now, which the first command that fits would have done
      obtain ⟨htaken, hsound, t, ht, hsame⟩ := ih (hs.begun canvas)
      obtain ⟨t', ht', hbegun⟩ := replay_begun hs.steady ht
      rw [Target.offerAll_of_error hu, List.filter_cons_of_neg (by simp [hfits])]
      exact ⟨htaken, hsound, t', ht', hbegun.trans hsame⟩

/-- A command is refused for what it is, and leaves a picture as it was, but for the header of a
page that was not started yet. So to go on after refusals makes the same document as to give only
the commands that were taken. -/
theorem refused_untraced (canvas : Canvas) {w : Writer} (hw : w.Steady)
    (hs : (Target.svg canvas).Reaches (.initial w) s) :
    (∀ {c e t}, accept canvas c s = .error e t →
      c.Refused e ∧ t.pending = s.pending ∧ t.polylines = s.polylines ∧ t.paths = s.paths ∧
        t.closed = s.closed ∧ (t.writer = s.writer ∨ s.started = false ∧
          t.writer = { s.writer with written := s.writer.written.push (header canvas.size) })) ∧
    ∀ cs, ∃ t u, ((Target.svg canvas).offerAll cs s).1 = cs.filter Command.fits ∧
      (Target.svg canvas).replay ((Target.svg canvas).offerAll cs s).1 s = .ok () t ∧
      close canvas t = .ok () u ∧
      close canvas ((Target.svg canvas).offerAll cs s).2 = .ok () u := by
  have hsound := Sound.reaches hw hs
  constructor
  · intro c e t ht
    obtain ⟨hrefused, rfl⟩ := accept_eq_error hsound.steady ht
    refine ⟨hrefused, ?_⟩
    unfold State.begun
    cases hstarted : s.started <;> simp
  · intro cs
    obtain ⟨htaken, hlast, t, ht, hsame⟩ := replay_offerAll canvas hsound cs
    have hsound' := hsound.replay ht
    have hcloses : Succeeds Steady (close canvas) := close_succeeds
    obtain ⟨_, u, hu, -⟩ := hcloses t hsound'.steady
    refine ⟨t, u, htaken, ht, hu, ?_⟩
    rw [close_begun hlast.steady hlast.started, ← hsame, ← close_begun hsound'.steady
      hsound'.started, hu]

/-- A point outside of the unit circle, a point on it, an arc without an end and the center. -/
def overshoot : List Command := [.vertex 2 0, .vertex 1 0, .arc 1 0 infinity, .vertex 0 1]

theorem refused_untraced_overshoot : ∃ e p t u,
    accept ⟨10, 5, true⟩ (.vertex 2 0) (.initial .empty) = .error e p ∧ p.pending = #[] ∧
    p.polylines = 0 ∧
      p.paths = 0 ∧ p.closed = false ∧
      (Target.svg ⟨10, 5, true⟩).replay [.vertex 1 0, .vertex 0 1] (.initial .empty) = .ok () t ∧
      close ⟨10, 5, true⟩ t = .ok () u ∧
      close ⟨10, 5, true⟩ ((Target.svg ⟨10, 5, true⟩).offerAll overshoot (.initial .empty)).2 =
        .ok () u := by
  have hsteady : Writer.empty.Steady := ⟨rfl, rfl⟩
  obtain ⟨hrefused, htaken⟩ := refused_untraced ⟨10, 5, true⟩ hsteady .start
  obtain ⟨e, -, he⟩ :=
    accept_of_not_fits ⟨10, 5, true⟩ (s := .initial .empty) (c := .vertex 2 0) hsteady
    (by decide +kernel)
  obtain ⟨-, hpending, hpolylines, hpaths, hclosed, -⟩ := hrefused he
  obtain ⟨t, u, htake, ht, hu, hu'⟩ := htaken overshoot
  have hfits : overshoot.filter Command.fits = [.vertex 1 0, .vertex 0 1] := by decide +kernel
  rw [htake, hfits] at ht
  exact ⟨e, _, t, u, he, hpending, hpolylines, hpaths, hclosed, ht, hu, hu'⟩

end Svg

end PolarPlot
