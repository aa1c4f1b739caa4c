import PolarPlot.Proofs.Escape

/-!
# Normalized commands

A normalized target gives on one command for each that it was given, in the same order. Only the
radius changes, and it ends up in `[-1, 1]`, whatever the radii were (`forall₂_rescaled`). So a
picture behind a normalized target never rejects a radius (`normalized_offers`).
-/

namespace PolarPlot

open Grammar Number

/-! ## Radii -/

theorem Buffer.clamp_mem (x : Float) : (clamp x).isNaN = false ∧ -1 ≤ clamp x ∧ clamp x ≤ 1 := by
  obtain ⟨hl, hr, h⟩ | ⟨_, _, h⟩ | ⟨_, h⟩ := clamp_cases x <;> rw [h]
  · exact ⟨(isNaN_of_le (float_le_of_lt hl)).2, float_le_of_lt hl, float_le_of_lt hr⟩
  · decide
  · decide

/-- A command as it is given on: the same but for its radius, which is a number in `[-1, 1]`. -/
structure Command.GivenOn (x y : Command) : Prop where
  same : y = x.withRadius y.r
  number : y.r.isNaN = false
  lower : -1 ≤ y.r
  upper : y.r ≤ 1

theorem givenOn_rescale (factor : Float) (x : Command) : x.GivenOn (Buffer.rescale factor x) := by
  obtain ⟨hnumber, hlower, hupper⟩ := Buffer.clamp_mem (x.r / factor)
  cases x <;> exact ⟨rfl, hnumber, hlower, hupper⟩

theorem forall₂_rescaled (cs : List Command) : List.Forall₂ Command.GivenOn cs (rescaled cs) := by
  rw [rescaled, List.forall₂_map_right_iff, List.forall₂_same]
  exact fun x _ => givenOn_rescale _ x

/-! ## Closing -/

section Closing

variable {σ : Type} (T : Target σ)

/-- A normalized target shows its target all commands and closes it, up to the first that is
rejected. -/
theorem shown_normalized (cs : List Command) (s : σ) :
    ∃ e b, T.logged.normalized.ending (.ok ()) ⟨cs.toArray, ⟨[], s⟩⟩ = (e, b) ∧
      T.normalized.ending (.ok ()) ⟨cs.toArray, s⟩ = (e, ⟨b.items, b.inner.state⟩) ∧
      b.items = (rescaled cs).toArray ∧ Shown T none (rescaled cs) s e b.inner := by
  simp only [Target.ending, Target.normalized_close, Buffer.onInner, Action.on]
  cases ht : T.replay (rescaled cs) s with
  | ok _ t =>
    rw [bind_of_ok ht, bind_of_ok (Target.logged_replay ht [])]
    simp only [Target.logged, Logged.note]
    cases hc : T.close t with
    | ok _ u => exact ⟨_, _, rfl, rfl, rfl, .closed ht rfl hc⟩
    | error c u => exact ⟨_, _, rfl, rfl, rfl, .unclosed ht rfl hc⟩
  | error c u =>
    obtain ⟨before, x, after, t, hx, hbefore, hc⟩ := Target.replay_eq_error.mp ht
    have hlog : T.logged.replay (rescaled cs) ⟨[], s⟩ =
        .error c ⟨(before ++ [x]).map .offer, u⟩ := by
      refine Target.replay_eq_error.mpr
        ⟨before, x, after, _, hx, Target.logged_replay hbefore [], ?_⟩
      simp [Target.logged, Logged.note, hc]
    rw [bind_eq_error.mpr (.inl ht), bind_eq_error.mpr (.inl hlog)]
    exact ⟨_, _, rfl, rfl, rfl, .rejected hx hbefore hc rfl⟩

end Closing

/-! ## Causes -/

/-- A cause that is no radius outside of the unit circle. -/
def Cause.SparesRadius (c : Cause) : Prop := ∀ r, c ≠ .unnormalized r

theorem Cause.sparesRadius_of_isRender {c : Cause} (h : c.isRender = false) : c.SparesRadius := by
  rintro r rfl
  cases h

theorem Command.Refused.spares {x : Command} (hr : ¬ 1 < x.r.abs) {e : Cause} (h : x.Refused e) :
    e.SparesRadius := by
  cases h with
  | outside hx => exact absurd hx hr
  | infinite | bare => simp [Cause.SparesRadius]

/-- Closing a picture after commands in the unit circle does not fail for a radius. -/
theorem Svg.replay_close_spares {canvas : Svg.Canvas} {cs : List Command}
    (hcs : ∀ x ∈ cs, ¬ 1 < x.r.abs) {s t : Svg.State} {c : Cause}
    (h : (do
      (Target.svg canvas).replay cs
      (Target.svg canvas).close) s = .error c t) : c.SparesRadius := by
  have hcomposed : Svg.Composed Cause.SparesRadius true (do
      (Target.svg canvas).replay cs
      (Target.svg canvas).close) :=
    (Svg.replay_composed fun x hx _ he => he.spares (hcs x hx)).bind fun _ => Svg.close_composed
  obtain hc | ⟨action, detail, rfl⟩ := hcomposed.cause_of_error h
  · exact hc
  · simp [Cause.SparesRadius]

/-! ## Runs -/

/-- The causes of a script are those of its program, which draws nothing itself. -/
theorem IsScript.spares {fuel : Nat} {program : List Stmt} {p : Script Unit} {f : Failure}
    (hp : IsScript fuel program p) (hf : p.outcome = .error f) : f.cause.SparesRadius := by
  have hrun := hp.taken (Target.recorder_replay p.commands [])
  simp only [Script.result, hf] at hrun
  obtain ⟨x, s, t, h⟩ | ⟨h, _⟩ := Stmt.execAll_blames hrun
  · cases h
  · exact Cause.sparesRadius_of_isRender h

theorem draw_picture_spares {fuel : Nat} {canvas : Svg.Canvas} {program : List Stmt} {w : Writer}
    {e : RunError}
    (h : (draw fuel (Target.svg canvas).normalized program
      (Buffer.initial (Svg.State.initial w))).1 = some e) :
    ∃ f, e = .drawing f ∧ f.cause.SparesRadius := by
  obtain ⟨p, hp⟩ := exists_isScript fuel program
  rw [draw_pushed rfl hp] at h
  cases ho : p.outcome with
  | error f =>
    rw [ho] at h
    cases h
    exact ⟨f, rfl, hp.spares ho⟩
  | ok _ =>
    rw [ho] at h
    simp only [Target.ending, Target.normalized_close] at h
    split at h
    · cases h
    · rename_i c u herror
      cases h
      obtain ⟨t, ht, -⟩ := Action.on_eq_error.mp herror
      exact ⟨_, rfl, Svg.replay_close_spares (fun x hx => (mem_rescaled hx).2.1) ht⟩

theorem validate_spares {program : List Stmt} {f : Failure} (h : validate program = some f) :
    f.cause.SparesRadius := by
  obtain ⟨v, hv⟩ := validate_eq_some.mp h
  obtain ⟨x, s, t, h⟩ | ⟨h, _⟩ := Stmt.execAll_blames hv
  · cases h
  · exact Cause.sparesRadius_of_isRender h

/-- The run failed for a radius outside of the unit circle. -/
def RunError.isUnnormalized (e : RunError) : Prop := ∃ r, e.report.root = .cause (.unnormalized r)

theorem RunError.not_isUnnormalized {e : RunError} {f : Failure} (hf : f.cause.SparesRadius)
    (he : e = .drawing f ∨ e = .rehearsal f) : ¬ e.isUnnormalized := by
  rintro ⟨r, hr⟩
  rcases he with rfl | rfl
  all_goals
    rw [RunError.report, Report.root_ofFailure, Notice.cause.injEq] at hr
    exact hf r hr

theorem rehearseAndDraw_picture_spares {fuel : Nat} {canvas : Svg.Canvas} {program : List Stmt}
    {w : Writer} {e : RunError}
    (h : (rehearseAndDraw fuel (Target.svg canvas).normalized program
      (Buffer.initial (Svg.State.initial w))).1 = some e) : ¬ e.isUnnormalized := by
  unfold rehearseAndDraw at h
  cases hv : validate program with
  | some f =>
    rw [hv] at h
    cases h
    exact RunError.not_isUnnormalized (validate_spares hv) (.inr rfl)
  | none =>
    rw [hv] at h
    obtain ⟨f, rfl, hf⟩ := draw_picture_spares h
    exact RunError.not_isUnnormalized hf (.inl rfl)

theorem run_picture_spares {fuel : Nat} {canvas : Svg.Canvas} {origin text : String} {w : Writer}
    {e : RunError}
    (h : (run fuel (Target.svg canvas).normalized origin text
      (Buffer.initial (Svg.State.initial w))).1 = some e) : ¬ e.isUnnormalized := by
  unfold run at h
  cases hp : parse origin text with
  | error pe =>
    rw [hp] at h
    cases h
    rintro ⟨r, hr⟩
    cases hr
  | ok program =>
    rw [hp] at h
    exact rehearseAndDraw_picture_spares h

theorem Config.plan_of_svg {config : Config} (hsvg : config.svg) {p : Plan}
    (hp : config.plan = .ok p) : ∃ canvas, p = .normalized (.svg canvas) := by
  simp only [plan, hsvg, if_true, svgPlan] at hp
  split at hp
  · cases hp
    exact ⟨_, rfl⟩
  · cases hp

/-- Closing a normalized target shows the target behind it each buffered command once and in order,
with the same kind and angles and at a radius in `[-1, 1]`. So no run of a program with the settings
for a picture fails for a radius, whatever the program and the writer. -/
theorem normalized_offers {σ : Type} (T : Target σ) (cs : List Command) (s : σ) :
    (∃ ds e b, List.Forall₂ Command.GivenOn cs ds ∧
      T.logged.normalized.ending (.ok ()) ⟨cs.toArray, ⟨[], s⟩⟩ = (e, b) ∧
      T.normalized.ending (.ok ()) ⟨cs.toArray, s⟩ = (e, ⟨b.items, b.inner.state⟩) ∧
      b.items = ds.toArray ∧ Shown T none ds s e b.inner) ∧
    ∀ {config : Config} {p : Plan}, config.svg → config.plan = .ok p →
      ∀ (w : Writer) (fuel : Nat) (e : RunError),
        (∀ program, (draw fuel p.target program (p.initial w)).1 = some e → ¬ e.isUnnormalized) ∧
        (∀ program, (rehearseAndDraw fuel p.target program (p.initial w)).1 = some e →
          ¬ e.isUnnormalized) ∧
        ∀ origin text, (run fuel p.target origin text (p.initial w)).1 = some e →
          ¬ e.isUnnormalized := by
  constructor
  · obtain ⟨e, b, hlogged, hclose, hitems, hshown⟩ := shown_normalized T cs s
    exact ⟨rescaled cs, e, b, forall₂_rescaled cs, hlogged, hclose, hitems, hshown⟩
  · intro config p hsvg hp w fuel e
    obtain ⟨canvas, rfl⟩ := Config.plan_of_svg hsvg hp
    refine ⟨fun program h => ?_, fun program h => ?_, fun origin text h => ?_⟩
    · obtain ⟨f, rfl, hf⟩ := draw_picture_spares h
      exact RunError.not_isUnnormalized hf (.inl rfl)
    · exact rehearseAndDraw_picture_spares h
    · exact run_picture_spares h

/-- Radii that are past every number, or none at all. -/
def oddRadii : List Command := [.vertex nan 0, .arc infinity 1 2, .vertex (-3) 4]

/-- A writer that takes a single piece of text. -/
def briefWriter : Writer := ⟨#[], 0, some (1, "full"), none⟩

theorem oddRadii_offers :
    (∃ ds, List.Forall₂ Command.GivenOn oddRadii ds ∧ ds.length = 3 ∧
      ∃ e b, Target.recorder.normalized.ending (.ok ()) ⟨oddRadii.toArray, []⟩ = (e, b) ∧
        b.items = ds.toArray) ∧
    ∃ p e, (Config.mk true 10 false false).plan = .ok p ∧
      (run 0 p.target "" "render(5, 0)" (p.initial briefWriter)).1 = some e ∧
      ¬ e.isUnnormalized := by
  obtain ⟨⟨ds, e, b, hds, -, hclose, hitems, -⟩, hspares⟩ :=
    normalized_offers Target.recorder oddRadii []
  refine ⟨⟨ds, hds, hds.length_eq.symm, e, _, hclose, hitems⟩, ?_⟩
  have hplan : (Config.mk true 10 false false).plan = .ok (.normalized (.svg ⟨10, 5, false⟩)) := rfl
  have hfails : (run 0 (Target.svg ⟨10, 5, false⟩).normalized "" "render(5, 0)"
      (Buffer.initial (Svg.State.initial briefWriter))).1.isSome = true := by
    decide +kernel
  obtain ⟨e, he⟩ := Option.isSome_iff_exists.mp hfails
  exact ⟨_, e, hplan, he, (hspares rfl hplan briefWriter 0 e).2.2 "" "render(5, 0)" he⟩

end PolarPlot
