import PolarPlot.Drawing.Plan
import PolarPlot.Proofs.Clamp
import PolarPlot.Proofs.Independence
import PolarPlot.Proofs.Steady

/-!
# What escapes a run

A run with a writer that never fails ends well or with an error of this library, but for one thing:
a picture has no place for an infinite angle. `run_reported` says so, and that a text whose run
draws such an angle (`Config.Escapes`) does fail for it.
-/

namespace PolarPlot

open Grammar Number

/-! ## Rescaled commands -/

section Rescaled

variable (factor : Float) (x : Command)

theorem isDrawable_rescale : (Buffer.rescale factor x).isDrawable = x.isDrawable := by
  cases x <;> rfl

theorem isInfinite_rescale : (Buffer.rescale factor x).isInfinite = x.isInfinite := by
  cases x <;> rfl

theorem rescale_in_circle : ¬ 1 < (Buffer.rescale factor x).r.abs := by
  have hr : (Buffer.rescale factor x).r = Buffer.clamp (x.r / factor) := by cases x <;> rfl
  rw [hr]
  exact Buffer.not_lt_abs_clamp _

end Rescaled

/-- What a normalized target gives on when it is closed. -/
def rescaled (cs : List Command) : List Command := cs.map (Buffer.rescale (Buffer.factor cs))

theorem Target.normalized_close {σ : Type} (T : Target σ) (cs : List Command) (s : σ) :
    T.normalized.close ⟨cs.toArray, s⟩ =
      Buffer.onInner (do T.replay (rescaled cs); T.close) ⟨(rescaled cs).toArray, s⟩ := by
  have hnormalize : Buffer.normalize ⟨cs.toArray, s⟩ =
      .ok () ⟨cs.toArray.map (Buffer.rescale (Buffer.factor cs)), s⟩ := rfl
  rw [List.map_toArray] at hnormalize
  exact bind_of_ok hnormalize

/-! ## Runs -/

section Runs

variable {fuel : Nat} {program : List Stmt} {p : Script Unit} {σ : Type} {T : Target σ}
  {I : σ → Prop} {s : σ}

theorem draw_recorder (hp : IsScript fuel program p) :
    draw fuel Target.recorder program [] = Target.recorder.ending p.outcome p.commands :=
  draw_of_taken hp (Target.recorder_replay p.commands [])

theorem draw_of_succeeds (hp : IsScript fuel program p)
    (haccept : ∀ x ∈ p.commands, Succeeds I (T.accept x)) (hclose : Succeeds I T.close) (hs : I s) :
    (draw fuel T program s).1 = (draw fuel Target.recorder program []).1 := by
  obtain ⟨_, t, ht, hI⟩ := Succeeds.replay haccept s hs
  obtain ⟨_, u, hu, _⟩ := hclose t hI
  rw [draw_of_taken hp ht, draw_recorder hp]
  cases p.outcome with
  | error f => rfl
  | ok _ => simp only [Target.ending, hu]; rfl

theorem draw_normalized_of_succeeds (hp : IsScript fuel program p)
    (haccept : ∀ x ∈ rescaled p.commands, Succeeds I (T.accept x)) (hclose : Succeeds I T.close)
    (hs : I s) :
    (draw fuel T.normalized program (Buffer.initial s)).1 =
      (draw fuel Target.recorder program []).1 := by
  obtain ⟨_, t, ht, _⟩ := (Succeeds.replay haccept).bind (fun _ => hclose) s hs
  rw [draw_pushed rfl hp, draw_recorder hp]
  cases p.outcome with
  | error f => rfl
  | ok _ =>
    simp only [Target.ending, Target.normalized_close, Buffer.onInner, Action.on, ht]
    rfl

theorem draw_normalized_of_fails (hp : IsScript fuel program p) {c : Cause}
    (ho : p.outcome = .ok ()) (hreplay : Fails I (T.replay (rescaled p.commands)) c) (hs : I s) :
    (draw fuel T.normalized program (Buffer.initial s)).1 = some (.drawing ⟨[], c⟩) := by
  obtain ⟨t, ht⟩ := hreplay.now (fun _ => T.close) s hs
  rw [draw_pushed rfl hp, ho]
  simp only [Target.ending, Target.normalized_close, Buffer.onInner, Action.on, ht]

/-! ## Settings -/

variable {w : Writer}

theorem draw_listing (hp : IsScript fuel program p) (hw : w.Steady) :
    (draw fuel Target.listing program w).1 = (draw fuel Target.recorder program []).1 :=
  draw_of_succeeds hp (fun x hx => Target.listing_accept (p.drawable x hx)) Writer.flush_succeeds hw

theorem mem_rescaled {x : Command} (hx : x ∈ rescaled p.commands) :
    x.isDrawable ∧ ¬ 1 < x.r.abs ∧ ∃ y ∈ p.commands, x.isInfinite = y.isInfinite := by
  obtain ⟨y, hy, rfl⟩ := List.mem_map.mp hx
  refine ⟨?_, rescale_in_circle _ y, y, hy, isInfinite_rescale _ y⟩
  rw [isDrawable_rescale]
  exact p.drawable y hy

theorem draw_normalized_listing (hp : IsScript fuel program p) (hw : w.Steady) :
    (draw fuel Target.listing.normalized program (Buffer.initial w)).1 =
      (draw fuel Target.recorder program []).1 :=
  draw_normalized_of_succeeds hp (fun _ hx => Target.listing_accept (mem_rescaled hx).1)
    Writer.flush_succeeds hw

theorem draw_picture_of_finite {canvas : Svg.Canvas} (hp : IsScript fuel program p) (hw : w.Steady)
    (hinf : ∀ x ∈ p.commands, x.isInfinite = false) :
    (draw fuel (Target.svg canvas).normalized program (Buffer.initial (Svg.State.initial w))).1 =
      (draw fuel Target.recorder program []).1 := by
  have hs : Svg.Steady (Svg.State.initial w) := hw
  apply draw_normalized_of_succeeds hp _ Svg.close_succeeds hs
  intro x hx
  obtain ⟨hdraw, hr, y, hy, hxy⟩ := mem_rescaled hx
  exact Svg.accept_succeeds hdraw hr (hxy.trans (hinf y hy))

theorem draw_picture_of_infinite {canvas : Svg.Canvas} (hp : IsScript fuel program p)
    (hw : w.Steady) (ho : p.outcome = .ok ()) (hinf : p.commands.any Command.isInfinite) :
    (draw fuel (Target.svg canvas).normalized program (Buffer.initial (Svg.State.initial w))).1 =
      some (.drawing ⟨[], .infiniteAngle⟩) := by
  have hs : Svg.Steady (Svg.State.initial w) := hw
  apply draw_normalized_of_fails hp ho _ hs
  apply Fails.replay Command.isInfinite
  · intro x hx hfinite
    obtain ⟨hdraw, hr, -⟩ := mem_rescaled hx
    exact Svg.accept_succeeds hdraw hr hfinite
  · intro x hx hinfinite
    exact Svg.accept_fails (mem_rescaled hx).2.1 hinfinite
  · obtain ⟨y, hy, hyinf⟩ := List.any_eq_true.mp hinf
    refine List.any_eq_true.mpr ⟨_, List.mem_map_of_mem hy, ?_⟩
    rw [isInfinite_rescale, hyinf]

end Runs

/-- The settings make a picture, and a program draws an infinite angle in it. -/
def Config.Strays (config : Config) (fuel : Nat) (program : List Stmt) : Prop :=
  config.svg ∧ ∃ cs, draw fuel Target.recorder program [] = (none, cs) ∧ cs.any Command.isInfinite

theorem strays_picture {canvas : Svg.Canvas} {config : Config} (hsvg : config.svg) {w : Writer}
    (hw : w.Steady) (fuel : Nat) (program : List Stmt) :
    (config.Strays fuel program →
      (draw fuel (Target.svg canvas).normalized program (Buffer.initial (Svg.State.initial w))).1 =
        some (.drawing ⟨[], .infiniteAngle⟩)) ∧
    (¬ config.Strays fuel program →
      (draw fuel (Target.svg canvas).normalized program (Buffer.initial (Svg.State.initial w))).1 =
        (draw fuel Target.recorder program []).1) := by
  obtain ⟨p, hp⟩ := exists_isScript fuel program
  cases ho : p.outcome with
  | error f =>
    rw [draw_pushed_of_error rfl hp ho, draw_recorder hp, ho]
    refine ⟨?_, fun _ => rfl⟩
    rintro ⟨_, cs, hcs, _⟩
    rw [draw_recorder hp, ho] at hcs
    cases hcs
  | ok _ =>
    have hrecorded : draw fuel Target.recorder program [] = (none, p.commands) := by
      rw [draw_recorder hp, ho]
      rfl
    constructor
    · rintro ⟨_, cs, hcs, hinf⟩
      rw [hrecorded] at hcs
      cases hcs
      exact draw_picture_of_infinite hp hw ho hinf
    · intro hfinite
      apply draw_picture_of_finite hp hw
      intro x hx
      cases hxinf : x.isInfinite with
      | false => rfl
      | true =>
        have hany := List.any_eq_true.mpr ⟨x, hx, hxinf⟩
        exact absurd ⟨hsvg, p.commands, hrecorded, hany⟩ hfinite

theorem Config.exists_plan {config : Config} (hfits : (ofInt? config.svgSize).isSome) {w : Writer}
    (hw : w.Steady) :
    ∃ p, config.plan = .ok p ∧ ∀ (fuel : Nat) (program : List Stmt),
      (config.Strays fuel program →
        (draw fuel p.target program (p.initial w)).1 = some (.drawing ⟨[], .infiniteAngle⟩)) ∧
      (¬ config.Strays fuel program →
        (draw fuel p.target program (p.initial w)).1 =
          (draw fuel Target.recorder program []).1) := by
  cases hsvg : config.svg with
  | true =>
    obtain ⟨size, hsize⟩ := Option.isSome_iff_exists.mp hfits
    refine ⟨.normalized (.svg ⟨config.svgSize, size / 2, config.unitCircle⟩), ?_, ?_⟩
    · simp only [plan, hsvg, svgPlan, Svg.Canvas.ofSize?, hsize]
      rfl
    · exact fun fuel program => strays_picture hsvg hw fuel program
  | false =>
    refine ⟨if config.normalize then .normalized .listing else .listing, ?_, ?_⟩
    · simp [plan, hsvg]
    · intro fuel program
      obtain ⟨p, hp⟩ := exists_isScript fuel program
      refine ⟨fun hstrays => ?_, fun _ => ?_⟩
      · rw [Strays, hsvg] at hstrays
        cases hstrays.1
      · cases config.normalize with
        | true => exact draw_normalized_listing hp hw
        | false => exact draw_listing hp hw

/-! ## Texts -/

section Texts

variable {σ : Type} {fuel : Nat} {T : Target σ} {origin text : String} {program : List Stmt} {s : σ}

theorem run_of_parse_error {e : ParseError} (h : parse origin text = .error e) :
    run fuel T origin text s = (some (.parse e), s) := by
  unfold run
  rw [h]

theorem run_of_rehearsal {f : Failure} (h : parse origin text = .ok program)
    (hv : validate program = some f) : run fuel T origin text s = (some (.rehearsal f), s) := by
  unfold run
  rw [h]
  simp only [rehearseAndDraw, hv]

theorem run_eq_draw (h : parse origin text = .ok program) (hv : validate program = none) :
    run fuel T origin text s = draw fuel T program s := by
  unfold run
  rw [h]
  simp only [rehearseAndDraw, hv]

end Texts

theorem Report.first_isReported {f : Failure} (hc : f.cause.isReported) (b : Bool) :
    (ofFailure b f).first.notice.isReported := by
  unfold ofFailure
  split
  · exact hc
  · rfl

theorem Target.recorder_reports : Target.recorder.Reports := by
  intro command s c t h
  cases h

/-- A well formed program fails with an error of this library, unless it runs out of rounds. -/
theorem draw_recorder_cause {fuel : Nat} {program : List Stmt} (hwell : ∀ s ∈ program, s.wellFormed)
    {e : RunError} (he : (draw fuel Target.recorder program []).1 = some e) :
    ∃ f, e = .drawing f ∧ (f.cause.isReported ∨ f.cause = .outOfFuel) := by
  obtain ⟨p, hp⟩ := exists_isScript fuel program
  rw [draw_recorder hp] at he
  cases ho : p.outcome with
  | ok _ =>
    rw [ho] at he
    cases he
  | error f =>
    rw [ho] at he
    cases he
    have hrun := hp.taken (Target.recorder_replay p.commands [])
    simp only [Script.result, ho] at hrun
    exact ⟨f, rfl, (Stmt.execAll_reported (by simp) Target.recorder_reports hwell hrun).imp_right
      And.left⟩

theorem draw_recorder_reported {fuel : Nat} {program : List Stmt}
    (hwell : ∀ s ∈ program, s.wellFormed) {e : RunError}
    (he : (draw fuel Target.recorder program []).1 = some e)
    (hfuel : ∀ f, e = .drawing f → f.cause ≠ .outOfFuel) : e.report.first.notice.isReported := by
  obtain ⟨f, rfl, hc | hout⟩ := draw_recorder_cause hwell he
  · exact Report.first_isReported hc false
  · exact absurd hout (hfuel f rfl)

/-- The run of a text draws an infinite angle in a picture. -/
def Config.Escapes (config : Config) (fuel : Nat) (origin text : String) : Prop :=
  ∃ program, parse origin text = .ok program ∧ validate program = none ∧ config.Strays fuel program

/-- With a writer that never fails, the run of a text ends well or with an error of this library,
unless it draws an infinite angle in a picture. Then it fails for that, with an error from
outside. -/
theorem run_reported {config : Config} (hfits : (ofInt? config.svgSize).isSome) {w : Writer}
    (hw : w.Steady) (origin text : String) (fuel : Nat) :
    ∃ p, config.plan = .ok p ∧
      (config.Escapes fuel origin text →
        (run fuel p.target origin text (p.initial w)).1 = some (.drawing ⟨[], .infiniteAngle⟩)) ∧
      ∀ e, (run fuel p.target origin text (p.initial w)).1 = some e →
        (∀ f, e = .drawing f → f.cause ≠ .outOfFuel) →
        (e.report.first.notice.isReported ↔ ¬ config.Escapes fuel origin text) := by
  obtain ⟨p, hplan, hdraw⟩ := Config.exists_plan hfits hw
  have hescapes : config.Escapes fuel origin text →
      (run fuel p.target origin text (p.initial w)).1 = some (.drawing ⟨[], .infiniteAngle⟩) := by
    rintro ⟨program, hparse, hvalid, hstrays⟩
    rw [run_eq_draw hparse hvalid]
    exact (hdraw fuel program).1 hstrays
  refine ⟨p, hplan, hescapes, ?_⟩
  intro e he hfuel
  constructor
  · intro hreported h
    rw [hescapes h] at he
    cases he
    cases hreported
  · intro hstays
    cases hparse : parse origin text with
    | error pe =>
      rw [run_of_parse_error hparse] at he
      cases he
      rfl
    | ok program =>
      have hwell := parse_wellFormed hparse
      cases hvalid : validate program with
      | some f =>
        rw [run_of_rehearsal hparse hvalid] at he
        cases he
        obtain ⟨v, hv⟩ := validate_eq_some.mp hvalid
        exact Report.first_isReported (reported_of_validate hwell hv) true
      | none =>
        rw [run_eq_draw hparse hvalid,
          (hdraw fuel program).2 fun h => hstays ⟨program, hparse, hvalid, h⟩] at he
        exact draw_recorder_reported hwell he hfuel

/-- The angle is squared until it is past every finite number. -/
def infiniteTurn : String :=
  "x = 100000000000000000000\nx = x * x\nx = x * x\nx = x * x\nx = x * x\nrender(1, x)"

theorem run_infiniteTurn :
    ∃ p, (Config.mk true 10 false false).plan = .ok p ∧
      (run 0 p.target "" infiniteTurn (p.initial Writer.empty)).1 =
        some (.drawing ⟨[], .infiniteAngle⟩) ∧
      (RunError.drawing ⟨[], .infiniteAngle⟩).report.first.notice.isReported = false := by
  have hescapes : (Config.mk true 10 false false).Escapes 0 "" infiniteTurn := by
    have heval : ((parse "" infiniteTurn).toOption.any fun program =>
        (validate program).isNone &&
          match draw 0 Target.recorder program [] with
          | (none, cs) => cs.any Command.isInfinite
          | (some _, _) => false) = true := by
      decide +kernel
    cases hparse : parse "" infiniteTurn with
    | error e =>
      rw [hparse] at heval
      cases heval
    | ok program =>
      rw [hparse] at heval
      simp only [Except.toOption, Option.any_some, Bool.and_eq_true,
        Option.isNone_iff_eq_none] at heval
      obtain ⟨hvalid, hdraw⟩ := heval
      refine ⟨program, hparse, hvalid, rfl, ?_⟩
      split at hdraw
      · rename_i cs hcs
        exact ⟨cs, hcs, hdraw⟩
      · cases hdraw
  obtain ⟨p, hplan, hrun, -⟩ :=
    @run_reported ⟨true, 10, false, false⟩ (by decide) Writer.empty ⟨rfl, rfl⟩ "" infiniteTurn 0
  exact ⟨p, hplan, hrun hescapes, rfl⟩

end PolarPlot
