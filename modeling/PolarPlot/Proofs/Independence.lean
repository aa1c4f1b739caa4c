import PolarPlot.Proofs.Script

/-!
# A drawing does not depend on its target

The commands of a program and its end can be read off a run against a target that takes everything
(`Target.recorder`). A run against any other target gives it these commands, up to the first that it
rejects (`Shown`), and a buffer in between only makes them come later (`draw_of_recorded`).
-/

namespace PolarPlot

/-! ## Targets that keep a record -/

/-- Keeps all commands. -/
def Target.recorder : Target (List Command) where
  accept x := modify (· ++ [x])
  close := pure ()

/-- What was asked of a target. -/
inductive Event where
  | offer (x : Command)
  | close
  deriving DecidableEq

/-- What was asked of a target so far, and its state. -/
structure Logged (σ : Type) where
  events : List Event
  state : σ

/-- Does a step and notes it, whether or not it fails. -/
def Logged.note {σ : Type} (e : Event) (act : Action σ Unit) : Action (Logged σ) Unit := fun l =>
  match act l.state with
  | .ok _ t => .ok () ⟨l.events ++ [e], t⟩
  | .error c t => .error c ⟨l.events ++ [e], t⟩

/-- The same target with a log of what was asked of it. -/
def Target.logged {σ : Type} (T : Target σ) : Target (Logged σ) where
  accept x := Logged.note (.offer x) (T.accept x)
  close := Logged.note .close T.close

namespace Target

variable {σ : Type} {T : Target σ} {s t : σ}

theorem recorder_replay (cs ds : List Command) : recorder.replay cs ds = .ok () (ds ++ cs) := by
  induction cs generalizing ds with
  | nil => simp [replay]
  | cons x cs ih =>
    have h := ih (ds ++ [x])
    rw [List.append_assoc] at h
    exact h

theorem logged_replay {cs : List Command} (h : T.replay cs s = .ok () t) (es : List Event) :
    T.logged.replay cs ⟨es, s⟩ = .ok () ⟨es ++ cs.map .offer, t⟩ := by
  induction cs generalizing s es with
  | nil =>
    cases h
    simp [replay]
  | cons x cs ih =>
    rw [replay, bind_eq_ok] at h
    obtain ⟨_, u, hu, h⟩ := h
    have hx : T.logged.accept x ⟨es, s⟩ = .ok () ⟨es ++ [.offer x], u⟩ := by
      simp only [logged, Logged.note, hu]
    rw [replay, bind_of_ok hx, ih h, List.append_assoc]
    rfl

theorem push_replay {U : Target (Buffer σ)} (hU : U.accept = Buffer.push) (cs : List Command)
    (items : Array Command) : U.replay cs ⟨items, s⟩ = .ok () ⟨items ++ cs.toArray, s⟩ := by
  induction cs generalizing items with
  | nil => simp [replay]
  | cons x cs ih =>
    have hpush : U.accept x ⟨items, s⟩ = .ok () ⟨items.push x, s⟩ := by
      rw [hU]
      rfl
    rw [replay, bind_of_ok hpush, ih]
    simp

/-- A buffer takes every command. -/
theorem initial_replay {U : Target (Buffer σ)} (hU : U.accept = Buffer.push) (cs : List Command) :
    U.replay cs (Buffer.initial s) = .ok () ⟨cs.toArray, s⟩ := by
  rw [Buffer.initial, push_replay hU]
  simp

end Target

/-! ## Runs by their scripts -/

section Drawing

variable {fuel fuel' : Nat} {program : List Stmt} {p : Script Unit}

/-- The script of a program, from the start. -/
def IsScript (fuel : Nat) (program : List Stmt) (p : Script Unit) : Prop :=
  Obeys (fun _ T => Stmt.execAll .real fuel T program) .empty p

theorem exists_isScript (fuel : Nat) (program : List Stmt) : ∃ p, IsScript fuel program p :=
  Stmt.scripted_execAll .real fuel program .empty

/-- The end of a run that has given all commands: the target is closed, unless the program
failed. -/
def Target.ending {σ : Type} (T : Target σ) (o : Except Failure Unit) (t : σ) :
    Option RunError × σ :=
  match o with
  | .error f => (some (.drawing f), t)
  | .ok _ =>
    match T.close t with
    | .ok _ u => (none, u)
    | .error c u => (some (.drawing ⟨[], c⟩), u)

theorem draw_of_taken (hp : IsScript fuel program p) {σ : Type} {T : Target σ} {s t : σ}
    (ht : T.replay p.commands s = .ok () t) :
    draw fuel T program s = T.ending p.outcome t := by
  have hrun : Stmt.execAll .real fuel T program (Machine.fresh s) = p.result t := hp.taken ht
  cases ho : p.outcome with
  | error f =>
    simp only [Script.result, ho] at hrun
    simp only [draw, execute, bind_eq_error.mpr (.inl hrun), Target.ending]
  | ok a =>
    simp only [Script.result, ho] at hrun
    simp only [draw, execute, bind_of_ok hrun, Target.ending, Exec.onTarget]
    cases T.close t <;> rfl

theorem draw_of_rejected (hp : IsScript fuel program p) {before after : List Command} {x : Command}
    (hx : p.commands = before ++ x :: after) :
    ∃ frames, ∀ {σ : Type} {T : Target σ} {s t u : σ} {c : Cause}, T.replay before s = .ok () t →
      T.accept x t = .error c u →
      draw fuel T program s = (some (.drawing (.raised frames c)), u) := by
  obtain ⟨frames, vars, h⟩ := hp.rejected hx
  refine ⟨frames, ?_⟩
  intro σ T s t u c ht hc
  have hrun : Stmt.execAll .real fuel T program (Machine.fresh s) =
      .error (.raised frames c) ⟨vars, u⟩ := h ht hc
  simp only [draw, execute, bind_eq_error.mpr (.inl hrun)]

theorem ending_recorder (o : Except Failure Unit) (cs : List Command) :
    Target.recorder.ending o cs = ((Target.recorder.ending o cs).1, cs) := by
  cases o <;> rfl

/-- What was recorded is the script, also of runs whose loops may run for longer. -/
theorem exists_script_of_recorded {r : Option RunError} {cs : List Command}
    (h : draw fuel Target.recorder program [] = (r, cs))
    (hr : ∀ f, r = some (.drawing f) → f.cause ≠ .outOfFuel) (hle : fuel ≤ fuel') :
    ∃ p, IsScript fuel' program p ∧ p.commands = cs ∧
      r = (Target.recorder.ending p.outcome cs).1 := by
  obtain ⟨p, hp⟩ := exists_isScript fuel' program
  have htaken : Target.recorder.replay p.commands [] = .ok () p.commands :=
    Target.recorder_replay _ _
  obtain ⟨f, n, hf, hout⟩ | hsame := execute_extends Target.recorder hle program (Machine.fresh [])
  · simp only [draw, hf, Prod.mk.injEq] at h
    exact absurd hout (hr f h.1.symm)
  · have hdraw : draw fuel Target.recorder program [] = draw fuel' Target.recorder program [] := by
      simp only [draw, hsame]
    rw [hdraw, draw_of_taken hp htaken, ending_recorder, Prod.mk.injEq] at h
    obtain ⟨rfl, rfl⟩ := h
    exact ⟨p, hp, rfl, rfl⟩

/-- The error of a run, outside of all statements. -/
def RunError.unframed : RunError → RunError
  | .drawing f => .drawing ⟨[], f.cause⟩
  | e => e

variable {σ : Type} {T : Target σ}

theorem draw_pushed {U : Target (Buffer σ)} (hU : U.accept = Buffer.push)
    (hp : IsScript fuel program p) (s : σ) :
    draw fuel U program (Buffer.initial s) = U.ending p.outcome ⟨p.commands.toArray, s⟩ :=
  draw_of_taken hp (Target.initial_replay hU p.commands)

/-- Where a program fails, a buffer gives nothing on. -/
theorem draw_pushed_of_error {U : Target (Buffer σ)} (hU : U.accept = Buffer.push)
    (hp : IsScript fuel program p) {f : Failure} (ho : p.outcome = .error f) (s : σ) :
    draw fuel U program (Buffer.initial s) = (some (.drawing f), ⟨p.commands.toArray, s⟩) := by
  rw [draw_pushed hU hp, ho, Target.ending]

/-- A buffer leaves its target as a run against the target does. -/
theorem draw_buffered_of_ok (hp : IsScript fuel program p) (ho : p.outcome = .ok ()) (s : σ) :
    draw fuel T.buffered program (Buffer.initial s) =
      ((draw fuel T program s).1.map RunError.unframed,
        ⟨p.commands.toArray, (draw fuel T program s).2⟩) := by
  have hclose : T.buffered.close ⟨p.commands.toArray, s⟩ =
      Buffer.onInner (do T.replay p.commands; T.close) ⟨p.commands.toArray, s⟩ := rfl
  rw [draw_pushed rfl hp, ho]
  simp only [Target.ending, hclose, Buffer.onInner, Action.on]
  cases ht : T.replay p.commands s with
  | ok _ t =>
    rw [bind_of_ok ht, draw_of_taken hp ht, ho, Target.ending]
    cases T.close t <;> rfl
  | error c t =>
    -- the same command is rejected while the program runs
    obtain ⟨before, x, after, u, hx, hu, hc⟩ := Target.replay_eq_error.mp ht
    obtain ⟨frames, hdraw⟩ := draw_of_rejected hp hx
    rw [bind_eq_error.mpr (.inl ht), hdraw hu hc]
    simp [RunError.unframed]

end Drawing

/-! ## Any target -/

/-- How a run shows commands to a target, from a state of it: what it reports, and what the target
was asked. The program itself ends with `r`. -/
inductive Shown {σ : Type} (T : Target σ) (r : Option RunError) (cs : List Command) (s : σ) :
    Option RunError → Logged σ → Prop where
  | stopped {e : RunError} {t : σ} : T.replay cs s = .ok () t → r = some e →
      Shown T r cs s (some e) ⟨cs.map .offer, t⟩
  | closed {t u : σ} : T.replay cs s = .ok () t → r = none → T.close t = .ok () u →
      Shown T r cs s none ⟨cs.map .offer ++ [.close], u⟩
  | unclosed {t u : σ} {c : Cause} : T.replay cs s = .ok () t → r = none → T.close t = .error c u →
      Shown T r cs s (some (.drawing ⟨[], c⟩)) ⟨cs.map .offer ++ [.close], u⟩
  | rejected {before after : List Command} {x : Command} {t u : σ} {c : Cause} {f : Failure} :
      cs = before ++ x :: after → T.replay before s = .ok () t → T.accept x t = .error c u →
      (RunError.drawing f).report.root = .cause c →
      Shown T r cs s (some (.drawing f)) ⟨(before ++ [x]).map .offer, u⟩

theorem Shown.close_mem_iff {σ : Type} {T : Target σ} {cs : List Command} {s : σ}
    {e : Option RunError} {log : Logged σ} (h : Shown T none cs s e log) :
    .close ∈ log.events ↔ ∃ t, T.replay cs s = .ok () t := by
  cases h with
  | stopped ht hr => cases hr
  | closed ht => simpa using ⟨_, ht⟩
  | unclosed ht => simpa using ⟨_, ht⟩
  | rejected hx ht hc =>
    have herror := Target.replay_eq_error.mpr ⟨_, _, _, _, hx, ht, hc⟩
    simp [herror]

theorem IsScript.shown {fuel : Nat} {program : List Stmt} {p : Script Unit}
    (hp : IsScript fuel program p) {σ : Type} (T : Target σ) (s : σ) :
    ∃ e log, draw fuel T.logged program ⟨[], s⟩ = (e, log) ∧
    draw fuel T program s = (e, log.state) ∧
      Shown T (Target.recorder.ending p.outcome p.commands).1 p.commands s e log := by
  cases ht : T.replay p.commands s with
  | ok _ t =>
    have hlog := Target.logged_replay ht []
    rw [draw_of_taken hp ht, draw_of_taken hp hlog]
    cases p.outcome with
    | error f => exact ⟨_, _, rfl, rfl, .stopped ht rfl⟩
    | ok a =>
      simp only [Target.ending, Target.logged, Logged.note]
      cases hc : T.close t with
      | ok _ u => exact ⟨_, _, rfl, rfl, .closed ht rfl hc⟩
      | error c u => exact ⟨_, _, rfl, rfl, .unclosed ht rfl hc⟩
  | error c u =>
    obtain ⟨before, x, after, t, hx, ht, hc⟩ := Target.replay_eq_error.mp ht
    obtain ⟨frames, hdraw⟩ := draw_of_rejected hp hx
    have hlog : T.logged.accept x ⟨before.map .offer, t⟩ =
        .error c ⟨(before ++ [x]).map .offer, u⟩ := by
      simp [Target.logged, Logged.note, hc]
    refine ⟨_, _, hdraw (Target.logged_replay ht []) hlog, hdraw ht hc, .rejected hx ht hc ?_⟩
    rw [RunError.report, Report.root_ofFailure, Failure.raised_cause]

/-- A program gives every target the commands that it gives a recorder, and ends in the same way,
but for what the target itself rejects. A buffer gives nothing on if the program fails, and else all
of it in the end. -/
theorem draw_of_recorded {fuel fuel' : Nat} {program : List Stmt} {r : Option RunError}
    {cs : List Command} (h : draw fuel Target.recorder program [] = (r, cs))
    (hr : ∀ f, r = some (.drawing f) → f.cause ≠ .outOfFuel) (hle : fuel ≤ fuel') {σ : Type}
    (T : Target σ) (s : σ) :
    ∃ e log, draw fuel' T.logged program ⟨[], s⟩ = (e, log) ∧
      draw fuel' T program s = (e, log.state) ∧ Shown T r cs s e log ∧
      ∃ e' b, draw fuel' T.logged.buffered program (Buffer.initial ⟨[], s⟩) = (e', b) ∧
        draw fuel' T.buffered program (Buffer.initial s) = (e', ⟨b.items, b.inner.state⟩) ∧
        (∀ g, r = some g → e' = some g ∧ b.inner = ⟨[], s⟩) ∧
        (r = none → b.inner = log ∧ e' = e.map RunError.unframed ∧
          (.close ∈ b.inner.events ↔ ∃ t, T.replay cs s = .ok () t)) := by
  obtain ⟨p, hp, rfl, rfl⟩ := exists_script_of_recorded h hr hle
  obtain ⟨e, log, hlogged, hdirect, hshown⟩ := hp.shown T s
  refine ⟨e, log, hlogged, hdirect, hshown, ?_⟩
  cases ho : p.outcome with
  | error f =>
    refine ⟨_, _, draw_pushed_of_error rfl hp ho _, draw_pushed_of_error rfl hp ho s, ?_, ?_⟩
    · rintro g ⟨⟩
      exact ⟨rfl, rfl⟩
    · intro hnone
      cases hnone
  | ok a =>
    rw [ho] at hshown
    have hbuffered := draw_buffered_of_ok hp ho s (T := T)
    have hboth := draw_buffered_of_ok hp ho ⟨[], s⟩ (T := T.logged)
    rw [hdirect] at hbuffered
    rw [hlogged] at hboth
    refine ⟨_, _, hboth, hbuffered, ?_, ?_⟩
    · intro g hg
      cases hg
    · intro _
      exact ⟨rfl, rfl, hshown.close_mem_iff⟩

/-- Takes as many commands as its state says, and rejects the next. -/
def Target.limited : Target Nat where
  accept _ := fun n => match n with
    | 0 => .error (.output "write" "full") 0
    | n + 1 => .ok () n
  close := pure ()

/-- A point is drawn in each of two rounds. -/
def twoDots : List Stmt :=
  [.loop .unknown "i" (.const .unknown 0) (.const .unknown 1) (some (.const .unknown 1)) true
    [.call .unknown (.call .unknown "render" [.const .unknown 1, .var .unknown "i"])]]

theorem draw_twoDots_limited :
    draw 2 Target.recorder twoDots [] = (none, [.vertex 1 0, .vertex 1 1]) ∧
      ∃ e log, draw 3 Target.limited.logged twoDots ⟨[], 1⟩ = (e, log) ∧
        Shown Target.limited none [.vertex 1 0, .vertex 1 1] 1 e log ∧
        ∃ e' b, draw 3 Target.limited.logged.buffered twoDots (Buffer.initial ⟨[], 1⟩) = (e', b) ∧
          b.inner = log ∧ e' = e.map RunError.unframed ∧ .close ∉ b.inner.events := by
  have h : draw 2 Target.recorder twoDots [] = (none, [.vertex 1 0, .vertex 1 1]) := by rfl
  obtain ⟨e, log, hlogged, -, hshown, e', b, hbuffered, -, -, hnone⟩ :=
    draw_of_recorded h (by simp) (by decide : 2 ≤ 3) Target.limited 1
  obtain ⟨hinner, herror, hclose⟩ := hnone rfl
  refine ⟨h, e, log, hlogged, hshown, e', b, hbuffered, hinner, herror, ?_⟩
  rw [hclose]
  rintro ⟨t, ht⟩
  cases ht

end PolarPlot
