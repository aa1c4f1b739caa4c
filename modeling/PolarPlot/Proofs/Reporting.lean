import PolarPlot.Eval.Run
import PolarPlot.Proofs.WellFormed

/-!
# What a report shows

The report of a failure is a chain of notices, each the cause of the one before: one for each
statement on the way to the place of the failure, and at the end the cause. `Report.Shows` says that
a report is such a chain, what its root is and how it reads. Programs that were parsed fail with
such reports only (`parse_failure_chain`).
-/

namespace PolarPlot

open Grammar

namespace Report

/-- The notices of a report, the first one first. -/
def notices (r : Report) : List Notice := (r.first :: r.rest).map Entry.notice

/-- The line of a notice at a depth. -/
def indented (depth : Nat) (notice : Notice) : String :=
  String.ofList (List.replicate (2 * depth) ' ') ++ notice.message

/-- A report is a chain of notices that ends in a cause, and shows each on a line of its own. -/
structure Shows (r : Report) (path : List Notice) (c : Cause) : Prop where
  notices_eq : r.notices = path ++ [.cause c]
  linked : ∀ e ∈ r.first :: r.rest, e.link = .both
  root_eq : r.root = .cause c
  text_eq : r.text = "\n".intercalate ((path ++ [Notice.cause c]).mapIdx indented)

theorem lines_eq {es : List Entry} (h : ∀ e ∈ es, e.notice.isReported) (depth : Nat) :
    lines depth es = (es.map Entry.notice).mapIdx fun i n => indented (depth + i) n := by
  induction es generalizing depth with
  | nil => rfl
  | cons e es ih =>
    have hrest := ih (fun e he => h e (.tail _ he)) (depth + 1)
    rw [lines, if_pos (h e (.head _)), hrest, List.map_cons, List.mapIdx_cons]
    simp only [Nat.add_zero, Nat.add_assoc, Nat.add_comm 1]
    rfl

theorem text_eq_of_reported {r : Report} (h : ∀ e ∈ r.rest, e.notice.isReported) :
    r.text = "\n".intercalate (r.notices.mapIdx indented) := by
  have hfirst : indented 0 r.first.notice = r.first.notice.message := by simp [indented]
  rw [text, lines_eq h, notices, List.map_cons, List.mapIdx_cons, hfirst]
  simp only [Nat.add_comm 1]

theorem rootOf_statements {c : Cause} (b : Bool) (frame : Frame) (frames : List Frame) :
    rootOf ⟨.statement b frame, .both⟩
      ((frames.map (Notice.statement false) ++ [Notice.cause c]).map fun n => ⟨n, .both⟩) =
        .cause c := by
  induction frames generalizing b frame with
  | nil => rfl
  | cons next frames ih => exact ih false next

theorem root_ofFailure (b : Bool) (f : Failure) : (ofFailure b f).root = .cause f.cause := by
  unfold ofFailure
  split
  · rfl
  · exact rootOf_statements b _ _

/-- The report of a reported failure shows its statements and its cause. -/
theorem shows_ofFailure {f : Failure} {frame : Frame} {frames : List Frame} (b : Bool)
    (hf : f.frames = frame :: frames) (hc : f.cause.isReported) :
    (ofFailure b f).Shows (.statement b frame :: frames.map (.statement false)) f.cause := by
  have hreport : ofFailure b f =
      ofNotices (.statement b frame) (frames.map (.statement false) ++ [.cause f.cause]) := by
    simp [ofFailure, hf]
  have hnotices : (ofFailure b f).notices =
      .statement b frame :: frames.map (.statement false) ++ [.cause f.cause] := by
    simp [hreport, notices, ofNotices]
  refine ⟨hnotices, ?_, root_ofFailure b f, ?_⟩
  · intro e he
    rw [hreport, ofNotices] at he
    rcases List.mem_cons.mp he with rfl | he
    · rfl
    · obtain ⟨n, _, rfl⟩ := List.mem_map.mp he
      rfl
  · rw [text_eq_of_reported, hnotices]
    intro e he
    rw [hreport] at he
    obtain ⟨n, hn, rfl⟩ := List.mem_map.mp he
    rcases List.mem_append.mp hn with hn | hn
    · obtain ⟨g, _, rfl⟩ := List.mem_map.mp hn
      rfl
    · rw [List.mem_singleton.mp hn]
      exact hc

end Report

/-- The failure of a reported cause on a path to a statement shows that path. -/
theorem Failure.shows_along (loops : List Stmt) (x : Stmt) {c : Cause} (hc : c.isReported) :
    (Report.ofFailure false (.along (loops ++ [x]) c)).Shows
      ((loops ++ [x]).map fun s => .statement false s.frame) c := by
  have hframes := along_frames hc (loops ++ [x])
  cases loops with
  | nil => exact Report.shows_ofFailure false hframes hc
  | cons l loops =>
    have h := Report.shows_ofFailure false hframes hc
    rw [List.map_map] at h
    exact h

theorem Target.discard_reports : Target.discard.Reports := by
  intro command s c t h
  cases h

/-- A rehearsal of a well formed program fails only for a reported cause. -/
theorem reported_of_validate {program : List Stmt} (hp : ∀ s ∈ program, s.wellFormed) {f : Failure}
    {v : Machine Unit}
    (h : Stmt.execAll .rehearsal 1 Target.discard program (Machine.fresh ()) = .error f v) :
    f.cause.isReported := by
  obtain h | ⟨_, hfuel⟩ := Stmt.execAll_reported (by simp) Target.discard_reports hp h
  · exact h
  · cases hfuel rfl

theorem validate_eq_some {program : List Stmt} {f : Failure} : validate program = some f ↔
    ∃ v, Stmt.execAll .rehearsal 1 Target.discard program (Machine.fresh ()) = .error f v := by
  unfold validate
  split <;> rename_i h <;> simp [h]

/-- The report of a rehearsal is that of the same run, with its first statement marked. -/
theorem Report.ofFailure_rehearsed {f : Failure} {frame : Frame} {frames : List Frame}
    (hf : f.frames = frame :: frames) :
    (ofFailure false f).first = ⟨.statement false frame, .both⟩ ∧
      ofFailure true f = { ofFailure false f with first := ⟨.statement true frame, .both⟩ } := by
  simp [ofFailure, ofNotices, hf]

/-- A program that was parsed fails in one place, and its report is the way there: the loops around
that place from the outside in, the statement that failed, and the cause. A rehearsal reports the
same, with the first statement marked. -/
theorem parse_failure_chain {origin text : String} {program : List Stmt}
    (hp : parse origin text = .ok program) :
    (∀ {σ : Type} {target : Target σ} {pass : Pass} {fuel : Nat} {m n : Machine σ} {f : Failure},
      target.Reports → Stmt.execAll pass fuel target program m = .error f n →
      f.cause ≠ .outOfFuel → (pass = .loopless → f.cause ≠ .undefinedOperation) →
      ∃ loops x, Halts pass fuel target program m loops x f.cause n ∧
        (∀ loops' x' c n', Halts pass fuel target program m loops' x' c n' →
          loops' = loops ∧ x' = x) ∧
        (∀ l ∈ loops, l.isLoop) ∧
        (RunError.drawing f).report.Shows ((loops ++ [x]).map fun s => .statement false s.frame)
          f.cause) ∧
    ∀ {f : Failure} {v : Machine Unit},
      Stmt.execAll .rehearsal 1 Target.discard program (Machine.fresh ()) = .error f v →
      validate program = some f ∧ ∃ frame,
        (RunError.drawing f).report.first = ⟨.statement false frame, .both⟩ ∧
        (RunError.rehearsal f).report =
          { (RunError.drawing f).report with first := ⟨.statement true frame, .both⟩ } := by
  have hwell := parse_wellFormed hp
  constructor
  · intro σ target pass fuel m n f ht h hfuel hpass
    obtain ⟨loops, x, hx⟩ | ⟨hout, _⟩ := Stmt.halts_of_execAll h
    · have hc := hx.isReported ht hwell hpass
      have hshows := Failure.shows_along loops x hc
      rw [← hx.eq_along h] at hshows
      exact ⟨loops, x, hx, fun _ _ _ _ h' => hx.unique h', hx.isLoop, hshows⟩
    · exact absurd hout hfuel
  · intro f v h
    have hc := reported_of_validate hwell h
    refine ⟨validate_eq_some.mpr ⟨v, h⟩, ?_⟩
    obtain ⟨loops, x, hx⟩ | ⟨_, hfuel⟩ := Stmt.halts_of_execAll h
    · have hframes := Failure.along_frames hc (loops ++ [x])
      rw [← hx.eq_along h] at hframes
      obtain ⟨frame, frames, hf⟩ : ∃ frame frames, f.frames = frame :: frames :=
        List.exists_cons_of_ne_nil (by simp [hframes])
      exact ⟨frame, Report.ofFailure_rehearsed hf⟩
    · cases hfuel rfl

/-- A quotient fails in the second round of a loop. The rehearsal gets past it, to the statement
after. -/
def failsLater : String :=
  "for i over [1, 0] by 0-1 \x7b\n for j over [0, 0] \x7b x = 1 / i \x7d \x7d\ny = z"

theorem failsLater_chain : ∃ program f n g, parse "" failsLater = .ok program ∧
    Stmt.execAll .real 2 Target.discard program (Machine.fresh ()) = .error f n ∧
    f.frames.length = 3 ∧
    (∃ loops x, Halts .real 2 Target.discard program (Machine.fresh ()) loops x f.cause n ∧
      (RunError.drawing f).report.Shows ((loops ++ [x]).map fun s => .statement false s.frame)
        f.cause) ∧
    validate program = some g ∧ g.cause = .undefinedVariable "z" ∧
    ∃ frame, (RunError.rehearsal g).report =
      { (RunError.drawing g).report with first := ⟨.statement true frame, .both⟩ } := by
  have hdrawn : ((parse "" failsLater).toOption.bind fun program =>
      match Stmt.execAll .real 2 Target.discard program (Machine.fresh ()) with
      | .error f _ => some (f.frames.length, f.cause.isReported)
      | .ok _ _ => none) = some (3, true) := by
    decide +kernel
  have hrehearsed : ((parse "" failsLater).toOption.bind validate).map Failure.cause =
      some (.undefinedVariable "z") := by
    decide +kernel
  cases hp : parse "" failsLater with
  | error e =>
    rw [hp] at hrehearsed
    cases hrehearsed
  | ok program =>
    rw [hp] at hdrawn hrehearsed
    obtain ⟨hchain, hvalidate⟩ := parse_failure_chain hp
    obtain ⟨g, hg, hcause⟩ := Option.map_eq_some_iff.mp hrehearsed
    obtain ⟨v, hv⟩ := validate_eq_some.mp hg
    obtain ⟨hg, frame, -, hreport⟩ := hvalidate hv
    simp only [Except.toOption, Option.bind_some] at hdrawn
    split at hdrawn
    · rename_i f n h
      simp only [Option.some.injEq, Prod.mk.injEq] at hdrawn
      have hfuel : f.cause ≠ .outOfFuel := by
        intro hout
        simp [hout, Cause.isReported] at hdrawn
      obtain ⟨loops, x, hx, -, -, hshows⟩ := hchain Target.discard_reports h hfuel (by simp)
      exact ⟨program, f, n, g, rfl, h, hdrawn.1, ⟨loops, x, hx, hshows⟩, hg, hcause, frame, hreport⟩
    · cases hdrawn

end PolarPlot
