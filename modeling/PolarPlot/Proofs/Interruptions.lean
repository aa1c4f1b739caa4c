import PolarPlot.Proofs.Outcomes

/-!
# Writers that fail

A writer with a fault (`Fault`) takes so many pieces of text and none after that. Every step of a
listing or a picture either does the same with such a writer, or stops at the first piece that is
not taken (`Interrupts`). So a run with a fault leaves a beginning of what it would have written,
and it fails where the next piece was due (`draw_interrupted`): outside of all statements if its
program was over by then.
-/

namespace PolarPlot

/-! ## Faults -/

/-- How many pieces of text a writer takes, what is wrong with all others, and what is wrong with
flushing. -/
structure Fault where
  room : Nat
  detail : String
  flush : Option String

/-- The same writer with a fault. -/
def Writer.faulty (x : Fault) (w : Writer) : Writer :=
  { w with writeFault := some (x.room, x.detail), flushFault := x.flush }

/-- A writer that never fails, and has not failed before. -/
structure Writer.Intact (w : Writer) : Prop where
  steady : w.Steady
  unrefused : w.refused = 0

/-- Where the writer is in a state. -/
structure Outlet (σ : Type) where
  writer : σ → Writer
  put : Writer → σ → σ
  writer_put : ∀ w s, writer (put w s) = w
  put_put : ∀ w w' s, put w' (put w s) = put w' s

namespace Outlet

variable {σ τ : Type}

def written (o : Outlet σ) (s : σ) : List String := (o.writer s).written.toList

/-- The same state with a fault in its writer. -/
def faulty (o : Outlet σ) (x : Fault) (s : σ) : σ := o.put ((o.writer s).faulty x) s

/-- The writer by itself. -/
def self : Outlet Writer where
  writer := id
  put w _ := w
  writer_put _ _ := rfl
  put_put _ _ _ := rfl

/-- The writer of a part of the state. -/
def through (o : Outlet τ) (get : σ → τ) (set : τ → σ → σ) (hget : ∀ t s, get (set t s) = t)
    (hset : ∀ t t' s, set t' (set t s) = set t' s) : Outlet σ where
  writer s := o.writer (get s)
  put w s := set (o.put w (get s)) s
  writer_put w s := by rw [hget, o.writer_put]
  put_put w w' s := by rw [hget, hset, o.put_put]

section Through

variable {o : Outlet τ} {get : σ → τ} {set : τ → σ → σ} {hget : ∀ t s, get (set t s) = t}
  {hset : ∀ t t' s, set t' (set t s) = set t' s} (t : τ) (s : σ)

theorem through_writer : (o.through get set hget hset).writer (set t s) = o.writer t :=
  congrArg o.writer (hget t s)

theorem through_written : (o.through get set hget hset).written (set t s) = o.written t :=
  congrArg o.written (hget t s)

theorem through_faulty (x : Fault) :
    (o.through get set hget hset).faulty x (set t s) = set (o.faulty x t) s := by
  change set (o.faulty x (get (set t s))) (set t s) = _
  rw [hget, hset]

end Through

/-- The writer of a picture. -/
def svg : Outlet Svg.State :=
  self.through Svg.State.writer (fun w s => { s with writer := w }) (fun _ _ => rfl) fun _ _ _ =>
    rfl

/-- The writer behind a buffer. -/
def buffer (o : Outlet σ) : Outlet (Buffer σ) :=
  o.through Buffer.inner (fun s b => { b with inner := s }) (fun _ _ => rfl) fun _ _ _ => rfl

end Outlet

section Placed

variable {ε σ τ α : Type} {get : σ → τ} {set : τ → σ → σ}

/-- The end of a step on a part of a state, seen from the whole. -/
def placed (set : τ → σ → σ) (s : σ) : EStateM.Result ε τ α → EStateM.Result ε σ α :=
  mapEnd id (set · s)

theorem on_eq_placed (act : Action τ α) (s : σ) :
    Action.on get set act s = placed set s (act (get s)) := by
  unfold Action.on
  cases act (get s) <;> rfl

theorem lastState_placed (s : σ) (r : EStateM.Result ε τ α) :
    lastState (placed set s r) = set (lastState r) s :=
  lastState_mapEnd _ _ r

theorem placed_set (hset : ∀ t t' s, set t' (set t s) = set t' s) (t : τ) (s : σ)
    (r : EStateM.Result ε τ α) : placed set (set t s) r = placed set s r := by
  simp only [placed, hset]

end Placed

/-! ## Steps -/

section Steps

variable {σ τ α β : Type}

/-- How a step ends with a fault in its writer, from how it ends without: in the same way if there
was room for all that it wrote, and at the first piece of text for which there was none. A writer is
only flushed when a target is closed. -/
inductive Interrupted (o : Outlet σ) (x : Fault) (closing : Bool) :
    EStateM.Result Cause σ α → EStateM.Result Cause σ α → Prop where
  | done {a : α} {t : σ} : (o.written t).length ≤ x.room →
      Interrupted o x closing (.ok a t) (.ok a (o.faulty x t))
  | failed {c : Cause} {t : σ} : (o.written t).length ≤ x.room →
      Interrupted o x closing (.error c t) (.error c (o.faulty x t))
  | unflushed {a : α} {t : σ} {detail : String} : closing = true → x.flush = some detail →
      (o.written t).length ≤ x.room →
      Interrupted o x closing (.ok a t) (.error (.output "flush output" detail) (o.faulty x t))
  | cut {r : EStateM.Result Cause σ α} {t : σ} (what : String) :
      x.room < (o.written (lastState r)).length →
      o.written t = (o.written (lastState r)).take x.room → (o.writer t).refused = 1 →
      Interrupted o x closing r (.error (.output ("write " ++ what) x.detail) t)

/-- A step that only adds to what was written, and that a fault interrupts. -/
structure Interrupts (o : Outlet σ) (x : Fault) (closing : Bool) (act : Action σ α) : Prop where
  intact {s : σ} : (o.writer s).Intact → (o.writer (lastState (act s))).Intact
  grows {s : σ} : (o.writer s).Intact → o.written s <+: o.written (lastState (act s))
  ends {s : σ} : (o.writer s).Intact → (o.written s).length ≤ x.room →
    Interrupted o x closing (act s) (act (o.faulty x s))

variable {o : Outlet σ} {x : Fault} {closing : Bool}

theorem take_of_isPrefix {l l' : List String} (h : l <+: l') {n : Nat} (hn : n < l.length) :
    n < l'.length ∧ l.take n = l'.take n := by
  obtain ⟨rest, rfl⟩ := h
  refine ⟨?_, (List.take_append_of_le_length hn.le).symm⟩
  rw [List.length_append]
  exact Nat.lt_add_right _ hn

theorem Interrupted.placed {o : Outlet τ} {get : σ → τ} {set : τ → σ → σ}
    (hget : ∀ t s, get (set t s) = t) (hset : ∀ t t' s, set t' (set t s) = set t' s)
    {r r' : EStateM.Result Cause τ α} (h : Interrupted o x closing r r') (s : σ) :
    Interrupted (o.through get set hget hset) x closing (placed set s r) (placed set s r') := by
  have hwritten : ∀ t, (o.through get set hget hset).written (set t s) = o.written t := fun t =>
    Outlet.through_written t s
  have hfaulty : ∀ t, set (o.faulty x t) s = (o.through get set hget hset).faulty x (set t s) :=
    fun t => (Outlet.through_faulty t s x).symm
  cases h with
  | done hle =>
    rw [PolarPlot.placed, mapEnd, mapEnd, hfaulty]
    exact .done (by rwa [hwritten])
  | failed hle =>
    rw [PolarPlot.placed, mapEnd, mapEnd, hfaulty]
    exact .failed (by rwa [hwritten])
  | unflushed hclosing hflush hle =>
    rw [PolarPlot.placed, mapEnd, mapEnd, hfaulty]
    exact .unflushed hclosing hflush (by rwa [hwritten])
  | cut what hlt htake hrefused =>
    refine .cut what ?_ ?_ ?_
    · rwa [lastState_placed, hwritten]
    · rwa [lastState_placed, hwritten, hwritten]
    · rwa [Outlet.through_writer]

namespace Interrupts

theorem pure (a : α) : Interrupts o x closing (Pure.pure a) where
  intact h := h
  grows _ := List.prefix_rfl
  ends _ hroom := .done hroom

theorem throw (c : Cause) : Interrupts o x closing (throw c : Action σ α) where
  intact h := h
  grows _ := List.prefix_rfl
  ends _ hroom := .failed hroom

theorem modify {f : σ → σ} (hwriter : ∀ s, o.writer (f s) = o.writer s)
    (hput : ∀ w s, f (o.put w s) = o.put w (f s)) :
    Interrupts o x closing (modify f : Action σ Unit) where
  intact {s} h := by
    change (o.writer (f s)).Intact
    rwa [hwriter]
  grows {s} _ := by
    change (o.writer s).written.toList <+: (o.writer (f s)).written.toList
    exact (hwriter s).symm ▸ List.prefix_rfl
  ends {s} _ hroom := by
    have hfaulty : f (o.faulty x s) = o.faulty x (f s) := by
      rw [Outlet.faulty, hput, Outlet.faulty, hwriter]
    change Interrupted o x closing (.ok () (f s)) (.ok () (f (o.faulty x s)))
    rw [hfaulty]
    refine .done ?_
    rwa [Outlet.written, hwriter]

/-- A step may look at the state, but not at the writer. -/
theorem read {g : σ → Action σ β} (hg : ∀ w s, g (o.put w s) = g s)
    (h : ∀ s, Interrupts o x closing (g s)) : Interrupts o x closing (get >>= g) where
  intact {s} hs := (h s).intact hs
  grows {s} hs := (h s).grows hs
  ends {s} hs hroom := by
    have hsame : (get >>= g) (o.faulty x s) = g s (o.faulty x s) := congrFun (hg _ s) _
    rw [hsame]
    exact (h s).ends hs hroom

theorem bind {act : Action σ α} {g : α → Action σ β} (h : Interrupts o x false act)
    (hg : ∀ a, Interrupts o x closing (g a)) : Interrupts o x closing (act >>= g) where
  intact {s} hs := by
    have hfirst := h.intact hs
    cases hact : act s with
    | ok a t =>
      rw [hact] at hfirst
      rw [bind_of_ok hact]
      exact (hg a).intact hfirst
    | error c t =>
      rw [hact] at hfirst
      rw [bind_eq_error.mpr (.inl hact)]
      exact hfirst
  grows {s} hs := by
    have hintact := h.intact hs
    have hfirst := h.grows hs
    cases hact : act s with
    | ok a t =>
      rw [hact] at hfirst hintact
      rw [bind_of_ok hact]
      exact hfirst.trans ((hg a).grows hintact)
    | error c t =>
      rw [hact] at hfirst
      rw [bind_eq_error.mpr (.inl hact)]
      exact hfirst
  ends {s} hs hroom := by
    have hintact := h.intact hs
    have hfirst := h.ends hs hroom
    cases hact : act s with
    | ok a t =>
      rw [hact] at hfirst hintact
      rw [bind_of_ok hact]
      generalize hfaulty : act (o.faulty x s) = r at hfirst
      cases hfirst with
      | done hle =>
        rw [bind_of_ok hfaulty]
        exact (hg a).ends hintact hle
      | unflushed hclosing => cases hclosing
      | cut what hlt htake hrefused =>
        -- what the second step would have added is after the piece that was not taken
        obtain ⟨hlt', htake'⟩ := take_of_isPrefix ((hg a).grows hintact) hlt
        rw [bind_eq_error.mpr (.inl hfaulty)]
        exact .cut what hlt' (htake.trans htake') hrefused
    | error c t =>
      rw [hact] at hfirst
      rw [bind_eq_error.mpr (.inl hact)]
      generalize hfaulty : act (o.faulty x s) = r at hfirst
      cases hfirst with
      | failed hle =>
        rw [bind_eq_error.mpr (.inl hfaulty)]
        exact .failed hle
      | cut what hlt htake hrefused =>
        rw [bind_eq_error.mpr (.inl hfaulty)]
        exact .cut what hlt htake hrefused

theorem on {o : Outlet τ} {get : σ → τ} {set : τ → σ → σ} (hget : ∀ t s, get (set t s) = t)
    (hset : ∀ t t' s, set t' (set t s) = set t' s) {act : Action τ α}
    (h : Interrupts o x closing act) :
    Interrupts (o.through get set hget hset) x closing (Action.on get set act) where
  intact {s} hs := by
    rw [on_eq_placed, lastState_placed, Outlet.through_writer]
    exact h.intact hs
  grows {s} hs := by
    rw [on_eq_placed, lastState_placed, Outlet.through_written]
    exact h.grows hs
  ends {s} hs hroom := by
    have hstate : get ((o.through get set hget hset).faulty x s) = o.faulty x (get s) := hget _ s
    have hplaced : placed set ((o.through get set hget hset).faulty x s)
        (act (o.faulty x (get s))) =
        placed set s (act (o.faulty x (get s))) := placed_set hset _ _ _
    rw [on_eq_placed, on_eq_placed, hstate, hplaced]
    exact (h.ends hs hroom).placed hget hset s

theorem replay {T : Target σ} (h : ∀ c, Interrupts o x false (T.accept c)) (cs : List Command) :
    Interrupts o x false (T.replay cs) := by
  induction cs with
  | nil => exact .pure ()
  | cons c cs ih => exact (h c).bind fun _ => ih

/-- With room for all that is written, a fault makes no difference. -/
theorem ok_of_room {act : Action σ α} {s t : σ} {a : α} (h : Interrupts o x false act)
    (hs : (o.writer s).Intact) (hact : act s = .ok a t) (hroom : (o.written t).length ≤ x.room) :
    act (o.faulty x s) = .ok a (o.faulty x t) := by
  have hgrows := h.grows hs
  rw [hact] at hgrows
  have hends := h.ends hs (hgrows.length_le.trans hroom)
  rw [hact] at hends
  generalize act (o.faulty x s) = r at hends
  cases hends with
  | done => rfl
  | unflushed hclosing => cases hclosing
  | cut what hlt => exact absurd hroom (Nat.not_le.mpr hlt)

theorem error_of_room {act : Action σ α} {s t : σ} {c : Cause} (h : Interrupts o x false act)
    (hs : (o.writer s).Intact) (hact : act s = .error c t) (hroom : (o.written t).length ≤ x.room) :
    act (o.faulty x s) = .error c (o.faulty x t) := by
  have hgrows := h.grows hs
  rw [hact] at hgrows
  have hends := h.ends hs (hgrows.length_le.trans hroom)
  rw [hact] at hends
  generalize act (o.faulty x s) = r at hends
  cases hends with
  | failed => rfl
  | cut what hlt => exact absurd hroom (Nat.not_le.mpr hlt)

end Interrupts

end Steps

/-! ## Writers and targets -/

section Targets

variable {x : Fault}

theorem Writer.write_faulty_of_lt {w : Writer} (h : w.written.size < x.room) (what text : String) :
    write what text (w.faulty x) = .ok () ((w.extended [text]).faulty x) := by
  have hfault : (w.faulty x).nextFault? = none := by simp [nextFault?, faulty, h]
  simp only [write, hfault, extended, Array.push_eq_append]
  rfl

theorem Writer.write_faulty_of_not_lt {w : Writer} (h : ¬ w.written.size < x.room)
    (what text : String) :
    write what text (w.faulty x) =
      .error (.output ("write " ++ what) x.detail)
        { w.faulty x with refused := w.refused + 1 } := by
  have hfault : (w.faulty x).nextFault? = some x.detail := by simp [nextFault?, faulty, h]
  simp only [write, hfault]
  rfl

theorem Writer.write_interrupts (closing : Bool) (what text : String) :
    Interrupts Outlet.self x closing (write what text) where
  intact {w} (hw : w.Intact) := by
    rw [write_of_steady hw.steady]
    exact ⟨hw.steady, hw.unrefused⟩
  grows {w} (hw : w.Intact) := by
    rw [write_of_steady hw.steady]
    exact ⟨[text], by simp [Outlet.written, Outlet.self, lastState, extended]⟩
  ends {w} (hw : w.Intact) hroom := by
    change Interrupted _ x closing (write what text w) (write what text (w.faulty x))
    rw [write_of_steady hw.steady]
    by_cases hlt : w.written.size < x.room
    · rw [write_faulty_of_lt hlt]
      exact .done (by simpa [Outlet.written, Outlet.self, extended] using Nat.succ_le_of_lt hlt)
    · have hfull : x.room = w.written.toList.length := by
        change w.written.toList.length ≤ x.room at hroom
        rw [Array.length_toList] at hroom ⊢
        omega
      rw [write_faulty_of_not_lt hlt]
      refine .cut what ?_ ?_ ?_
      · simpa [Outlet.written, Outlet.self, lastState, extended] using Nat.lt_succ_of_le hfull.le
      · simp [Outlet.written, Outlet.self, lastState, extended, hfull, faulty]
      · simp [Outlet.self, hw.unrefused]

theorem Writer.flush_interrupts : Interrupts Outlet.self x true flush := by
  have hintact : ∀ {w : Writer}, w.Intact → flush w = .ok () w := by
    intro w hw
    simp only [flush, hw.steady.2]
  refine ⟨fun {w} (hw : w.Intact) => ?_, fun {w} (hw : w.Intact) => ?_,
    fun {w} (hw : w.Intact) hroom => ?_⟩
  · rw [hintact hw]
    exact hw
  · rw [hintact hw]
    exact List.prefix_rfl
  · change Interrupted _ x true (flush w) (flush (w.faulty x))
    have hfault : (w.faulty x).flushFault = x.flush := rfl
    rw [hintact hw]
    cases hflush : x.flush with
    | none =>
      have hdone : flush (w.faulty x) = .ok () (w.faulty x) := by simp only [flush, hfault, hflush]
      rw [hdone]
      exact .done hroom
    | some detail =>
      have hfails : flush (w.faulty x) = .error (.output "flush output" detail) (w.faulty x) := by
        simp only [flush, hfault, hflush]
      rw [hfails]
      exact .unflushed rfl hflush hroom

/-- A target that a fault in its writer interrupts, wherever it is. -/
structure Target.Interruptible {σ : Type} (T : Target σ) (o : Outlet σ) : Prop where
  accept (x : Fault) (c : Command) : Interrupts o x false (T.accept c)
  close (x : Fault) : Interrupts o x true T.close

theorem Target.listing_interruptible : Target.listing.Interruptible Outlet.self where
  accept x c := by
    cases c with
    | vertex r theta => exact Writer.write_interrupts false _ _
    | arc r theta sweep =>
      exact (Writer.write_interrupts false _ _).bind fun _ => Writer.write_interrupts false _ _
    | bare r theta => exact .throw _
  close x := Writer.flush_interrupts

theorem Target.Interruptible.normalized {σ : Type} {T : Target σ} {o : Outlet σ}
    (h : T.Interruptible o) : T.normalized.Interruptible o.buffer where
  accept x c := .modify (fun _ => rfl) fun _ _ => rfl
  close x := by
    have hnormalize : Interrupts o.buffer x false Buffer.normalize :=
      .modify (fun _ => rfl) fun _ _ => rfl
    refine hnormalize.bind fun _ => .read (fun _ _ => rfl) fun b => .on _ _ ?_
    exact (Interrupts.replay (h.accept x) _).bind fun _ => h.close x

end Targets

/-! ## Pictures -/

namespace Svg

variable {x : Fault}

theorem Composed.interrupts {Q : Cause → Prop} {closing : Bool} {α : Type} {act : Action State α}
    (h : Composed Q closing act) : Interrupts Outlet.svg x closing act := by
  induction h with
  | pure a => exact .pure a
  | throw => exact .throw _
  | change hf => exact .modify (writer_of_change hf) hf
  | write text => exact (Writer.write_interrupts _ _ _).on _ _
  | flush => exact Writer.flush_interrupts.on _ _
  | look hg _ ih => exact .read hg ih
  | bind _ _ ih ihg => exact ih.bind ihg

end Svg

theorem Target.svg_interruptible (canvas : Svg.Canvas) :
    (Target.svg canvas).Interruptible Outlet.svg where
  accept _ _ := (Svg.accept_composed fun _ he => he).interrupts
  close _ := (Svg.close_composed (Q := fun _ => True)).interrupts

/-! ## Runs -/

theorem Stmt.frames_ne_nil {σ : Type} {pass : Pass} {fuel : Nat} {target : Target σ}
    {ss : List Stmt} {m n : Machine σ} {f : Failure}
    (h : Stmt.execAll pass fuel target ss m = .error f n) (hc : f.cause.isReported) :
    f.frames ≠ [] := by
  obtain ⟨loops, s, hs⟩ | ⟨hout, -⟩ := halts_of_execAll h
  · rw [hs.eq_along h, Failure.along_frames hc]
    simp
  · rw [hout] at hc
    cases hc

section Runs

variable {σ : Type} {T : Target σ} {o : Outlet σ} {x : Fault} {fuel : Nat} {program : List Stmt}

/-- The state of a target when the statements of a program are over, before it is closed. -/
def Target.afterStatements (T : Target σ) (fuel : Nat) (program : List Stmt) (s : σ) : σ :=
  (lastState (Stmt.execAll .real fuel T program (Machine.fresh s))).target

/-- How a run ends with a fault in its writer, from how it ends without. The statements of its
program write `before` pieces of text, and what comes after them is written when the target is
closed. -/
inductive Truncated (o : Outlet σ) (x : Fault) (before : Nat) (r : Option RunError) (s : σ) :
    Option RunError → σ → Prop where
  | same : (o.written s).length ≤ x.room → (o.writer s).refused = 0 →
      Truncated o x before r s r (o.faulty x s)
  | unflushed {detail : String} : r = none → x.flush = some detail → (o.written s).length ≤ x.room →
      (o.writer s).refused = 0 →
      Truncated o x before r s (some (.drawing ⟨[], .output "flush output" detail⟩)) (o.faulty x s)
  | cut {f : Failure} {t : σ} (what : String) : x.room < (o.written s).length →
      o.written t = (o.written s).take x.room → (o.writer t).refused = 1 →
      f.cause = .output ("write " ++ what) x.detail → (f.frames = [] ↔ before ≤ x.room) →
      Truncated o x before r s (some (.drawing f)) t

/-- Where the target rejects one of the commands for a reported cause, the run fails inside of a
statement. -/
theorem draw_of_replay_error {p : Script Unit} (hp : IsScript fuel program p)
    {cs rest : List Command} (hcs : p.commands = cs ++ rest) {s t : σ} {c : Cause}
    (h : T.replay cs s = .error c t) (hc : c.isReported) :
    ∃ f, draw fuel T program s = (some (.drawing f), t) ∧ f.cause = c ∧ f.frames ≠ [] := by
  obtain ⟨before, y, after, u, rfl, hu, hy⟩ := Target.replay_eq_error.mp h
  rw [List.append_assoc, List.cons_append] at hcs
  obtain ⟨frames, vars, hrejected⟩ := hp.rejected hcs
  have hrun : Stmt.execAll .real fuel T program (Machine.fresh s) =
      .error (.raised frames c) ⟨vars, t⟩ :=
    hrejected hu hy
  refine ⟨.raised frames c, ?_, Failure.raised_cause frames c, Stmt.frames_ne_nil hrun ?_⟩
  · simp only [draw, execute, bind_eq_error.mpr (.inl hrun)]
  · rwa [Failure.raised_cause]

/-- A run that comes to the end of its statements is truncated when its target is closed, or not at
all. -/
theorem Target.Interruptible.ending (h : T.Interruptible o) {s : σ} (hs : (o.writer s).Intact)
    (hroom : (o.written s).length ≤ x.room) (outcome : Except Failure Unit) :
    Truncated o x (o.written s).length (T.ending outcome s).1 (T.ending outcome s).2
      (T.ending outcome (o.faulty x s)).1 (T.ending outcome (o.faulty x s)).2 := by
  cases outcome with
  | error f => exact .same hroom hs.unrefused
  | ok _ =>
    have hclose := (h.close x).ends hs hroom
    have hintact := (h.close x).intact hs
    simp only [Target.ending]
    generalize T.close s = r, T.close (o.faulty x s) = r' at hclose hintact
    cases hclose with
    | done hle => exact .same hle hintact.unrefused
    | failed hle => exact .same hle hintact.unrefused
    | unflushed _ hflush hle => exact .unflushed rfl hflush hle hintact.unrefused
    | cut what hlt htake hrefused =>
      cases r with
      | ok _ t | error c t => exact .cut what hlt htake hrefused rfl ⟨fun _ => hroom, fun _ => rfl⟩

theorem Target.Interruptible.ending_grows (h : T.Interruptible o) {s : σ} (hs : (o.writer s).Intact)
    (outcome : Except Failure Unit) : o.written s <+: o.written (T.ending outcome s).2 := by
  cases outcome with
  | error f => exact List.prefix_rfl
  | ok _ =>
    have hclose := (h.close ⟨0, "", none⟩).grows hs
    simp only [Target.ending]
    generalize T.close s = r at hclose
    cases r <;> exact hclose

/-- A run that is cut short inside of a statement. -/
theorem truncated_of_replay {p : Script Unit} (hp : IsScript fuel program p)
    {cs rest : List Command} (hcs : p.commands = cs ++ rest) {s t u : σ} {before : Nat}
    {r : Option RunError} {what : String}
    (h : T.replay cs s = .error (.output ("write " ++ what) x.detail) t) (hbefore : x.room < before)
    (hlt : x.room < (o.written u).length) (htake : o.written t = (o.written u).take x.room)
    (hrefused : (o.writer t).refused = 1) :
    Truncated o x before r u (draw fuel T program s).1 (draw fuel T program s).2 := by
  obtain ⟨f, hdraw, hcause, hframes⟩ := draw_of_replay_error hp hcs h rfl
  rw [hdraw]
  refine .cut what hlt htake hrefused hcause ⟨fun hnil => absurd hnil hframes, fun hle => ?_⟩
  exact absurd hbefore (Nat.not_lt.mpr hle)

/-- A run with a fault is truncated where there is no more room. -/
theorem Target.Interruptible.draw (h : T.Interruptible o) {s : σ} (hs : (o.writer s).Intact)
    (hroom : (o.written s).length ≤ x.room) (fuel : Nat) (program : List Stmt) :
    Truncated o x (o.written (T.afterStatements fuel program s)).length (draw fuel T program s).1
      (draw fuel T program s).2 (draw fuel T program (o.faulty x s)).1
      (draw fuel T program (o.faulty x s)).2 := by
  obtain ⟨p, hp⟩ := exists_isScript fuel program
  have hreplay := Interrupts.replay (h.accept x) p.commands
  have hintact := hreplay.intact hs
  have hends := hreplay.ends hs hroom
  cases ht : T.replay p.commands s with
  | ok _ t =>
    have hafter : T.afterStatements fuel program s = t := by
      have hrun : Stmt.execAll .real fuel T program (Machine.fresh s) = p.result t := hp.taken ht
      rw [Target.afterStatements, hrun, Script.result]
      cases p.outcome <;> rfl
    rw [ht] at hends hintact
    rw [hafter, draw_of_taken hp ht]
    generalize hfaulty : T.replay p.commands (o.faulty x s) = r at hends
    cases hends with
    | done hle =>
      rw [draw_of_taken hp hfaulty]
      exact h.ending hintact hle p.outcome
    | unflushed hclosing => cases hclosing
    | cut what hlt htake hrefused =>
      obtain ⟨hlt', htake'⟩ := take_of_isPrefix (h.ending_grows hintact p.outcome) hlt
      exact truncated_of_replay hp (List.append_nil _).symm hfaulty hlt hlt'
        (htake.trans htake') hrefused
  | error c t =>
    obtain ⟨before, y, after, u, hcs, hu, hy⟩ := Target.replay_eq_error.mp ht
    obtain ⟨frames, hdraw⟩ := draw_of_rejected hp hcs
    have hafter : T.afterStatements fuel program s = t := by
      obtain ⟨frames', vars, hrejected⟩ := hp.rejected hcs
      have hrun : Stmt.execAll .real fuel T program (Machine.fresh s) =
          .error (.raised frames' c) ⟨vars, t⟩ :=
        hrejected hu hy
      rw [Target.afterStatements, hrun]
      rfl
    rw [ht] at hends hintact
    rw [hafter, hdraw hu hy]
    generalize hfaulty : T.replay p.commands (o.faulty x s) = r at hends
    cases hends with
    | failed hle =>
      -- the command that is rejected without a fault is rejected with it, and nothing before it
      have hbefore := Interrupts.replay (h.accept x) before
      have hintact' := hbefore.intact hs
      have hgrows := (h.accept x y).grows (s := u)
      rw [hu] at hintact'
      rw [hy] at hgrows
      have hu' := hbefore.ok_of_room hs hu ((hgrows hintact').length_le.trans hle)
      have hy' := (h.accept x y).error_of_room hintact' hy hle
      rw [hdraw hu' hy']
      exact .same hle hintact.unrefused
    | cut what hlt htake hrefused =>
      exact truncated_of_replay hp (List.append_nil _).symm hfaulty hlt hlt htake hrefused

/-- A run that comes to an end does so in the same way if its loops may run for longer. -/
theorem draw_of_le {fuel' : Nat} {r : Option RunError} {s t : σ}
    (h : draw fuel T program s = (r, t)) (hr : ∀ f, r = some (.drawing f) → f.cause ≠ .outOfFuel)
    (hle : fuel ≤ fuel') : draw fuel' T program s = (r, t) := by
  obtain ⟨f, n, hf, hout⟩ | hsame := execute_extends T hle program (Machine.fresh s)
  · simp only [draw, hf, Prod.mk.injEq] at h
    exact absurd hout (hr f h.1.symm)
  · rw [← h]
    simp only [draw, hsame]

/-- What a writer is left with when a run is truncated, and what the run fails for. -/
theorem Truncated.left {before : Nat} {r e : Option RunError} {s t : σ}
    (h : Truncated o x before r s e t) :
    o.written t = (o.written s).take x.room ∧
      (o.writer t).refused = (if x.room < (o.written s).length then 1 else 0) ∧
      (x.room < (o.written s).length → ∃ f what, e = some (.drawing f) ∧
        f.cause = .output ("write " ++ what) x.detail ∧ (f.frames = [] ↔ before ≤ x.room)) ∧
      ((o.written s).length ≤ x.room → e = r ∨ r = none ∧ ∃ detail, x.flush = some detail ∧
        e = some (.drawing ⟨[], .output "flush output" detail⟩)) := by
  have hfaulty : o.writer (o.faulty x s) = (o.writer s).faulty x := o.writer_put _ _
  have hwritten : o.written (o.faulty x s) = o.written s := by
    rw [Outlet.written, hfaulty]
    rfl
  cases h with
  | same hle hrefused =>
    rw [hwritten, List.take_of_length_le hle, hfaulty, if_neg (Nat.not_lt.mpr hle)]
    exact ⟨rfl, hrefused, fun hlt => absurd hlt (Nat.not_lt.mpr hle), fun _ => .inl rfl⟩
  | unflushed hnone hflush hle hrefused =>
    rw [hwritten, List.take_of_length_le hle, hfaulty, if_neg (Nat.not_lt.mpr hle)]
    exact ⟨rfl, hrefused, fun hlt => absurd hlt (Nat.not_lt.mpr hle),
      fun _ => .inr ⟨hnone, _, hflush, rfl⟩⟩
  | cut what hlt htake hrefused hcause hframes =>
    rw [if_pos hlt]
    exact ⟨htake, hrefused, fun _ => ⟨_, what, rfl, hcause, hframes⟩,
      fun hle => absurd hlt (Nat.not_lt.mpr hle)⟩

end Runs

/-! ## Settings -/

theorem Config.exists_outlet {config : Config} {p : Plan} (h : config.plan = .ok p) :
    ∃ o : Outlet p.State, p.target.Interruptible o ∧ (∀ s, p.writer? s = some (o.writer s)) ∧
      o.writer (p.initial .empty) = .empty ∧
      ∀ x, p.initial (Writer.empty.faulty x) = o.faulty x (p.initial .empty) := by
  by_cases hsvg : config.svg = true
  · obtain ⟨canvas, rfl⟩ := Config.plan_of_svg hsvg h
    exact ⟨Outlet.svg.buffer, (Target.svg_interruptible canvas).normalized, fun _ => rfl, rfl,
      fun _ => rfl⟩
  · rw [Config.plan, if_neg hsvg] at h
    by_cases hnormalize : config.normalize = true
    · rw [if_pos hnormalize] at h
      cases h
      exact ⟨Outlet.self.buffer, Target.listing_interruptible.normalized, fun _ => rfl, rfl,
        fun _ => rfl⟩
    · rw [if_neg hnormalize] at h
      cases h
      exact ⟨Outlet.self, Target.listing_interruptible, fun _ => rfl, rfl, fun _ => rfl⟩

/-- With a writer that fails after so many writes, a run writes just these many pieces of what it
would have written, and tries one more if there is one. It then fails for the output: outside of all
statements if this piece was to be written when the target is closed, and else inside of a
statement. -/
theorem draw_interrupted {config : Config} {p : Plan} (hplan : config.plan = .ok p)
    {fuel fuel' : Nat} {program : List Stmt} {r : Option RunError} {s : p.State}
    (h : draw fuel p.target program (p.initial .empty) = (r, s))
    (hr : ∀ f, r = some (.drawing f) → f.cause ≠ .outOfFuel) (hle : fuel ≤ fuel') (x : Fault) :
    ∃ w e t w', p.writer? s = some w ∧
      draw fuel' p.target program (p.initial (Writer.empty.faulty x)) = (e, t) ∧
      p.writer? t = some w' ∧ w'.written.toList = w.written.toList.take x.room ∧
      w'.refused = (if x.room < w.written.size then 1 else 0) ∧
      (x.room < w.written.size → ∃ f what, e = some (.drawing f) ∧
        f.cause = .output ("write " ++ what) x.detail ∧
        (f.frames = [] ↔ p.pieces (p.target.afterStatements fuel' program (p.initial .empty)) ≤
          x.room)) ∧
      (w.written.size ≤ x.room → e = r ∨ r = none ∧ ∃ detail, x.flush = some detail ∧
        e = some (.drawing ⟨[], .output "flush output" detail⟩)) := by
  obtain ⟨o, ho, hwriter, hempty, hinitial⟩ := Config.exists_outlet hplan
  have hintact : (o.writer (p.initial .empty)).Intact := by
    rw [hempty]
    exact ⟨⟨rfl, rfl⟩, rfl⟩
  have hroom : (o.written (p.initial .empty)).length ≤ x.room := by
    rw [Outlet.written, hempty]
    exact Nat.zero_le _
  have hbefore : p.pieces (p.target.afterStatements fuel' program (p.initial .empty)) =
      (o.written (p.target.afterStatements fuel' program (p.initial .empty))).length := by
    rw [Plan.pieces, hwriter]
    exact Array.length_toList.symm
  have hsize : (o.writer s).written.size = (o.written s).length := Array.length_toList.symm
  have hleft := (ho.draw (x := x) hintact hroom fuel' program).left
  rw [draw_of_le h hr hle, ← hinitial, ← hbefore, ← hsize] at hleft
  exact ⟨o.writer s, _, _, _, hwriter s, rfl, hwriter _, hleft⟩

theorem draw_of_isNone {σ : Type} {T : Target σ} {fuel : Nat} {program : List Stmt} {s : σ}
    (h : (draw fuel T program s).1.isNone = true) :
    draw fuel T program s = (none, (draw fuel T program s).2) :=
  Prod.ext (Option.isNone_iff_eq_none.mp h) rfl

/-- A listing is cut short in the second round of a loop, and a picture at its footer. -/
theorem draw_interrupted_twoDots :
    (∃ f w, draw 3 Target.listing twoDots (Writer.empty.faulty ⟨1, "full", none⟩) =
      (some (.drawing f), w) ∧
      f.frames ≠ [] ∧ w.written.toList = [Listing.line 1 0] ∧ w.refused = 1) ∧
    ∃ p f t w, (Config.mk true 10 false false).plan = .ok p ∧
      draw 2 p.target twoDots (p.initial (Writer.empty.faulty ⟨2, "full", some "stuck"⟩)) =
        (some (.drawing f), t) ∧
      f.frames = [] ∧ p.writer? t = some w ∧ w.written.size = 2 ∧ w.refused = 1 := by
  constructor
  · have hplan : Config.default.plan = .ok .listing := rfl
    have hdone : draw 2 Plan.listing.target twoDots (Plan.listing.initial .empty) = (none, _) :=
      draw_of_isNone (by decide +kernel)
    have hlines : (draw 2 Target.listing twoDots .empty).2.written =
        #[Listing.line 1 0, Listing.line 1 1] := by
      decide +kernel
    have hbefore : Plan.listing.pieces (Target.listing.afterStatements 3 twoDots .empty) = 2 := by
      decide +kernel
    obtain ⟨w, e, t, w', hw, hdraw, hw', hwritten, hrefused, hcut, -⟩ :=
      draw_interrupted hplan hdone (by simp) (by decide : 2 ≤ 3) ⟨1, "full", none⟩
    obtain rfl : (draw 2 Target.listing twoDots .empty).2 = w := Option.some.inj hw
    obtain rfl : t = w' := Option.some.inj hw'
    rw [hlines] at hwritten hrefused hcut
    obtain ⟨f, what, rfl, -, hframes⟩ := hcut (by decide)
    refine ⟨f, t, hdraw, fun hnil => ?_, hwritten, hrefused⟩
    exact absurd (hbefore ▸ hframes.mp hnil) (by decide)
  · let p : Plan := .normalized (.svg ⟨10, 5, false⟩)
    have hplan : (Config.mk true 10 false false).plan = .ok p := rfl
    have hdone : draw 2 p.target twoDots (p.initial .empty) = (none, _) :=
      draw_of_isNone (by decide +kernel)
    have hsize : p.pieces (draw 2 p.target twoDots (p.initial .empty)).2 = 3 := by decide +kernel
    have hbefore : p.pieces (p.target.afterStatements 2 twoDots (p.initial .empty)) = 0 := by
      decide +kernel
    obtain ⟨w, e, t, w', hw, hdraw, hw', hwritten, hrefused, hcut, -⟩ :=
      draw_interrupted hplan hdone (by simp) (Nat.le_refl 2) ⟨2, "full", some "stuck"⟩
    rw [Plan.pieces, hw] at hsize
    change w.written.size = 3 at hsize
    rw [hsize] at hrefused hcut
    obtain ⟨f, what, rfl, -, hframes⟩ := hcut (by decide)
    refine ⟨p, f, t, w', hplan, hdraw, hframes.mpr (by rw [hbefore]; decide), hw', ?_, hrefused⟩
    rw [← Array.length_toList, hwritten, List.length_take, Array.length_toList, hsize]
    rfl

end PolarPlot
