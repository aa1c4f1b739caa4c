import PolarPlot.Eval.Report
import PolarPlot.Proofs.Rehearsal

/-!
# Where a run fails

`Halts` says where the run of a list of statements fails: in a statement of its own accord
(`Stmt.Breaks`), inside of the rounds of some loops. A run that fails and did not run out of rounds
halts (`Stmt.halts_of_execAll`), and the failure carries the statements on the way there, from the
outside in (`Halts.execAll`).
-/

namespace PolarPlot

/-! ## Statements that fail -/

/-- What a failure says of a statement. -/
def Stmt.frame : Stmt → Frame
  | .assign pos _ _ => ⟨Phase.assignment, pos⟩
  | .call pos _ => ⟨Phase.call, pos⟩
  | .loop pos _ _ _ _ _ _ => ⟨Phase.loop, pos⟩
  | .invalid pos _ phase => ⟨phase, pos⟩
  | .misfit _ => ⟨"", .unknown⟩

def Stmt.isLoop : Stmt → Bool
  | .loop _ _ _ _ _ _ _ => true
  | _ => false

/-- The failure that a cause makes on a path through statements. -/
def Failure.along (path : List Stmt) (c : Cause) : Failure :=
  ⟨if c.isReported then path.map Stmt.frame else [], c⟩

@[simp] theorem Failure.along_cause (path : List Stmt) (c : Cause) : (along path c).cause = c := rfl

theorem Failure.along_frames {c : Cause} (hc : c.isReported) (path : List Stmt) :
    (along path c).frames = path.map Stmt.frame := by
  simp only [along, hc, if_true]

theorem Failure.along_nil (c : Cause) : along [] c = ⟨[], c⟩ := by
  simp [along]

theorem Failure.along_within (path : List Stmt) (c : Cause) (s : Stmt) :
    (along path c).within s.frame = along (s :: path) c := by
  unfold within along
  cases c.isReported <;> rfl

section Statements

variable {σ : Type} (pass : Pass) (fuel : Nat) (target : Target σ)

/-- A statement fails of its own accord, and not by a statement inside of it. -/
def Stmt.Breaks (m : Machine σ) (c : Cause) (n : Machine σ) : Stmt → Prop
  | .assign _ _ e => Exec.eval target e m = .error ⟨[], c⟩ n
  | .call _ e => Exec.eval target e m = .error ⟨[], c⟩ n
  | .loop _ _ start stop step inclusive _ =>
    Exec.bounds pass target start stop step inclusive m = .error ⟨[], c⟩ n
  | .invalid _ message _ => c = .illegalTarget message ∧ n = m
  | .misfit what => c = .ofStmtMisfit what ∧ n = m

/-- The run of a list of statements fails: inside of which loops, in which statement, and why. -/
inductive Halts : List Stmt → Machine σ → List Stmt → Stmt → Cause → Machine σ → Prop where
  | here {s : Stmt} {ss : List Stmt} {m n : Machine σ} {c : Cause} :
      s.Breaks pass target m c n → Halts (s :: ss) m [] s c n
  | later {s x : Stmt} {ss loops : List Stmt} {m m' n : Machine σ} {c : Cause} :
      s.exec pass fuel target m = .ok () m' → Halts ss m' loops x c n →
      Halts (s :: ss) m loops x c n
  | within {pos : Position} {name : Label} {start stop : Expr} {step : Option Expr}
      {inclusive : Bool} {body ss loops : List Stmt} {r : Range} {v : Float} {x : Stmt} {c : Cause}
      {m m' m'' n : Machine σ} :
      Exec.bounds pass target start stop step inclusive m = .ok r m' →
      Exec.Rounds (Stmt.round pass fuel target name body) fuel r m' v m'' →
      Halts body { m'' with vars := m''.vars.assign name v } loops x c n →
      Halts (.loop pos name start stop step inclusive body :: ss) m
        (.loop pos name start stop step inclusive body :: loops) x c n

variable {pass fuel target}

theorem Halts.mono {s x : Stmt} {ss loops : List Stmt} {m n : Machine σ} {c : Cause}
    (h : Halts pass fuel target [s] m loops x c n) :
    Halts pass fuel target (s :: ss) m loops x c n := by
  cases h with
  | here h => exact .here h
  | later _ h => cases h
  | within hb hr h => exact .within hb hr h

theorem Halts.isLoop {x : Stmt} {ss loops : List Stmt} {m n : Machine σ} {c : Cause}
    (h : Halts pass fuel target ss m loops x c n) : ∀ l ∈ loops, l.isLoop := by
  induction h with
  | here => simp
  | later _ _ ih => exact ih
  | within _ _ _ ih => simpa [Stmt.isLoop] using ih

/-! ## From the place to the failure -/

theorem Stmt.exec_of_breaks {s : Stmt} {m n : Machine σ} {c : Cause}
    (h : s.Breaks pass target m c n) :
    s.exec pass fuel target m = .error (.along [s] c) n := by
  rw [← Failure.along_within, Failure.along_nil]
  cases s with
  | assign pos name e =>
    rw [exec, Exec.inside_eq_error]
    exact ⟨_, bind_eq_error.mpr (.inl h), rfl⟩
  | call pos e =>
    rw [exec, Exec.inside_eq_error]
    exact ⟨_, bind_eq_error.mpr (.inl h), rfl⟩
  | loop pos name start stop step inclusive body =>
    rw [exec_loop, Exec.inside_eq_error]
    exact ⟨_, bind_eq_error.mpr (.inl h), rfl⟩
  | invalid pos message phase =>
    obtain ⟨rfl, rfl⟩ := h
    rfl
  | misfit what =>
    obtain ⟨rfl, rfl⟩ := h
    cases what <;> rfl

/-- A sweep fails as the body does in the first round that fails. -/
theorem Exec.sweep_of_rounds {body : Float → Exec σ Unit} {fuel : Nat} {r : Range}
    {m m' n : Machine σ} {v : Float} {f : Failure} (hr : Rounds body fuel r m v m')
    (h : body v m' = .error f n) : sweep body fuel r m = .error f n := by
  induction hr with
  | first hn =>
    rw [sweep_next hn, bind_eq_error]
    exact .inl h
  | next hn hb _ ih =>
    rw [sweep_next hn, bind_eq_error]
    exact .inr ⟨(), _, hb, ih h⟩

/-- A loop fails as its body does in one of its rounds. -/
theorem Stmt.exec_of_round {pos : Position} {name : Label} {start stop : Expr} {step : Option Expr}
    {inclusive : Bool} {body path : List Stmt} {r : Range} {v : Float} {c : Cause}
    {m m' m'' n : Machine σ}
    (hb : Exec.bounds pass target start stop step inclusive m = .ok r m')
    (hr : Exec.Rounds (Stmt.round pass fuel target name body) fuel r m' v m'')
    (h : Stmt.execAll pass fuel target body { m'' with vars := m''.vars.assign name v } =
      .error (.along path c) n) :
    (Stmt.loop pos name start stop step inclusive body).exec pass fuel target m =
      .error (.along (.loop pos name start stop step inclusive body :: path) c) n := by
  rw [exec_loop, Exec.inside_eq_error, ← Failure.along_within]
  refine ⟨_, bind_eq_error.mpr (.inr ⟨_, _, hb, Exec.sweep_of_rounds hr ?_⟩), rfl⟩
  rw [round, bind_eq_error]
  exact .inr ⟨(), _, rfl, h⟩

/-- A run that halts fails with the statements on the way, if its cause is one that is reported. -/
theorem Halts.execAll {x : Stmt} {ss loops : List Stmt} {m n : Machine σ} {c : Cause}
    (h : Halts pass fuel target ss m loops x c n) :
    Stmt.execAll pass fuel target ss m = .error (.along (loops ++ [x]) c) n := by
  induction h with
  | here h =>
    rw [Stmt.execAll, bind_eq_error]
    exact .inl (Stmt.exec_of_breaks h)
  | later hs _ ih =>
    rw [Stmt.execAll, bind_eq_error]
    exact .inr ⟨(), _, hs, ih⟩
  | within hb hr _ ih =>
    rw [Stmt.execAll, bind_eq_error]
    exact .inl (Stmt.exec_of_round hb hr ih)

theorem Halts.eq_along {x : Stmt} {ss loops : List Stmt} {m n n' : Machine σ} {c : Cause}
    {f : Failure} (hx : Halts pass fuel target ss m loops x c n)
    (h : Stmt.execAll pass fuel target ss m = .error f n') : f = .along (loops ++ [x]) f.cause := by
  rw [hx.execAll, EStateM.Result.error.injEq] at h
  rw [← h.1, Failure.along_cause]

/-- A sweep fails in one round only. -/
theorem Exec.Rounds.unique {body : Float → Exec σ Unit} {fuel : Nat} {r : Range}
    {m m₁ m₂ n₁ n₂ : Machine σ} {v w : Float} {f g : Failure} (h : Rounds body fuel r m v m₁)
    (hv : body v m₁ = .error f n₁) (h' : Rounds body fuel r m w m₂) (hw : body w m₂ = .error g n₂) :
    v = w ∧ m₁ = m₂ := by
  induction h with
  | first hn =>
    cases h' with
    | first hn' =>
      rw [hn] at hn'
      cases hn'
      exact ⟨rfl, rfl⟩
    | next hn' hb _ =>
      rw [hn] at hn'
      cases hn'
      rw [hv] at hb
      cases hb
  | next hn hb _ ih =>
    cases h' with
    | first hn' =>
      rw [hn] at hn'
      cases hn'
      rw [hw] at hb
      cases hb
    | next hn' hb' h' =>
      rw [hn] at hn'
      cases hn'
      rw [hb] at hb'
      cases hb'
      exact ih hv h'

/-- A run halts in one place only. -/
theorem Halts.unique {x y : Stmt} {ss loops loops' : List Stmt} {m n n' : Machine σ} {c c' : Cause}
    (h : Halts pass fuel target ss m loops x c n)
    (h' : Halts pass fuel target ss m loops' y c' n') : loops' = loops ∧ y = x := by
  induction h generalizing loops' with
  | here h =>
    cases h' with
    | here => exact ⟨rfl, rfl⟩
    | later hs _ =>
      rw [Stmt.exec_of_breaks h] at hs
      cases hs
    | within hb _ _ =>
      rw [Stmt.Breaks, hb] at h
      cases h
  | later hs _ ih =>
    cases h' with
    | here h =>
      rw [Stmt.exec_of_breaks h] at hs
      cases hs
    | later hs' h' =>
      rw [hs] at hs'
      cases hs'
      exact ih h'
    | within hb hr h' =>
      rw [Stmt.exec_of_round hb hr h'.execAll] at hs
      cases hs
  | within hb hr h ih =>
    -- the run of the body is known only through the place where it halts
    have hround := h.execAll
    cases h' with
    | here h' =>
      rw [Stmt.Breaks, hb] at h'
      cases h'
    | later hs _ =>
      rw [Stmt.exec_of_round hb hr hround] at hs
      cases hs
    | within hb' hr' h' =>
      rw [hb] at hb'
      cases hb'
      obtain ⟨rfl, rfl⟩ := hr.unique (bind_eq_error.mpr (.inr ⟨(), _, rfl, hround⟩)) hr'
        (bind_eq_error.mpr (.inr ⟨(), _, rfl, h'.execAll⟩))
      obtain ⟨rfl, rfl⟩ := ih h'
      exact ⟨rfl, rfl⟩

/-! ## From the failure to the place -/

theorem Exec.eval_failure {e : Expr} {m n : Machine σ} {f : Failure}
    (h : Exec.eval target e m = .error f n) : f = ⟨[], f.cause⟩ := by
  rw [eval_apply, onTarget_eq_error] at h
  obtain ⟨c, s, _, rfl, _⟩ := h
  rfl

theorem Exec.eval_of_inside {phase : Label} {pos : Position} {e : Expr} {k : Float → Exec σ Unit}
    (hk : ∀ v m f n, k v m ≠ .error f n) {m n : Machine σ} {f : Failure}
    (h : inside phase pos (eval target e >>= k) m = .error f n) :
    eval target e m = .error ⟨[], f.cause⟩ n := by
  rw [inside_eq_error] at h
  obtain ⟨g, h, rfl⟩ := h
  rw [Failure.within_cause]
  rw [bind_eq_error] at h
  obtain h | ⟨v, m', _, h⟩ := h
  · rw [eval_failure h] at h
    exact h
  · exact absurd h (hk v m' g n)

theorem Exec.bounds_failure {start stop : Expr} {step : Option Expr} {inclusive : Bool}
    {m n : Machine σ} {f : Failure}
    (h : Exec.bounds pass target start stop step inclusive m = .error f n) : f = ⟨[], f.cause⟩ := by
  simp only [bounds, bind_eq_error] at h
  obtain h | ⟨_, _, _, h | ⟨_, _, _, h | ⟨_, _, _, h | ⟨_, _, _, h⟩⟩⟩⟩ := h
  · exact eval_failure h
  · exact eval_failure h
  · cases step with
    | none => cases h
    | some e =>
      simp only [stride, map_eq_pure_bind, bind_eq_error] at h
      obtain h | ⟨_, _, _, h⟩ := h
      · exact eval_failure h
      · cases h
  · obtain ⟨c, _, rfl, _⟩ := ofExcept_eq_error.mp h
    rfl
  · obtain ⟨c, _, rfl, _⟩ := ofExcept_eq_error.mp h
    rfl

/-- A sweep fails in one of its rounds, or has more rounds than it was given. -/
theorem Exec.rounds_of_sweep {body : Float → Exec σ Unit} {fuel : Nat} {r : Range}
    {m n : Machine σ} {f : Failure} (h : sweep body fuel r m = .error f n) :
    (∃ v m', Rounds body fuel r m v m' ∧ body v m' = .error f n) ∨
      f.cause = .outOfFuel ∧ (r.take fuel).2.next?.isSome := by
  induction fuel generalizing r m with
  | zero =>
    cases hr : r.next? with
    | none =>
      rw [sweep_done hr] at h
      cases h
    | some p =>
      rw [sweep_exhausted hr] at h
      cases h
      exact .inr ⟨rfl, by simp [Range.take, hr]⟩
  | succ fuel ih =>
    cases hr : r.next? with
    | none =>
      rw [sweep_done hr] at h
      cases h
    | some p =>
      rw [sweep_next hr, bind_eq_error] at h
      obtain h | ⟨_, m', hb, h⟩ := h
      · exact .inl ⟨_, m, .first hr, h⟩
      · obtain ⟨v, m'', hrounds, h⟩ | ⟨hf, hlong⟩ := ih h
        · exact .inl ⟨v, m'', .next hr hb hrounds, h⟩
        · exact .inr ⟨hf, by simpa [Range.take, hr] using hlong⟩

/-- A loop of a rehearsal has one round. -/
theorem Exec.range_of_rehearsal {start stop : Expr} {step : Option Expr} {inclusive : Bool}
    {m n : Machine σ} {r : Range} {fuel : Nat}
    (h : Exec.bounds .rehearsal target start stop step inclusive m = .ok r n)
    (hlong : (r.take fuel).2.next?.isSome) : fuel = 0 := by
  obtain ⟨_, first, rfl⟩ := resolved_of_bounds h
  cases fuel with
  | zero => rfl
  | succ fuel => cases fuel <;> cases hlong

theorem Stmt.halts_of_execAll_of {ss : List Stmt}
    (ih : ∀ s ∈ ss, ∀ {m n : Machine σ} {f : Failure}, s.exec pass fuel target m = .error f n →
      (∃ loops x, Halts pass fuel target [s] m loops x f.cause n) ∨
        f.cause = .outOfFuel ∧ (pass = .rehearsal → fuel = 0))
    {m n : Machine σ} {f : Failure} (h : Stmt.execAll pass fuel target ss m = .error f n) :
    (∃ loops x, Halts pass fuel target ss m loops x f.cause n) ∨
      f.cause = .outOfFuel ∧ (pass = .rehearsal → fuel = 0) := by
  induction ss generalizing m with
  | nil => cases h
  | cons s ss ihs =>
    rw [execAll, bind_eq_error] at h
    obtain h | ⟨_, m', hs, h⟩ := h
    · obtain ⟨loops, x, hx⟩ | hout := ih s (.head _) h
      · exact .inl ⟨loops, x, hx.mono⟩
      · exact .inr hout
    · obtain ⟨loops, x, hx⟩ | hout := ihs (fun s hs => ih s (.tail _ hs)) h
      · exact .inl ⟨loops, x, .later hs hx⟩
      · exact .inr hout

theorem Stmt.halts_of_exec {s : Stmt} {m n : Machine σ} {f : Failure}
    (h : s.exec pass fuel target m = .error f n) :
    (∃ loops x, Halts pass fuel target [s] m loops x f.cause n) ∨
      f.cause = .outOfFuel ∧ (pass = .rehearsal → fuel = 0) := by
  induction s generalizing m n f with
  | assign pos name e =>
    rw [exec] at h
    refine .inl ⟨[], _, .here (Exec.eval_of_inside ?_ h)⟩
    intro v m f n hv
    cases hv
  | call pos e =>
    rw [exec] at h
    refine .inl ⟨[], _, .here (Exec.eval_of_inside ?_ h)⟩
    intro v m f n hv
    cases hv
  | loop pos name start stop step inclusive body ih =>
    rw [exec_loop, Exec.inside_eq_error] at h
    obtain ⟨g, h, rfl⟩ := h
    rw [bind_eq_error] at h
    rw [Failure.within_cause]
    -- the bounds fail, or a round does, or there are more rounds than fuel
    obtain h | ⟨r, m', hb, h⟩ := h
    · exact .inl ⟨[], _, .here (Exec.bounds_failure h ▸ h)⟩
    obtain ⟨v, m'', hrounds, h⟩ | ⟨hf, hlong⟩ := Exec.rounds_of_sweep h
    · rw [round, bind_eq_error] at h
      obtain h | ⟨_, _, ha, h⟩ := h
      · cases h
      cases ha
      obtain ⟨loops, x, hx⟩ | hout := halts_of_execAll_of (fun s hs _ _ _ h => ih s hs h) h
      · exact .inl ⟨_ :: loops, x, .within hb hrounds hx⟩
      · exact .inr hout
    · refine .inr ⟨hf, ?_⟩
      rintro rfl
      exact Exec.range_of_rehearsal hb hlong
  | invalid pos message phase =>
    rw [exec, Exec.inside_eq_error] at h
    obtain ⟨g, h, rfl⟩ := h
    cases h
    rw [Failure.within_cause]
    exact .inl ⟨[], _, .here ⟨rfl, rfl⟩⟩
  | misfit what =>
    rw [exec] at h
    cases h
    exact .inl ⟨[], _, .here ⟨rfl, rfl⟩⟩

theorem Stmt.halts_of_execAll {ss : List Stmt} {m n : Machine σ} {f : Failure}
    (h : Stmt.execAll pass fuel target ss m = .error f n) :
    (∃ loops x, Halts pass fuel target ss m loops x f.cause n) ∨
      f.cause = .outOfFuel ∧ (pass = .rehearsal → fuel = 0) :=
  halts_of_execAll_of (fun _ _ _ _ _ h => halts_of_exec h) h

end Statements

end PolarPlot
