import PolarPlot.Proofs.Execution

/-!
# The course of a loop

What a loop is given on entry is its `Course`: it fixes all values that the variable of the loop
will have (`Course.value`), and which of them are the last (`Course.GoesOn`). The range of a loop is
what is left of its course (`Course.rest`), so no round can change it, whatever it assigns
(`Stmt.exec_loop_course`).
-/

namespace PolarPlot

/-- What a loop is given on entry. -/
structure Course where
  first : Float
  last : Float
  stride : Option Float
  inclusive : Bool

namespace Course

/-- The step of a loop: the one that it gives, or a hundredth in the direction of its end. -/
def step (c : Course) : Float := c.stride.getD (if c.first < c.last then 0.01 else -0.01)

/-- The value in a round, counted from zero: the step is added to the value before. -/
def value (c : Course) : Nat → Float
  | 0 => c.first
  | k + 1 => c.value k + c.step

/-- Whether the course goes on to a round once the rounds before it are done. -/
def GoesOn (c : Course) (k : Nat) : Prop :=
  if c.first == c.last then k = 0
  else if c.first < c.last then
    if c.inclusive then c.value k ≤ c.last else c.value k < c.last
  else
    if c.inclusive then c.last ≤ c.value k else c.last < c.value k

/-! ## Ranges -/

/-- The range of all rounds. -/
def range (c : Course) : Range := .between c.first c.last c.stride c.inclusive

/-- The range that is left after so many rounds. -/
def rest (c : Course) (k : Nat) : Range :=
  if c.first == c.last then
    if k = 0 then .last c.first else .done
  else .ladder (c.value k) c.step c.last (c.first < c.last) c.inclusive

variable {c : Course} {k : Nat}

theorem rest_zero (c : Course) : c.rest 0 = c.range := by
  unfold rest range Range.between
  by_cases h : c.first < c.last <;> simp [h, step, value, Range.defaultStep]

theorem within_iff (h : ¬ c.first == c.last) :
    Range.within (c.value k) c.last (c.first < c.last) c.inclusive ↔ c.GoesOn k := by
  unfold Range.within GoesOn
  by_cases hlt : c.first < c.last <;> cases c.inclusive <;> simp [h, hlt]

theorem next?_of_goesOn (h : c.GoesOn k) : (c.rest k).next? = some (c.value k, c.rest (k + 1)) := by
  by_cases heq : c.first == c.last
  · obtain rfl : k = 0 := by simpa only [GoesOn, if_pos heq] using h
    simp [rest, heq, Range.next?, value]
  · rw [rest, if_neg heq, rest, if_neg heq, Range.next?, if_pos ((within_iff heq).mpr h), value]

theorem next?_of_not_goesOn (h : ¬ c.GoesOn k) : (c.rest k).next? = none := by
  by_cases heq : c.first == c.last
  · have hk : k ≠ 0 := by simpa only [GoesOn, if_pos heq] using h
    simp [rest, heq, hk, Range.next?]
  · rw [rest, if_neg heq, Range.next?, if_neg (mt (within_iff heq).mp h)]

/-! ## Rounds -/

section Rounds

variable {σ : Type}

/-- The machine at the beginning of a round, when the rounds before it have left `m`. -/
def enter (c : Course) (name : Label) (k : Nat) (m : Machine σ) : Machine σ :=
  { m with vars := m.vars.assign name (c.value k) }

/-- So many rounds are done: the course went on to each of them, and the body succeeded. -/
inductive Turns (c : Course) (name : Label) (body : Exec σ Unit) (m : Machine σ) :
    Nat → Machine σ → Prop where
  | none : Turns c name body m 0 m
  | round {k : Nat} {n n' : Machine σ} :
      Turns c name body m k n → c.GoesOn k → body (c.enter name k n) = .ok () n' →
      Turns c name body m (k + 1) n'

/-- How a loop ends, with at most so many rounds: its course does not go on, the body fails, or
there are rounds left. -/
inductive Ends (c : Course) (name : Label) (body : Exec σ Unit) (fuel : Nat) (m : Machine σ) :
    EStateM.Result Failure (Machine σ) Unit → Prop where
  | done {k : Nat} {n : Machine σ} :
      Turns c name body m k n → k ≤ fuel → ¬ c.GoesOn k → Ends c name body fuel m (.ok () n)
  | failed {k : Nat} {n n' : Machine σ} {f : Failure} :
      Turns c name body m k n → k < fuel → c.GoesOn k → body (c.enter name k n) = .error f n' →
      Ends c name body fuel m (.error f n')
  | exhausted {n : Machine σ} :
      Turns c name body m fuel n → c.GoesOn fuel →
      Ends c name body fuel m (.error ⟨[], .outOfFuel⟩ n)

variable {name : Label} {body : Exec σ Unit} {m n : Machine σ}

theorem get?_enter (hname : name.key ≠ Bindings.sink) :
    (c.enter name k n).vars.get? name = some (c.value k) := by
  rw [enter, Bindings.get?_assign, if_pos ⟨rfl, hname⟩]

/-- A sweep over what is left of a course goes on as the course does. -/
theorem ends_sweep {round : Float → Exec σ Unit}
    (hround : ∀ k n, round (c.value k) n = body (c.enter name k n)) {left : Nat}
    (h : Turns c name body m k n) :
    Ends c name body (k + left) m (Exec.sweep round left (c.rest k) n) := by
  induction left generalizing k n with
  | zero =>
    by_cases hk : c.GoesOn k
    · rw [Exec.sweep_exhausted (next?_of_goesOn hk)]
      exact .exhausted h hk
    · rw [Exec.sweep_done (next?_of_not_goesOn hk)]
      exact .done h (Nat.le_refl k) hk
  | succ left ih =>
    by_cases hk : c.GoesOn k
    · rw [Exec.sweep_next (next?_of_goesOn hk)]
      cases hb : body (c.enter name k n) with
      | ok _ n' =>
        rw [bind_of_ok ((hround k n).trans hb), ← Nat.succ_add_eq_add_succ]
        exact ih (.round h hk hb)
      | error f n' =>
        rw [bind_eq_error.mpr (.inl ((hround k n).trans hb))]
        exact .failed h (Nat.lt_add_of_pos_right left.succ_pos) hk hb
    · rw [Exec.sweep_done (next?_of_not_goesOn hk)]
      exact .done h (Nat.le_add_right k _) hk

end Rounds

end Course

/-! ## Steps that bind nothing -/

section Steps

variable {σ α β : Type} {target : Target σ}

/-- A step that leaves all variables as they are, whether it succeeds or fails. -/
structure Exec.Unbinding (act : Exec σ α) : Prop where
  ok {m n : Machine σ} {a : α} : act m = .ok a n → n.vars = m.vars
  error {m n : Machine σ} {f : Failure} : act m = .error f n → n.vars = m.vars

namespace Exec.Unbinding

theorem pure (a : α) : Unbinding (Pure.pure a : Exec σ α) where
  ok h := by
    cases h
    rfl
  error h := by cases h

theorem bind {act : Exec σ α} {g : α → Exec σ β} (h : Unbinding act) (hg : ∀ a, Unbinding (g a)) :
    Unbinding (act >>= g) where
  ok hb := by
    obtain ⟨a, m', ha, hb⟩ := bind_eq_ok.mp hb
    rw [(hg a).ok hb, h.ok ha]
  error hb := by
    obtain ha | ⟨a, m', ha, hb⟩ := bind_eq_error.mp hb
    · exact h.error ha
    · rw [(hg a).error hb, h.ok ha]

theorem eval (e : Expr) : Unbinding (Exec.eval target e) where
  ok h := vars_of_eval h
  error h := by
    rw [eval_apply, onTarget_eq_error] at h
    obtain ⟨_, s, _, _, rfl⟩ := h
    rfl

theorem ofExcept (x : Except Cause α) : Unbinding (Exec.ofExcept x : Exec σ α) where
  ok h := by rw [(ofExcept_eq_ok.mp h).2]
  error h := by
    obtain ⟨_, _, _, rfl⟩ := ofExcept_eq_error.mp h
    rfl

theorem stride (step : Option Expr) : Unbinding (Exec.stride target step) := by
  cases step with
  | none => exact .pure none
  | some e =>
    simp only [Exec.stride, map_eq_pure_bind]
    exact (eval e).bind fun v => .pure (some v)

end Exec.Unbinding

end Steps

/-! ## Loops -/

section Loops

variable {σ : Type} (target : Target σ) (start stop : Expr) (step : Option Expr) (inclusive : Bool)

/-- Enters a loop: its bounds and its step are evaluated, in this order, and then checked. -/
def Exec.entry : Exec σ Course := do
  let first ← eval target start
  let last ← eval target stop
  let stride ← stride target step
  ofExcept (Range.check first last stride)
  return ⟨first, last, stride, inclusive⟩

theorem Exec.bounds_real :
    bounds .real target start stop step inclusive =
      entry target start stop step inclusive >>= fun c => pure c.range := by
  simp only [bounds, entry, bind_assoc, pure_bind]
  rfl

theorem Exec.entry_unbinding : Unbinding (entry target start stop step inclusive) := by
  apply (Unbinding.eval start).bind
  intro first
  apply (Unbinding.eval stop).bind
  intro last
  apply (Unbinding.stride step).bind
  intro stride
  exact (Unbinding.ofExcept _).bind fun _ => .pure _

theorem Stmt.exec_loop_real (fuel : Nat) (pos : Position) (name : Label) (body : List Stmt) :
    (Stmt.loop pos name start stop step inclusive body).exec .real fuel target =
      Exec.inside Phase.loop pos (Exec.entry target start stop step inclusive >>= fun c =>
        Exec.sweep (Stmt.round .real fuel target name body) fuel c.range) := by
  rw [exec_loop, Exec.bounds_real, bind_assoc]
  simp only [pure_bind]

end Loops

/-- The values of a loop are fixed on entry: each round begins with its own value in the variable of
the loop, whatever the rounds before it have assigned. A loop that cannot be entered binds
nothing. -/
theorem Stmt.exec_loop_course {σ : Type} (fuel : Nat) (target : Target σ) (pos : Position)
    (name : Label) (start stop : Expr) (step : Option Expr) (inclusive : Bool) (body : List Stmt)
    (m : Machine σ) :
    (∀ f n, Exec.entry target start stop step inclusive m = .error f n →
      n.vars = m.vars ∧
      (Stmt.loop pos name start stop step inclusive body).exec .real fuel target m =
        .error (f.within ⟨Phase.loop, pos⟩) n) ∧
    ∀ c n, Exec.entry target start stop step inclusive m = .ok c n →
      n.vars = m.vars ∧
      (∀ k n', c.Turns name (Stmt.execAll .real fuel target body) n k n' →
        name.key ≠ Bindings.sink → (c.enter name k n').vars.get? name = some (c.value k)) ∧
      ((∃ n', c.Ends name (Stmt.execAll .real fuel target body) fuel n (.ok () n') ∧
          (Stmt.loop pos name start stop step inclusive body).exec .real fuel target m =
            .ok () n') ∨
        ∃ f n', c.Ends name (Stmt.execAll .real fuel target body) fuel n (.error f n') ∧
          (Stmt.loop pos name start stop step inclusive body).exec .real fuel target m =
            .error (f.within ⟨Phase.loop, pos⟩) n') := by
  have hentry := Exec.entry_unbinding target start stop step inclusive
  rw [exec_loop_real]
  refine ⟨fun f n h => ⟨hentry.error h, ?_⟩, fun c n h => ⟨hentry.ok h, ?_, ?_⟩⟩
  · exact Exec.inside_eq_error.mpr ⟨f, bind_eq_error.mpr (.inl h), rfl⟩
  · intro k n' _ hname
    exact Course.get?_enter hname
  · have hends : c.Ends name (Stmt.execAll .real fuel target body) (0 + fuel) n
        (Exec.sweep (Stmt.round .real fuel target name body) fuel (c.rest 0) n) :=
      Course.ends_sweep (fun _ _ => rfl) .none
    rw [Nat.zero_add, c.rest_zero] at hends
    cases hsweep : Exec.sweep (Stmt.round .real fuel target name body) fuel c.range n with
    | ok _ n' =>
      rw [hsweep] at hends
      exact .inl ⟨n', hends, Exec.inside_eq_ok.mpr ((bind_of_ok h).trans hsweep)⟩
    | error f n' =>
      rw [hsweep] at hends
      exact .inr ⟨f, n', hends, Exec.inside_eq_error.mpr ⟨f, (bind_of_ok h).trans hsweep, rfl⟩⟩

theorem Exec.ok_of_run {σ : Type} {act : Exec σ Unit} {m : Machine σ} {s : σ}
    (h : EStateM.run' (do act; return (← get).target) m = some s) :
    ∃ n, act m = .ok () n ∧ n.target = s := by
  have hrun : ∀ r, (do act; return (← get).target : Exec σ σ) m = r →
      EStateM.run' (fun _ => r : Exec σ σ) m = some s := by
    rintro r rfl
    exact h
  cases hact : act m with
  | ok _ n => exact ⟨n, rfl, Option.some.inj (hrun (.ok n.target n) (bind_of_ok hact))⟩
  | error f n => cases hrun (.error f n) (bind_eq_error.mpr (.inl hact))

/-- A body that draws a point, assigns the variable of its loop and both bounds, and has a loop over
the same variable. -/
def rebinding : List Stmt :=
  [.call .unknown (.call .unknown "render" [.const .unknown 0, .var .unknown "i"]),
    .assign .unknown "i" (.const .unknown 7),
    .assign .unknown "low" (.var .unknown "i"),
    .assign .unknown "high" (.const .unknown 0),
    .loop .unknown "i" (.const .unknown 8) (.const .unknown 8) none false []]

def rebindingLoop : Stmt :=
  .loop .unknown "i" (.var .unknown "low") (.var .unknown "high") (some (.const .unknown 1)) true
    rebinding

/-- A machine that has both bounds of the loop. -/
def Machine.bounded : Machine Tally := ⟨[(.word "low", 1), (.word "high", 3)], ⟨0, false⟩⟩

theorem Stmt.exec_loop_course_rebinding : ∃ n,
    Exec.entry Target.tally (.var .unknown "low") (.var .unknown "high")
      (some (.const .unknown 1)) true
        .bounded = .ok ⟨1, 3, some 1, true⟩ .bounded ∧
      (⟨1, 3, some 1, true⟩ : Course).Ends "i"
        (Stmt.execAll .real 5 Target.tally rebinding) 5 .bounded (.ok () n) ∧
      n.target = ⟨3, false⟩ := by
  have hentry : Exec.entry Target.tally (.var .unknown "low") (.var .unknown "high")
      (some (.const .unknown 1)) true .bounded = .ok ⟨1, 3, some 1, true⟩ .bounded := rfl
  have htally : EStateM.run' (do rebindingLoop.exec .real 5 Target.tally; return (← get).target)
      .bounded = some ⟨3, false⟩ := by
    decide +kernel
  obtain ⟨n, hrun, htarget⟩ := Exec.ok_of_run htally
  obtain ⟨-, -, ⟨n', hends, hexec⟩ | ⟨f, n', -, hexec⟩⟩ :=
    (exec_loop_course 5 Target.tally .unknown "i" _ _ _ true rebinding .bounded).2 _ _ hentry
  · cases hrun.symm.trans hexec
    exact ⟨n, hentry, hends, htarget⟩
  · cases hrun.symm.trans hexec

end PolarPlot
