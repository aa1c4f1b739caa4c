import PolarPlot.Eval.Exec
import PolarPlot.Proofs.Induction

/-!
# What a run does

Inversion of the steps of a run, the shape of a loop, and the places that a run comes to. A loop is
its bounds (`Exec.bounds`) followed by a sweep over its rounds (`Stmt.round`). `Starts` says that a
run comes to a statement, and with which machine; `Stmt.Idles` says of a loop that it has no round
there.
-/

namespace PolarPlot

/-! ## Steps -/

section Steps

variable {ε σ α β : Type} {x : EStateM ε σ α} {g : α → EStateM ε σ β} {s t : σ}

theorem bind_eq_ok {b : β} :
    (x >>= g) s = .ok b t ↔ ∃ a u, x s = .ok a u ∧ g a u = .ok b t := by
  simp only [bind, EStateM.bind]
  cases x s <;> simp [and_assoc]

theorem bind_eq_error {e : ε} :
    (x >>= g) s = .error e t ↔
      x s = .error e t ∨ ∃ a u, x s = .ok a u ∧ g a u = .error e t := by
  simp only [bind, EStateM.bind]
  cases x s <;> simp [and_assoc]

theorem bind_of_ok {a : α} (h : x s = .ok a t) : (x >>= g) s = g a t := by
  simp only [bind, EStateM.bind, h]

@[simp] theorem pure_apply {a : α} : (pure a : EStateM ε σ α) s = .ok a s := rfl

@[simp] theorem throw_apply {e : ε} : (throw e : EStateM ε σ α) s = .error e s := rfl

/-- The state that a step leaves, whether it succeeds or fails. -/
def lastState : EStateM.Result ε σ α → σ
  | .ok _ s => s
  | .error _ s => s

/-- The end of a step with its error and its state mapped. -/
def mapEnd {ε' τ : Type} (f : ε → ε') (g : σ → τ) : EStateM.Result ε σ α → EStateM.Result ε' τ α
  | .ok a s => .ok a (g s)
  | .error e s => .error (f e) (g s)

theorem lastState_mapEnd {ε' τ : Type} (f : ε → ε') (g : σ → τ) (r : EStateM.Result ε σ α) :
    lastState (mapEnd f g r) = g (lastState r) := by
  cases r <;> rfl

end Steps

namespace Bindings

theorem get?_set (key : Label.Key) (value : Float) (vars : Bindings) (name : Label) :
    (set key value vars).get? name = if name.key = key then some value else vars.get? name := by
  induction vars with
  | nil => by_cases h : name.key = key <;> simp [set, get?, h]
  | cons b vars ih =>
    obtain ⟨k, v⟩ := b
    simp only [get?] at ih
    by_cases h : name.key = k
    · by_cases hk : k = key <;> simp [set, get?, hk, h]
    · have hb : (name.key == k) = false := beq_false_of_ne h
      by_cases hk : k = key
      · subst hk
        simp [set, get?, h, hb, List.lookup_cons]
      · simp [set, get?, hk, hb, List.lookup_cons, ih]

theorem get?_assign (vars : Bindings) (name x : Label) (value : Float) :
    (vars.assign name value).get? x =
      if x.key = name.key ∧ name.key ≠ sink then some value else vars.get? x := by
  unfold assign
  split <;> simp_all [get?_set]

/-- Whether a variable has a value. -/
def Binds (vars : Bindings) (name : Label) : Prop := (vars.get? name).isSome

/-- Every variable that has a value in `known` has one in `vars`. -/
def Covers (vars known : Bindings) : Prop := ∀ name, known.Binds name → vars.Binds name

theorem Covers.refl (vars : Bindings) : vars.Covers vars := fun _ h => h

theorem Covers.trans {a b c : Bindings} (h : a.Covers b) (h' : b.Covers c) : a.Covers c :=
  fun name hc => h name (h' name hc)

theorem covers_assign (vars : Bindings) (name : Label) (value : Float) :
    (vars.assign name value).Covers vars := by
  intro x hx
  unfold Binds at hx ⊢
  rw [get?_assign]
  split <;> simp [hx]

theorem Covers.assign {vars known : Bindings} (h : vars.Covers known) (name : Label)
    (value value' : Float) : (vars.assign name value).Covers (known.assign name value') := by
  intro x hx
  have hx' := h x
  unfold Binds at hx hx' ⊢
  rw [get?_assign] at hx ⊢
  split <;> simp_all

end Bindings

namespace Exec

variable {σ α : Type}

theorem onTarget_eq_ok {act : Action σ α} {m n : Machine σ} {a : α} :
    onTarget act m = .ok a n ↔ ∃ s, act m.target = .ok a s ∧ n = { m with target := s } := by
  unfold onTarget
  cases act m.target <;> simp [eq_comm, and_assoc]

theorem onTarget_eq_error {act : Action σ α} {m n : Machine σ} {f : Failure} :
    onTarget act m = .error f n ↔
      ∃ c s, act m.target = .error c s ∧ f = ⟨[], c⟩ ∧ n = { m with target := s } := by
  unfold onTarget
  cases act m.target <;> simp [eq_comm, and_assoc]

theorem eval_apply (target : Target σ) (e : Expr) (m : Machine σ) :
    eval target e m = onTarget (e.eval target m.vars) m := rfl

theorem ofExcept_eq_ok {x : Except Cause α} {m n : Machine σ} {a : α} :
    ofExcept x m = .ok a n ↔ x = .ok a ∧ n = m := by
  cases x <;> simp [ofExcept, fail, eq_comm]

theorem ofExcept_eq_error {x : Except Cause α} {m n : Machine σ} {f : Failure} :
    ofExcept x m = .error f n ↔ ∃ c, x = .error c ∧ f = ⟨[], c⟩ ∧ n = m := by
  cases x <;> simp [ofExcept, fail, eq_comm]

theorem inside_eq_ok {phase : Label} {pos : Position} {act : Exec σ α} {m n : Machine σ} {a : α} :
    inside phase pos act m = .ok a n ↔ act m = .ok a n := by
  unfold inside
  cases act m <;> simp

theorem inside_eq_error {phase : Label} {pos : Position} {act : Exec σ α} {m n : Machine σ}
    {f : Failure} :
    inside phase pos act m = .error f n ↔ ∃ g, act m = .error g n ∧ f = g.within ⟨phase, pos⟩ := by
  unfold inside
  cases act m <;> simp [eq_comm, and_comm, and_assoc]

end Exec

/-! ## Loops -/

namespace Exec

variable {σ : Type} (pass : Pass) (target : Target σ)

/-- Evaluates the step of a loop, if it gives one. -/
def stride : Option Expr → Exec σ (Option Float)
  | none => pure none
  | some e => some <$> eval target e

/-- Evaluates the bounds of a loop, in order, and checks them. -/
def bounds (start stop : Expr) (step : Option Expr) (inclusive : Bool) : Exec σ Range := do
  let first ← eval target start
  let last ← eval target stop
  let stride ← stride target step
  ofExcept (Range.check first last stride)
  ofExcept (pass.range first last stride inclusive)

variable {body : Float → Exec σ Unit} {fuel : Nat} {r r' : Range} {m : Machine σ} {v : Float}

theorem sweep_done (h : r.next? = none) : sweep body fuel r m = .ok () m := by
  cases fuel <;> simp [sweep, h]

theorem sweep_exhausted (h : r.next? = some (v, r')) :
    sweep body 0 r m = .error ⟨[], .outOfFuel⟩ m := by
  simp [sweep, h, fail]

theorem sweep_next (h : r.next? = some (v, r')) :
    sweep body (fuel + 1) r = body v >>= fun _ => sweep body fuel r' := by
  simp [sweep, h]

/-- The rounds of a sweep: it comes to the round of a value, with the machine as it is then. -/
inductive Rounds (body : Float → Exec σ Unit) :
    Nat → Range → Machine σ → Float → Machine σ → Prop where
  | first {fuel : Nat} {r r' : Range} {m : Machine σ} {v : Float} :
      r.next? = some (v, r') → Rounds body (fuel + 1) r m v m
  | next {fuel : Nat} {r r' : Range} {m m' n : Machine σ} {v w : Float} :
      r.next? = some (v, r') → body v m = .ok () m' → Rounds body fuel r' m' w n →
      Rounds body (fuel + 1) r m w n

end Exec

section Statements

variable {σ : Type} (pass : Pass) (fuel : Nat) (target : Target σ)

/-- One round of a loop: its variable gets a value, and its body runs. -/
def Stmt.round (name : Label) (body : List Stmt) (value : Float) : Exec σ Unit := do
  Exec.assign name value
  Stmt.execAll pass fuel target body

theorem Stmt.exec_loop (pos : Position) (name : Label) (start stop : Expr) (step : Option Expr)
    (inclusive : Bool) (body : List Stmt) :
    (Stmt.loop pos name start stop step inclusive body).exec pass fuel target =
      Exec.inside Phase.loop pos (Exec.bounds pass target start stop step inclusive >>=
        Exec.sweep (Stmt.round pass fuel target name body) fuel) := by
  cases step <;> simp only [Stmt.exec, Exec.bounds, Exec.stride, bind_assoc,
    map_eq_pure_bind] <;> rfl

/-- The run of a list of statements comes to a statement, with the machine as it is then. -/
inductive Starts : List Stmt → Machine σ → Stmt → Machine σ → Prop where
  | here {s : Stmt} {ss : List Stmt} {m : Machine σ} : Starts (s :: ss) m s m
  | later {s x : Stmt} {ss : List Stmt} {m m' n : Machine σ} :
      s.exec pass fuel target m = .ok () m' → Starts ss m' x n → Starts (s :: ss) m x n
  | within {pos : Position} {name : Label} {start stop : Expr} {step : Option Expr}
      {inclusive : Bool} {body ss : List Stmt} {r : Range} {v : Float} {x : Stmt}
      {m m' m'' n : Machine σ} :
      Exec.bounds pass target start stop step inclusive m = .ok r m' →
      Exec.Rounds (Stmt.round pass fuel target name body) fuel r m' v m'' →
      Starts body { m'' with vars := m''.vars.assign name v } x n →
      Starts (.loop pos name start stop step inclusive body :: ss) m x n

/-- A loop that has no round when it is run: its bounds are good, and its range is empty. -/
def Stmt.Idles (m : Machine σ) : Stmt → Prop
  | .loop _ _ start stop step inclusive _ =>
    ∃ r m', Exec.bounds pass target start stop step inclusive m = .ok r m' ∧ r.next? = none
  | _ => False

variable {pass fuel target}

theorem Starts.mono {s x : Stmt} {ss : List Stmt} {m n : Machine σ}
    (h : Starts pass fuel target [s] m x n) : Starts pass fuel target (s :: ss) m x n := by
  cases h with
  | here => exact .here
  | later _ h => cases h
  | within hb hr h => exact .within hb hr h

end Statements

/-! ## Variables stay bound -/

section Bound

variable {σ : Type} {pass : Pass} {fuel : Nat} {target : Target σ}

theorem Exec.vars_of_eval {e : Expr} {m n : Machine σ} {v : Float}
    (h : Exec.eval target e m = .ok v n) : n.vars = m.vars := by
  rw [eval_apply, onTarget_eq_ok] at h
  obtain ⟨s, _, rfl⟩ := h
  rfl

theorem Exec.vars_of_stride {step : Option Expr} {m n : Machine σ} {v : Option Float}
    (h : Exec.stride target step m = .ok v n) : n.vars = m.vars := by
  cases step with
  | none =>
    cases h
    rfl
  | some e =>
    simp only [stride, map_eq_pure_bind, bind_eq_ok, pure_apply, EStateM.Result.ok.injEq] at h
    obtain ⟨x, m', he, _, rfl⟩ := h
    exact vars_of_eval he

/-- The bounds of a loop leave all variables as they are. -/
theorem Exec.vars_of_bounds {start stop : Expr} {step : Option Expr} {inclusive : Bool} {r : Range}
    {m n : Machine σ} (h : Exec.bounds pass target start stop step inclusive m = .ok r n) :
    n.vars = m.vars := by
  simp only [bounds, bind_eq_ok] at h
  obtain ⟨first, m₁, h₁, last, m₂, h₂, stride, m₃, h₃, _, m₄, h₄, h₅⟩ := h
  rw [(ofExcept_eq_ok.mp h₅).2, (ofExcept_eq_ok.mp h₄).2, vars_of_stride h₃, vars_of_eval h₂,
    vars_of_eval h₁]

theorem Exec.sweep_covers {body : Float → Exec σ Unit}
    (hbody : ∀ {v m n}, body v m = .ok () n → n.vars.Covers m.vars) {fuel : Nat} {r : Range}
    {m n : Machine σ} (h : Exec.sweep body fuel r m = .ok () n) : n.vars.Covers m.vars := by
  induction fuel generalizing r m with
  | zero =>
    cases hr : r.next? with
    | none =>
      rw [sweep_done hr] at h
      cases h
      exact .refl _
    | some p => simp [sweep_exhausted hr] at h
  | succ fuel ih =>
    cases hr : r.next? with
    | none =>
      rw [sweep_done hr] at h
      cases h
      exact .refl _
    | some p =>
      rw [sweep_next hr, bind_eq_ok] at h
      obtain ⟨_, m', hb, hs⟩ := h
      exact (ih hs).trans (hbody hb)

theorem Stmt.execAll_covers {ss : List Stmt}
    (ih : ∀ s ∈ ss, ∀ {m n : Machine σ}, s.exec pass fuel target m = .ok () n →
      n.vars.Covers m.vars)
    {m n : Machine σ} (h : Stmt.execAll pass fuel target ss m = .ok () n) :
    n.vars.Covers m.vars := by
  induction ss generalizing m with
  | nil =>
    cases h
    exact .refl _
  | cons s ss ihs =>
    rw [execAll, bind_eq_ok] at h
    obtain ⟨_, m', hs, hss⟩ := h
    exact (ihs (fun s hs => ih s (.tail _ hs)) hss).trans (ih s (.head _) hs)

/-- A variable that has a value keeps one. -/
theorem Stmt.exec_covers {s : Stmt} {m n : Machine σ}
    (h : s.exec pass fuel target m = .ok () n) : n.vars.Covers m.vars := by
  induction s generalizing m n with
  | assign pos name value =>
    simp only [exec, Exec.inside_eq_ok, bind_eq_ok] at h
    obtain ⟨v, m', he, h⟩ := h
    cases h
    rw [← Exec.vars_of_eval he]
    exact Bindings.covers_assign _ name v
  | call pos e =>
    simp only [exec, Exec.inside_eq_ok, bind_eq_ok] at h
    obtain ⟨v, m', he, h⟩ := h
    cases h
    rw [Exec.vars_of_eval he]
    exact .refl _
  | loop pos name start stop step inclusive body ih =>
    rw [exec_loop, Exec.inside_eq_ok, bind_eq_ok] at h
    obtain ⟨r, m', hb, hs⟩ := h
    rw [← Exec.vars_of_bounds hb]
    refine Exec.sweep_covers ?_ hs
    intro v m₁ n₁ hround
    exact (execAll_covers (fun s hs _ _ h => ih s hs h) hround).trans
      (Bindings.covers_assign _ name v)
  | invalid pos message phase => simp [exec, Exec.inside, Exec.fail] at h
  | misfit what => simp [exec, Exec.fail] at h

end Bound

@[simp] theorem Failure.within_cause (f : Failure) (frame : Frame) :
    (f.within frame).cause = f.cause := by
  unfold Failure.within
  split <;> rfl

end PolarPlot
