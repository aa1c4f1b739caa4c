import PolarPlot.Drawing.Buffer
import PolarPlot.Proofs.Reporting

/-!
# Scripts

What a program gives to its target does not depend on the target. A step of a program has a script
(`Script`): the commands that it gives, how it ends, and the variables that it leaves. Against a
target that takes all of the commands the step ends as the script says, and against any other it
fails at the first command that the target rejects (`Obeys`).
-/

namespace PolarPlot

/-! ## Replays -/

namespace Target

variable {σ : Type} {T : Target σ} {s t : σ} {c : Cause}

theorem replay_append (cs ds : List Command) :
    T.replay (cs ++ ds) = T.replay cs >>= fun _ => T.replay ds := by
  induction cs with
  | nil => simp [replay]
  | cons c cs ih => simp [replay, ih]

/-- A replay fails at the first command that the target rejects. -/
theorem replay_eq_error {cs : List Command} :
    T.replay cs s = .error c t ↔ ∃ before x after u, cs = before ++ x :: after ∧
      T.replay before s = .ok () u ∧ T.accept x u = .error c t := by
  constructor
  · intro h
    induction cs generalizing s with
    | nil => cases h
    | cons x cs ih =>
      rw [replay, bind_eq_error] at h
      obtain h | ⟨_, u, hx, h⟩ := h
      · exact ⟨[], x, cs, s, rfl, rfl, h⟩
      · obtain ⟨before, y, after, v, rfl, hv, hy⟩ := ih h
        exact ⟨x :: before, y, after, v, rfl, bind_eq_ok.mpr ⟨(), u, hx, hv⟩, hy⟩
  · rintro ⟨before, x, after, u, rfl, hu, hx⟩
    rw [replay_append, bind_eq_error]
    exact .inr ⟨(), u, hu, bind_eq_error.mpr (.inl hx)⟩

/-- Gives commands, and then has a value or fails. -/
def perform {α : Type} (T : Target σ) (cs : List Command) (o : Except Cause α) : Action σ α := do
  T.replay cs
  Action.ofExcept o

theorem perform_ok_bind {α β : Type} (cs : List Command) (a : α) (g : α → Action σ β) :
    (T.perform cs (.ok a) >>= g) = T.replay cs >>= fun _ => g a := by
  simp [perform, Action.ofExcept]

theorem perform_error_bind {α β : Type} (cs : List Command) (g : α → Action σ β) :
    (T.perform cs (.error c) >>= g) = T.perform cs (.error c) := by
  simp only [perform, Action.ofExcept, bind_assoc]
  rfl

theorem replay_perform {α : Type} (cs ds : List Command) (o : Except Cause α) :
    (T.replay cs >>= fun _ => T.perform ds o) = T.perform (cs ++ ds) o := by
  simp [perform, replay_append]

end Target

/-- Whether a drawing can show a command. -/
def Command.isDrawable : Command → Bool
  | .bare _ _ => false
  | _ => true

/-! ## Expressions -/

/-- A step on a target does the same against every target. -/
def Performs {α : Type} (act : ∀ σ : Type, Target σ → Action σ α) : Prop :=
  ∃ cs o, (∀ x ∈ cs, x.isDrawable) ∧ ∀ σ (T : Target σ), act σ T = T.perform cs o

namespace Performs

variable {α β : Type}

theorem ofExcept (o : Except Cause α) : Performs fun _ _ => Action.ofExcept o :=
  ⟨[], o, by simp, fun _ _ => rfl⟩

theorem pure (a : α) : Performs fun _ _ => (Pure.pure a : Action _ α) := ofExcept (.ok a)

theorem throw (c : Cause) : Performs fun _ _ => (throw c : Action _ α) := ofExcept (.error c)

theorem accept {x : Command} (hx : x.isDrawable) (a : α) :
    Performs fun _ T => do T.accept x; return a := by
  refine ⟨[x], .ok a, by simpa using hx, fun σ T => ?_⟩
  simp [Target.perform, Target.replay, Action.ofExcept]

theorem bind {act : ∀ σ : Type, Target σ → Action σ α} {g : α → ∀ σ : Type, Target σ → Action σ β}
    (h : Performs act) (hg : ∀ a, Performs (g a)) :
    Performs fun σ T => act σ T >>= fun a => g a σ T := by
  obtain ⟨cs, o, hcs, h⟩ := h
  cases o with
  | error c =>
    refine ⟨cs, .error c, hcs, fun σ T => ?_⟩
    simp only [h, Target.perform_error_bind]
  | ok a =>
    obtain ⟨ds, o, hds, hg⟩ := hg a
    refine ⟨cs ++ ds, o, List.forall_mem_append.mpr ⟨hcs, hds⟩, fun σ T => ?_⟩
    simp only [h, Target.perform_ok_bind, hg, Target.replay_perform]

end Performs

theorem Function.performs_calculated (f : Function) (value : Number.Checked) :
    Performs fun _ _ => f.calculated value := by
  cases value with
  | ok x => exact .pure x
  | error e => exact .throw _

theorem Function.performs_apply (f : Function) (args : List Float) :
    Performs fun _ T => f.apply T args := by
  unfold apply
  by_cases hn : args.length = f.arity
  · simp only [hn, ne_eq, not_true_eq_false, if_false]
    split
    · exact .accept rfl _
    · exact .accept rfl _
    · exact performs_calculated _ _
    · exact .pure _
    · exact .pure _
    · exact performs_calculated _ _
    · exact .pure _
  · simp only [hn, ne_eq, not_false_eq_true, if_true]
    exact .throw _

theorem Function.performs_dispatch (name : Label) (args : List Float) :
    Performs fun _ T => Function.dispatch T name args := by
  unfold dispatch
  cases find name with
  | ok f => exact performs_apply f args
  | error c => exact .throw c

theorem Expr.performs_evalAll {vars : Bindings} {es : List Expr}
    (ih : ∀ e ∈ es, Performs fun _ T => e.eval T vars) :
    Performs fun _ T => Expr.evalAll T vars es := by
  induction es with
  | nil => exact .pure []
  | cons e es ihs =>
    simp only [evalAll]
    apply (ih e (.head _)).bind
    intro value
    apply (ihs fun e he => ih e (.tail _ he)).bind
    intro values
    exact .pure _

theorem Expr.performs_eval (vars : Bindings) (e : Expr) : Performs fun _ T => e.eval T vars := by
  induction e with
  | var pos name => exact .ofExcept _
  | const pos value => exact .pure value
  | binary pos op left right ihl ihr =>
    simp only [eval]
    apply ihl.bind
    intro x
    apply ihr.bind
    intro y
    split
    · exact .throw _
    · exact .pure _
  | call pos name args ih =>
    simp only [eval]
    apply (performs_evalAll ih).bind
    intro values
    exact Function.performs_dispatch name values
  | misfit what => exact .throw _

/-! ## Statements -/

/-- The failure that a cause makes inside of statements. -/
def Failure.raised (frames : List Frame) (c : Cause) : Failure :=
  frames.foldr (fun frame f => f.within frame) ⟨[], c⟩

@[simp] theorem Failure.raised_cause (frames : List Frame) (c : Cause) :
    (raised frames c).cause = c := by
  induction frames with
  | nil => rfl
  | cons frame frames ih => exact (within_cause _ _).trans ih

/-- What a step does against any target: the commands that it gives, how it ends, and the variables
that it leaves. -/
structure Script (α : Type) where
  commands : List Command
  outcome : Except Failure α
  vars : Bindings
  drawable : ∀ x ∈ commands, x.isDrawable

/-- The script of a step that gives no commands. -/
def Script.silent {α : Type} (o : Except Failure α) (vars : Bindings) : Script α :=
  ⟨[], o, vars, by simp⟩

/-- The end of a step, with its target in a given state. -/
def Script.result {σ α : Type} (p : Script α) (t : σ) : EStateM.Result Failure (Machine σ) α :=
  match p.outcome with
  | .ok a => .ok a ⟨p.vars, t⟩
  | .error f => .error f ⟨p.vars, t⟩

/-- A step ends as its script says against a target that takes all commands. Where a target rejects
one, the step fails there, inside of the same statements for every target. -/
structure Obeys {α : Type} (act : ∀ σ : Type, Target σ → Exec σ α) (vars : Bindings)
    (p : Script α) : Prop where
  taken {σ : Type} {T : Target σ} {s t : σ} :
    T.replay p.commands s = .ok () t → act σ T ⟨vars, s⟩ = p.result t
  rejected {before after : List Command} {x : Command} : p.commands = before ++ x :: after →
    ∃ frames vars', ∀ {σ : Type} {T : Target σ} {s t u : σ} {c : Cause},
      T.replay before s = .ok () t → T.accept x t = .error c u →
      act σ T ⟨vars, s⟩ = .error (.raised frames c) ⟨vars', u⟩

/-- A step has a script, whatever the variables are. -/
def Scripted {α : Type} (act : ∀ σ : Type, Target σ → Exec σ α) : Prop :=
  ∀ vars, ∃ p, Obeys act vars p

/-- A command stands on one side of a seam. -/
theorem append_eq_append_cons {cs ds before after : List Command} {x : Command}
    (h : cs ++ ds = before ++ x :: after) :
    (∃ rest, cs = before ++ x :: rest) ∨ ∃ mid, before = cs ++ mid ∧ ds = mid ++ x :: after := by
  obtain ⟨mid, hb, hd⟩ | ⟨mid, hc, hx⟩ := List.append_eq_append_iff.mp h
  · exact .inr ⟨mid, hb, hd⟩
  · cases mid with
    | nil => exact .inr ⟨[], by simpa using hc.symm, by simpa using hx.symm⟩
    | cons y mid =>
      obtain ⟨rfl, -⟩ := List.cons.inj hx
      exact .inl ⟨mid, hc⟩

namespace Scripted

variable {α β : Type}

theorem silent {act : ∀ σ : Type, Target σ → Exec σ α}
    (h : ∀ vars, ∃ o vars', ∀ {σ : Type} (T : Target σ) (s : σ),
      act σ T ⟨vars, s⟩ = (Script.silent o vars').result s) : Scripted act := by
  intro vars
  obtain ⟨o, vars', h⟩ := h vars
  refine ⟨.silent o vars', ?_, ?_⟩
  · intro σ T s t ht
    cases ht
    exact h T s
  · intro before after x hx
    simp [Script.silent] at hx

theorem ofExcept (x : Except Cause α) : Scripted fun _ _ => Exec.ofExcept x := by
  apply silent
  intro vars
  cases x with
  | ok a => exact ⟨.ok a, vars, fun _ _ => rfl⟩
  | error c => exact ⟨.error ⟨[], c⟩, vars, fun _ _ => rfl⟩

theorem pure (a : α) : Scripted fun _ _ => (Pure.pure a : Exec _ α) := ofExcept (.ok a)

theorem fail (c : Cause) : Scripted fun _ _ => (Exec.fail c : Exec _ α) := ofExcept (.error c)

theorem assign (name : Label) (value : Float) : Scripted fun _ _ => Exec.assign name value :=
  silent fun vars => ⟨.ok (), vars.assign name value, fun _ _ => rfl⟩

theorem eval (e : Expr) : Scripted fun _ T => Exec.eval T e := by
  intro vars
  obtain ⟨cs, o, hcs, h⟩ := Expr.performs_eval vars e
  refine ⟨⟨cs, o.mapError (⟨[], ·⟩), vars, hcs⟩, ?_, ?_⟩
  · intro σ T s t ht
    have hact : T.perform cs o s = Action.ofExcept o t := bind_of_ok ht
    simp only [Exec.eval_apply, h, Exec.onTarget, hact]
    cases o <;> rfl
  · intro before after x hx
    refine ⟨[], vars, ?_⟩
    intro σ T s t u c ht hc
    have hact : T.perform cs o s = .error c u :=
      bind_eq_error.mpr (.inl (Target.replay_eq_error.mpr ⟨before, x, after, t, hx, ht, hc⟩))
    simp only [Exec.eval_apply, h, Exec.onTarget, hact]
    rfl

theorem bind {act : ∀ σ : Type, Target σ → Exec σ α} {g : α → ∀ σ : Type, Target σ → Exec σ β}
    (h : Scripted act) (hg : ∀ a, Scripted (g a)) :
    Scripted fun σ T => act σ T >>= fun a => g a σ T := by
  intro vars
  obtain ⟨⟨cs, o, vars₁, hcs⟩, hp⟩ := h vars
  cases o with
  | error f =>
    refine ⟨⟨cs, .error f, vars₁, hcs⟩, ?_, ?_⟩
    · intro σ T s t ht
      exact bind_eq_error.mpr (.inl (hp.taken ht))
    · intro before after x hx
      obtain ⟨frames, vars', hr⟩ := hp.rejected hx
      exact ⟨frames, vars', fun ht hc => bind_eq_error.mpr (.inl (hr ht hc))⟩
  | ok a =>
    obtain ⟨⟨ds, o, vars₂, hds⟩, hq⟩ := hg a vars₁
    refine ⟨⟨cs ++ ds, o, vars₂, List.forall_mem_append.mpr ⟨hcs, hds⟩⟩, ?_, ?_⟩
    · intro σ T s t ht
      rw [Target.replay_append, bind_eq_ok] at ht
      obtain ⟨_, u, hu, ht⟩ := ht
      exact (bind_of_ok (hp.taken hu)).trans (hq.taken ht)
    · intro before after x hx
      -- the command is one of the first step, or one of the second after all of the first
      obtain ⟨rest, hfirst⟩ | ⟨mid, rfl, hsecond⟩ := append_eq_append_cons hx
      · obtain ⟨frames, vars', hr⟩ := hp.rejected hfirst
        exact ⟨frames, vars', fun ht hc => bind_eq_error.mpr (.inl (hr ht hc))⟩
      · obtain ⟨frames, vars', hr⟩ := hq.rejected hsecond
        refine ⟨frames, vars', ?_⟩
        intro σ T s t u c ht hc
        rw [Target.replay_append, bind_eq_ok] at ht
        obtain ⟨_, v, hv, ht⟩ := ht
        exact bind_eq_error.mpr (.inr ⟨a, ⟨vars₁, v⟩, hp.taken hv, hr ht hc⟩)

theorem inside {act : ∀ σ : Type, Target σ → Exec σ α} (h : Scripted act) (phase : Label)
    (pos : Position) : Scripted fun σ T => Exec.inside phase pos (act σ T) := by
  intro vars
  obtain ⟨⟨cs, o, vars₁, hcs⟩, hp⟩ := h vars
  refine ⟨⟨cs, o.mapError (·.within ⟨phase, pos⟩), vars₁, hcs⟩, ?_, ?_⟩
  · intro σ T s t ht
    simp only [Exec.inside, hp.taken ht]
    cases o <;> rfl
  · intro before after x hx
    obtain ⟨frames, vars', hr⟩ := hp.rejected hx
    refine ⟨⟨phase, pos⟩ :: frames, vars', fun ht hc => ?_⟩
    simp only [Exec.inside, hr ht hc]
    rfl

theorem stride (step : Option Expr) : Scripted fun _ T => Exec.stride T step := by
  cases step with
  | none => exact .pure none
  | some e =>
    simp only [Exec.stride, map_eq_pure_bind]
    exact (eval e).bind fun v => .pure (some v)

theorem bounds (pass : Pass) (start stop : Expr) (step : Option Expr) (inclusive : Bool) :
    Scripted fun _ T => Exec.bounds pass T start stop step inclusive := by
  unfold Exec.bounds
  apply (eval start).bind
  intro first
  apply (eval stop).bind
  intro last
  apply (stride step).bind
  intro stride
  apply (ofExcept (Range.check first last stride)).bind
  intro _
  exact ofExcept _

theorem sweep {body : Float → ∀ σ : Type, Target σ → Exec σ Unit} (h : ∀ v, Scripted (body v))
    (fuel : Nat) (r : Range) : Scripted fun σ T => Exec.sweep (fun v => body v σ T) fuel r := by
  induction fuel generalizing r with
  | zero =>
    unfold Exec.sweep
    split
    · exact fail _
    · exact pure ()
  | succ fuel ih =>
    cases hr : r.next? with
    | none =>
      simp only [Exec.sweep, hr]
      exact pure ()
    | some next =>
      simp only [Exec.sweep, hr]
      exact (h next.1).bind fun _ => ih next.2

end Scripted

theorem Stmt.scripted_execAll_of {pass : Pass} {fuel : Nat} {ss : List Stmt}
    (h : ∀ s ∈ ss, Scripted fun _ T => s.exec pass fuel T) :
    Scripted fun _ T => Stmt.execAll pass fuel T ss := by
  induction ss with
  | nil => exact .pure ()
  | cons s ss ih =>
    simp only [execAll]
    exact (h s (.head _)).bind fun _ => ih fun s hs => h s (.tail _ hs)

theorem Stmt.scripted_exec (pass : Pass) (fuel : Nat) (s : Stmt) :
    Scripted fun _ T => s.exec pass fuel T := by
  induction s with
  | assign pos name e =>
    simp only [exec]
    apply Scripted.inside
    exact (Scripted.eval e).bind fun value => .assign name value
  | call pos e =>
    simp only [exec]
    apply Scripted.inside
    exact (Scripted.eval e).bind fun _ => .pure ()
  | loop pos name start stop step inclusive body ih =>
    simp only [exec_loop]
    apply Scripted.inside
    apply (Scripted.bounds pass start stop step inclusive).bind
    intro r
    apply Scripted.sweep
    intro v
    exact (Scripted.assign name v).bind fun _ => scripted_execAll_of ih
  | invalid pos message phase => exact (Scripted.fail _).inside phase pos
  | misfit what => exact .fail _

/-- A program has a script. -/
theorem Stmt.scripted_execAll (pass : Pass) (fuel : Nat) (ss : List Stmt) :
    Scripted fun _ T => Stmt.execAll pass fuel T ss :=
  scripted_execAll_of fun s _ => scripted_exec pass fuel s

/-! ## More rounds -/

namespace Exec

variable {σ α β : Type}

/-- One step does all that another does, unless that runs out of rounds. -/
def Extends (y x : Exec σ α) : Prop :=
  ∀ m, (∃ f n, x m = .error f n ∧ f.cause = .outOfFuel) ∨ y m = x m

theorem Extends.refl (x : Exec σ α) : x.Extends x := fun _ => .inr rfl

theorem Extends.bind {x y : Exec σ α} {g h : α → Exec σ β} (hx : y.Extends x)
    (hg : ∀ a, (h a).Extends (g a)) : (y >>= h).Extends (x >>= g) := by
  intro m
  obtain ⟨f, n, hm, hf⟩ | hm := hx m
  · exact .inl ⟨f, n, bind_eq_error.mpr (.inl hm), hf⟩
  · cases hr : x m with
    | error f n =>
      rw [hr] at hm
      rw [bind_eq_error.mpr (.inl hm), bind_eq_error.mpr (.inl hr)]
      exact .inr rfl
    | ok a n =>
      rw [hr] at hm
      rw [bind_of_ok hm, bind_of_ok hr]
      exact hg a n

theorem Extends.inside {x y : Exec σ α} (h : y.Extends x) (phase : Label) (pos : Position) :
    (inside phase pos y).Extends (inside phase pos x) := by
  intro m
  obtain ⟨f, n, hm, hf⟩ | hm := h m
  · exact .inl ⟨_, n, inside_eq_error.mpr ⟨f, hm, rfl⟩, by rw [Failure.within_cause, hf]⟩
  · exact .inr (by simp only [Exec.inside, hm])

theorem Extends.sweep {body body' : Float → Exec σ Unit} (h : ∀ v, (body' v).Extends (body v))
    {fuel fuel' : Nat} (hle : fuel ≤ fuel') (r : Range) :
    (sweep body' fuel' r).Extends (sweep body fuel r) := by
  induction fuel generalizing fuel' r with
  | zero =>
    intro m
    cases hr : r.next? with
    | none => exact .inr (by rw [sweep_done hr, sweep_done hr])
    | some next => exact .inl ⟨_, m, sweep_exhausted hr, rfl⟩
  | succ fuel ih =>
    obtain ⟨fuel', rfl⟩ : ∃ n, fuel' = n + 1 := Nat.exists_eq_succ_of_ne_zero (by omega)
    cases hr : r.next? with
    | none => exact fun m => .inr (by rw [sweep_done hr, sweep_done hr])
    | some next =>
      rw [sweep_next hr, sweep_next hr]
      exact (h next.1).bind fun _ => ih (Nat.le_of_succ_le_succ hle) next.2

end Exec

section Rounds

variable {σ : Type} (pass : Pass) {fuel fuel' : Nat} (target : Target σ)

theorem Stmt.execAll_extends_of {ss : List Stmt}
    (h : ∀ s ∈ ss, (s.exec pass fuel' target).Extends (s.exec pass fuel target)) :
    (Stmt.execAll pass fuel' target ss).Extends (Stmt.execAll pass fuel target ss) := by
  induction ss with
  | nil => exact .refl _
  | cons s ss ih =>
    simp only [execAll]
    exact (h s (.head _)).bind fun _ => ih fun s hs => h s (.tail _ hs)

theorem Stmt.exec_extends (hle : fuel ≤ fuel') (s : Stmt) :
    (s.exec pass fuel' target).Extends (s.exec pass fuel target) := by
  induction s with
  | assign | call | invalid | misfit =>
    simp only [exec]
    exact .refl _
  | loop pos name start stop step inclusive body ih =>
    rw [exec_loop, exec_loop]
    apply Exec.Extends.inside
    apply (Exec.Extends.refl _).bind
    intro r
    apply Exec.Extends.sweep _ hle
    intro v
    exact (Exec.Extends.refl _).bind fun _ => execAll_extends_of pass target ih

/-- A program that comes to its end does so in the same way if its loops may run for longer. -/
theorem Stmt.execAll_extends (hle : fuel ≤ fuel') (ss : List Stmt) :
    (Stmt.execAll pass fuel' target ss).Extends (Stmt.execAll pass fuel target ss) :=
  execAll_extends_of pass target fun s _ => exec_extends pass target hle s

theorem execute_extends (hle : fuel ≤ fuel') (program : List Stmt) :
    (execute fuel' target program).Extends (execute fuel target program) :=
  (Stmt.execAll_extends .real target hle program).bind fun _ => .refl _

end Rounds

end PolarPlot
