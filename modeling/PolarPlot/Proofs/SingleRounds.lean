import PolarPlot.Proofs.FalseAlarms
import PolarPlot.Proofs.Steady

/-!
# Loops with one round

A rehearsal goes through every loop once, from the start of its range. Where a real run does so too
(`SingleRounds`) and its target never fails (`Target.Unfailing`), nothing tells the two apart: each
step of one ends as the same step of the other does, with the same variables or with the same
failure (`InStep`). So both come to their end, or both fail in the same statements for the same
cause (`execute_iff_validate`).
-/

namespace PolarPlot

/-- A target that takes every command and can be closed, in every state where a condition holds that
it keeps. -/
structure Target.Unfailing {σ : Type} (T : Target σ) (I : σ → Prop) : Prop where
  accept : ∀ x, Succeeds I (T.accept x)
  close : Succeeds I T.close

theorem Target.discard_unfailing : Target.discard.Unfailing fun _ => True where
  accept _ := .pure ()
  close := .pure ()

theorem Target.Unfailing.perform {σ α : Type} {T : Target σ} {I : σ → Prop} (hT : T.Unfailing I)
    (cs : List Command) (o : Except Cause α) {s : σ} (hs : I s) :
    ∃ t, T.perform cs o s = Action.ofExcept o t ∧ I t := by
  have hreplay : Succeeds I (T.replay cs) := .replay fun x _ => hT.accept x
  obtain ⟨_, t, ht, hI⟩ := hreplay s hs
  exact ⟨t, bind_of_ok ht, hI⟩

/-! ## Steps that end alike -/

/-- Two steps end alike: both succeed, with results that match and with the same variables, or both
fail with the same failure. The target of the second stays in good states. -/
inductive InStep {σ α β : Type} (I : σ → Prop) (R : α → β → Prop) :
    EStateM.Result Failure (Machine Unit) α → EStateM.Result Failure (Machine σ) β → Prop where
  | ok {a : α} {b : β} {v : Machine Unit} {m : Machine σ} :
      R a b → v.vars = m.vars → I m.target → InStep I R (.ok a v) (.ok b m)
  | error {f : Failure} {v : Machine Unit} {m : Machine σ} : InStep I R (.error f v) (.error f m)

section Steps

variable {σ α β γ δ : Type} {I : σ → Prop} {R : α → β → Prop} {S : γ → δ → Prop} {T : Target σ}
  {v : Machine Unit} {m : Machine σ}

theorem InStep.split {r : EStateM.Result Failure (Machine Unit) α}
    {r' : EStateM.Result Failure (Machine σ) β} (h : InStep I R r r') :
    (∃ a b v m, r = .ok a v ∧ r' = .ok b m ∧ R a b ∧ v.vars = m.vars ∧ I m.target) ∨
      ∃ f v m, r = .error f v ∧ r' = .error f m := by
  cases h with
  | ok hab hvars hm => exact .inl ⟨_, _, _, _, rfl, rfl, hab, hvars, hm⟩
  | error => exact .inr ⟨_, _, _, rfl, rfl⟩

theorem InStep.bind {x : Exec Unit α} {y : Exec σ β} {g : α → Exec Unit γ} {h : β → Exec σ δ}
    (hxy : InStep I R (x v) (y m))
    (hgh : ∀ {a b v' m'}, y m = .ok b m' → R a b → v'.vars = m'.vars → I m'.target →
      InStep I S (g a v') (h b m')) : InStep I S ((x >>= g) v) ((y >>= h) m) := by
  rcases hxy.split with ⟨a, b, v', m', hx, hy, hab, hvars, hm⟩ | ⟨f, v', m', hx, hy⟩
  · rw [bind_of_ok hx, bind_of_ok hy]
    exact hgh hy hab hvars hm
  · rw [bind_eq_error.mpr (.inl hx), bind_eq_error.mpr (.inl hy)]
    exact .error

theorem InStep.inside {x : Exec Unit α} {y : Exec σ β} (h : InStep I R (x v) (y m)) (phase : Label)
    (pos : Position) : InStep I R (Exec.inside phase pos x v) (Exec.inside phase pos y m) := by
  rcases h.split with ⟨a, b, v', m', hx, hy, hab, hvars, hm⟩ | ⟨f, v', m', hx, hy⟩
  · rw [Exec.inside_eq_ok.mpr hx, Exec.inside_eq_ok.mpr hy]
    exact .ok hab hvars hm
  · rw [Exec.inside_eq_error.mpr ⟨f, hx, rfl⟩, Exec.inside_eq_error.mpr ⟨f, hy, rfl⟩]
    exact .error

/-! ## Bounds -/

theorem Exec.ofExcept_inStep (x : Except Cause α) (hvars : v.vars = m.vars) (hm : I m.target) :
    InStep I Eq (ofExcept x v) (ofExcept x m) := by
  cases x with
  | ok a => exact .ok rfl hvars hm
  | error c => exact .error

theorem Exec.eval_inStep (hT : T.Unfailing I) (e : Expr) (hvars : v.vars = m.vars)
    (hm : I m.target) : InStep I Eq (eval Target.discard e v) (eval T e m) := by
  obtain ⟨cs, o, -, hperforms⟩ := Expr.performs_eval m.vars e
  have heval : ∀ {τ : Type} (U : Target τ), e.eval U m.vars = U.perform cs o := hperforms _
  obtain ⟨u, hu, -⟩ := Target.discard_unfailing.perform cs o (s := v.target) trivial
  obtain ⟨t, ht, hI⟩ := hT.perform cs o hm
  rw [eval_apply, eval_apply, hvars, heval, heval]
  unfold onTarget
  rw [hu, ht]
  cases o with
  | ok x => exact .ok rfl hvars hI
  | error c => exact .error

theorem Exec.stride_inStep (hT : T.Unfailing I) (step : Option Expr) (hvars : v.vars = m.vars)
    (hm : I m.target) : InStep I Eq (stride Target.discard step v) (stride T step m) := by
  cases step with
  | none => exact .ok rfl hvars hm
  | some e =>
    simp only [stride, map_eq_pure_bind]
    refine (eval_inStep hT e hvars hm).bind ?_
    intro x y v' m' _ hxy hvars hm
    exact .ok (congrArg some hxy) hvars hm

/-- The range of a rehearsal has the first value of the range of a run. -/
def Range.Opens (r r' : Range) : Prop :=
  ∃ first, r = .last first ∧ ∀ value rest, r'.next? = some (value, rest) → value = first

theorem Exec.bounds_inStep (hT : T.Unfailing I) (start stop : Expr) (step : Option Expr)
    (inclusive : Bool) (hvars : v.vars = m.vars) (hm : I m.target) :
    InStep I Range.Opens (bounds .rehearsal Target.discard start stop step inclusive v)
      (bounds .real T start stop step inclusive m) := by
  refine (eval_inStep hT start hvars hm).bind ?_
  intro first first' v₁ m₁ _ hfirst hvars hm
  refine (eval_inStep hT stop hvars hm).bind ?_
  intro last last' v₂ m₂ _ hlast hvars hm
  refine (stride_inStep hT step hvars hm).bind ?_
  intro stride stride' v₃ m₃ _ hstride hvars hm
  subst hfirst hlast hstride
  refine (ofExcept_inStep (Range.check first last stride) hvars hm).bind ?_
  intro _ _ v₄ m₄ _ _ hvars hm
  exact .ok ⟨first, rfl, fun value rest h => Range.next?_between h⟩ hvars hm

end Steps

/-! ## Statements -/

section Statements

variable {σ : Type} {I : σ → Prop} {T : Target σ} {fuel : Nat}

/-- Every loop that a run comes to has exactly one round, if its bounds are good. -/
def SingleRounds (fuel : Nat) (T : Target σ) (ss : List Stmt) (m : Machine σ) : Prop :=
  ∀ loop n, Starts .real fuel T ss m loop n → ¬ loop.Uneven T n

theorem singleRounds_of_loopless {ss : List Stmt} (h : ∀ s ∈ ss, s.isLoop = false) (m : Machine σ) :
    SingleRounds fuel T ss m := by
  intro loop n hn huneven
  induction hn with
  | @here s ss m =>
    cases s with
    | loop pos name start stop step inclusive body => cases h _ (.head _)
    | assign | call | invalid | misfit => exact huneven
  | later _ _ ih => exact ih (fun s hs => h s (.tail _ hs)) huneven
  | within => cases h _ (.head _)

theorem Stmt.execAll_inStep {ss : List Stmt}
    (ih : ∀ s ∈ ss, ∀ {v : Machine Unit} {m : Machine σ}, v.vars = m.vars → I m.target →
      SingleRounds fuel T [s] m →
      InStep I Eq (s.exec .rehearsal 1 Target.discard v) (s.exec .real fuel T m))
    {v : Machine Unit} {m : Machine σ} (hvars : v.vars = m.vars) (hm : I m.target)
    (hsingle : SingleRounds fuel T ss m) :
    InStep I Eq (Stmt.execAll .rehearsal 1 Target.discard ss v)
      (Stmt.execAll .real fuel T ss m) := by
  induction ss generalizing v m with
  | nil => exact .ok rfl hvars hm
  | cons s ss ihs =>
    rw [execAll, execAll]
    refine (ih s (.head _) hvars hm fun loop n hn => hsingle loop n hn.mono).bind ?_
    intro _ _ v' m' hs _ hvars hm
    exact ihs (fun s hs => ih s (.tail _ hs)) hvars hm fun loop n hn =>
      hsingle loop n (.later hs hn)

/-- A statement of a rehearsal and of a run whose loops have one round each. -/
theorem Stmt.exec_inStep (hT : T.Unfailing I) (hfuel : 0 < fuel) {s : Stmt} {v : Machine Unit}
    {m : Machine σ} (hvars : v.vars = m.vars) (hm : I m.target)
    (hsingle : SingleRounds fuel T [s] m) :
    InStep I Eq (s.exec .rehearsal 1 Target.discard v) (s.exec .real fuel T m) := by
  induction s generalizing v m with
  | assign pos name value =>
    rw [exec, exec]
    refine .inside ((Exec.eval_inStep hT value hvars hm).bind ?_) _ _
    intro x y v' m' _ hxy hvars hm
    subst hxy
    exact .ok rfl (congrArg (Bindings.assign · name x) hvars) hm
  | call pos e =>
    rw [exec, exec]
    refine .inside ((Exec.eval_inStep hT e hvars hm).bind ?_) _ _
    intro x y v' m' _ _ hvars hm
    exact .ok rfl hvars hm
  | loop pos name start stop step inclusive body ih =>
    rw [exec_loop, exec_loop]
    refine .inside ((Exec.bounds_inStep hT start stop step inclusive hvars hm).bind ?_) _ _
    intro r r' v₁ m₁ hbounds hopens hvars hm
    obtain ⟨first, rfl, hvalue⟩ := hopens
    have honce : r'.Single := by
      by_contra honce
      exact hsingle _ m .here ⟨r', m₁, hbounds, honce⟩
    obtain ⟨value, rest, hnext, hrest⟩ := honce
    have hfirst := hvalue value rest hnext
    subst hfirst
    obtain ⟨fuel, rfl⟩ := Nat.exists_eq_succ_of_ne_zero hfuel.ne'
    rw [Exec.sweep_next (r := .last value) rfl, Exec.sweep_next hnext]
    have hround : InStep I Eq (round .rehearsal 1 Target.discard name body value v₁)
        (round .real (fuel + 1) T name body value m₁) := by
      refine execAll_inStep (v := { v₁ with vars := v₁.vars.assign name value })
        (m := { m₁ with vars := m₁.vars.assign name value })
        (fun s hs _ _ hvars hm hsingle => ih s hs hvars hm hsingle) ?_ hm ?_
      · exact congrArg (Bindings.assign · name value) hvars
      · intro loop n hn
        exact hsingle loop n (.within hbounds (.first hnext) hn)
    refine hround.bind ?_
    intro _ _ v₂ m₂ _ _ hvars hm
    rw [Exec.sweep_done hrest]
    exact .ok rfl hvars hm
  | invalid pos message phase =>
    rw [exec, exec]
    exact .inside .error _ _
  | misfit what =>
    rw [exec, exec]
    exact .error

/-- A run and a rehearsal have the same outcome where every range has exactly one value, or where
there is no loop at all, and the target never fails: both come to their end, or both fail with the
same statements on the way and the same cause. -/
theorem execute_iff_validate (hT : T.Unfailing I) {state : σ} (hstate : I state) (hfuel : 0 < fuel)
    {program : List Stmt}
    (hsingle : SingleRounds fuel T program (Machine.fresh state) ∨
      ∀ s ∈ program, s.isLoop = false) :
    ((∃ m, execute fuel T program (Machine.fresh state) = .ok () m) ↔ validate program = none) ∧
    ∀ f, (∃ m, execute fuel T program (Machine.fresh state) = .error f m) ↔
      validate program = some f := by
  have hboth : InStep I Eq (Stmt.execAll .rehearsal 1 Target.discard program (Machine.fresh ()))
      (Stmt.execAll .real fuel T program (Machine.fresh state)) :=
    Stmt.execAll_inStep (fun s _ _ _ => Stmt.exec_inStep hT hfuel) rfl hstate
      (hsingle.elim id fun h => singleRounds_of_loopless h _)
  unfold execute validate
  rcases hboth.split with ⟨_, _, v, m, hv, hm, -, -, hI⟩ | ⟨f, v, m, hv, hm⟩
  · -- closing the target is the only step that a rehearsal does not have
    obtain ⟨_, t, ht, -⟩ := hT.close m.target hI
    have hclose : Exec.onTarget T.close m = .ok () { m with target := t } :=
      Exec.onTarget_eq_ok.mpr ⟨t, ht, rfl⟩
    rw [hv, bind_of_ok hm, hclose]
    simp
  · rw [hv, bind_eq_error.mpr (.inl hm)]
    simp

end Statements

theorem Target.tally_unfailing : Target.tally.Unfailing fun _ => True where
  accept _ := .modify fun _ _ => trivial
  close := .modify fun _ _ => trivial

/-- A loop over one value, whose body reads a variable that has no value. -/
def unboundInOnlyRound : List Stmt :=
  [.loop .unknown "i" (.const .unknown 1) (.const .unknown 1) none true
    [.call .unknown (.call .unknown "render" [.var .unknown "i", .var .unknown "x"])]]

theorem execute_iff_validate_unboundInOnlyRound :
    SingleRounds 1 Target.tally unboundInOnlyRound (Machine.fresh ⟨0, false⟩) ∧
    ∃ f m, execute 1 Target.tally unboundInOnlyRound (Machine.fresh ⟨0, false⟩) = .error f m ∧
      validate unboundInOnlyRound = some f ∧ f.frames.length = 2 ∧
      f.cause = .undefinedVariable "x" := by
  have hsingle : SingleRounds 1 Target.tally unboundInOnlyRound (Machine.fresh ⟨0, false⟩) := by
    intro loop n hn huneven
    cases hn with
    | here =>
      obtain ⟨r, m, hbounds, huneven⟩ := huneven
      cases hbounds
      exact huneven ⟨1, .done, rfl, rfl⟩
    | later _ hn => cases hn
    | within _ _ hn =>
      cases hn with
      | here => exact huneven
      | later _ hn => cases hn
  have hrun : execute 1 Target.tally unboundInOnlyRound (Machine.fresh ⟨0, false⟩) =
      .error ⟨[⟨"loop error", .unknown⟩, ⟨"call error", .unknown⟩], .undefinedVariable "x"⟩
        ⟨[(.word "i", 1)], ⟨0, false⟩⟩ := by
    rfl
  have hsame := execute_iff_validate Target.tally_unfailing trivial Nat.one_pos (.inl hsingle)
  exact ⟨hsingle, _, _, hrun, (hsame.2 _).mp ⟨_, hrun⟩, rfl, rfl⟩

end PolarPlot
