import PolarPlot.Proofs.Execution
import PolarPlot.Proofs.Induction

/-!
# What a rehearsal rules out

A rehearsal runs every loop body once. That is enough to see every call and every target of an
assignment, and enough to see every variable that is read before it is bound, unless a loop of the
real run has no round at all.
-/

namespace PolarPlot

/-- Errors that do not depend on the values at hand: a call that cannot be, or an assignment to
something that is no variable. -/
def Cause.isStatic : Cause → Bool
  | .noSuchFunction _ | .wrongArity _ _ _ | .illegalTarget _ => true
  | _ => false

def Cause.isUnbound : Cause → Bool
  | .undefinedVariable _ => true
  | _ => false

/-- An error that a rehearsal may miss: it is not static, and it is an unbound variable only if
there is an excuse for that. -/
def Cause.Dynamic (c : Cause) (excuse : Prop) : Prop := ¬ c.isStatic ∧ (c.isUnbound → excuse)

theorem Cause.Dynamic.of_neither {c : Cause} {excuse : Prop} (hs : c.isStatic = false)
    (hu : c.isUnbound = false) : c.Dynamic excuse := by
  simp [Dynamic, hs, hu]

theorem Cause.Dynamic.imp {c : Cause} {p q : Prop} (h : c.Dynamic p) (hpq : p → q) : c.Dynamic q :=
  ⟨h.1, fun hu => hpq (h.2 hu)⟩

/-- A target that never blames the program: a command may fail, but not with an error that only
statements and expressions have. -/
def Target.Neutral {σ : Type} (target : Target σ) : Prop :=
  ∀ command s c t, target.accept command s = .error c t → ¬ c.isStatic ∧ ¬ c.isUnbound

/-! ## Expressions -/

mutual

/-- An expression that can be evaluated as far as names go: it reads known variables only, and every
call is of a function with as many arguments as it takes. -/
def Expr.Resolved (known : Label → Prop) : Expr → Prop
  | .var _ name => known name
  | .const _ _ => True
  | .binary _ _ left right => left.Resolved known ∧ right.Resolved known
  | .call _ name args =>
    (∃ f, Function.find name = .ok f ∧ args.length = f.arity) ∧ Expr.AllResolved known args
  | .misfit _ => False

def Expr.AllResolved (known : Label → Prop) : List Expr → Prop
  | [] => True
  | e :: es => e.Resolved known ∧ Expr.AllResolved known es

end

section Expressions

variable {σ : Type} {target : Target σ} {vars : Bindings}

theorem Function.dispatch_ok {name : Label} {args : List Float} {s t : σ} {v : Float}
    (h : Function.dispatch target name args s = .ok v t) :
    ∃ f, Function.find name = .ok f ∧ args.length = f.arity := by
  unfold dispatch at h
  cases hf : find name with
  | error c => simp [hf] at h
  | ok f =>
    by_cases hn : args.length = f.arity
    · exact ⟨f, rfl, hn⟩
    · simp [hf, apply, hn] at h

theorem Function.calculated_error {f : Function} {value : Number.Checked} {s t : σ} {c : Cause}
    (h : f.calculated value s = .error c t) : ∃ reason, c = .math f.name reason := by
  cases value with
  | ok x => simp [calculated] at h
  | error e =>
    simp only [calculated, throw_apply, EStateM.Result.error.injEq] at h
    exact ⟨e.reason, h.1.symm⟩

/-- A function that gets as many arguments as it takes fails by calculation or by its target. -/
theorem Function.apply_error {f : Function} {args : List Float} {s t : σ} {c : Cause}
    (hn : args.length = f.arity) (h : f.apply target args s = .error c t) :
    (∃ operation reason, c = .math operation reason) ∨
      ∃ command s' t', target.accept command s' = .error c t' := by
  unfold apply at h
  simp only [hn, ne_eq, not_true_eq_false, if_false] at h
  split at h
  · rw [bind_eq_error] at h
    obtain h | ⟨_, _, _, h⟩ := h
    · exact .inr ⟨_, _, _, h⟩
    · simp at h
  · rw [bind_eq_error] at h
    obtain h | ⟨_, _, _, h⟩ := h
    · exact .inr ⟨_, _, _, h⟩
    · simp at h
  · obtain ⟨reason, rfl⟩ := calculated_error h
    exact .inl ⟨_, _, rfl⟩
  · simp at h
  · simp at h
  · obtain ⟨reason, rfl⟩ := calculated_error h
    exact .inl ⟨_, _, rfl⟩
  · simp at h

theorem Expr.evalAll_resolved {es : List Expr}
    (ih : ∀ e ∈ es, ∀ {s t v}, e.eval target vars s = .ok v t → e.Resolved vars.Binds)
    {s t : σ} {vs : List Float} (h : Expr.evalAll target vars es s = .ok vs t) :
    Expr.AllResolved vars.Binds es ∧ vs.length = es.length := by
  induction es generalizing s vs with
  | nil =>
    simp only [evalAll, pure_apply, EStateM.Result.ok.injEq] at h
    simp [AllResolved, ← h.1]
  | cons e es ihs =>
    simp only [evalAll, bind_eq_ok, pure_apply, EStateM.Result.ok.injEq] at h
    obtain ⟨v, s₁, he, ws, s₂, hes, rfl, rfl⟩ := h
    obtain ⟨hall, hlen⟩ := ihs (fun e he => ih e (.tail _ he)) hes
    exact ⟨⟨ih e (.head _) he, hall⟩, by simp [hlen]⟩

/-- What can be evaluated is resolved. -/
theorem Expr.resolved_of_eval {e : Expr} {s t : σ} {v : Float}
    (h : e.eval target vars s = .ok v t) : e.Resolved vars.Binds := by
  induction e generalizing s t v with
  | var pos name =>
    cases hv : vars.get? name with
    | none => simp [eval, Bindings.find, hv, Action.ofExcept] at h
    | some value => simp [Resolved, Bindings.Binds, hv]
  | const pos value => trivial
  | binary pos op left right ihl ihr =>
    simp only [eval, bind_eq_ok] at h
    obtain ⟨x, s₁, hl, y, s₂, hr, _⟩ := h
    exact ⟨ihl hl, ihr hr⟩
  | call pos name args ih =>
    simp only [eval, bind_eq_ok] at h
    obtain ⟨vs, s₁, hargs, hcall⟩ := h
    obtain ⟨hall, hlen⟩ := evalAll_resolved (fun e he _ _ _ h => ih e he h) hargs
    exact ⟨hlen ▸ Function.dispatch_ok hcall, hall⟩
  | misfit what => simp [eval] at h

theorem Expr.evalAll_dynamic {known : Label → Prop} {es : List Expr}
    (ih : ∀ e ∈ es, e.Resolved known → ∀ {s t c}, e.eval target vars s = .error c t →
      c.Dynamic (∃ name, known name ∧ ¬ vars.Binds name))
    (hr : Expr.AllResolved known es) {s t : σ} {c : Cause}
    (h : Expr.evalAll target vars es s = .error c t) :
    c.Dynamic (∃ name, known name ∧ ¬ vars.Binds name) := by
  induction es generalizing s with
  | nil => simp [evalAll] at h
  | cons e es ihs =>
    simp only [evalAll, bind_eq_error] at h
    obtain he | ⟨v, s₁, _, hes | ⟨_, _, _, h⟩⟩ := h
    · exact ih e (.head _) hr.1 he
    · exact ihs (fun e he => ih e (.tail _ he)) hr.2 hes
    · simp at h

theorem Expr.evalAll_length {es : List Expr} {s t : σ} {vs : List Float}
    (h : Expr.evalAll target vars es s = .ok vs t) : vs.length = es.length :=
  (evalAll_resolved (fun _ _ _ _ _ h => resolved_of_eval h) h).2

/-- What is resolved fails by its values or by its target, or reads a variable that is known but has
no value here. -/
theorem Expr.dynamic_of_eval (ht : target.Neutral) {known : Label → Prop} {e : Expr} {s t : σ}
    {c : Cause} (hr : e.Resolved known) (h : e.eval target vars s = .error c t) :
    c.Dynamic (∃ name, known name ∧ ¬ vars.Binds name) := by
  induction e generalizing s t c with
  | var pos name =>
    cases hv : vars.get? name with
    | none =>
      simp only [eval, Bindings.find, hv, Action.ofExcept, throw_apply,
        EStateM.Result.error.injEq] at h
      refine ⟨by simp [← h.1, Cause.isStatic], fun _ => ⟨name, hr, ?_⟩⟩
      simp [Bindings.Binds, hv]
    | some value => simp [eval, Bindings.find, hv, Action.ofExcept] at h
  | const pos value => simp [eval] at h
  | binary pos op left right ihl ihr =>
    simp only [eval, bind_eq_error] at h
    obtain hl | ⟨x, s₁, _, hr' | ⟨y, s₂, _, h⟩⟩ := h
    · exact ihl hr.1 hl
    · exact ihr hr.2 hr'
    · split at h
      · simp only [throw_apply, EStateM.Result.error.injEq] at h
        rw [← h.1, Cause.divisionByZero]
        split <;> exact .of_neither rfl rfl
      · simp at h
  | call pos name args ih =>
    simp only [eval, bind_eq_error] at h
    obtain ⟨⟨f, hf, hlen⟩, hargs⟩ := hr
    obtain h | ⟨vs, s₁, hvs, h⟩ := h
    · exact evalAll_dynamic (fun e he hr _ _ _ h => ih e he hr h) hargs h
    · simp only [Function.dispatch, hf] at h
      have hlen' : vs.length = f.arity := (evalAll_length hvs).trans hlen
      obtain ⟨operation, reason, rfl⟩ | ⟨command, s', t', h⟩ := Function.apply_error hlen' h
      · exact .of_neither rfl rfl
      · obtain ⟨hs, hu⟩ := ht command s' c t' h
        exact ⟨hs, fun h => absurd h hu⟩
  | misfit what => exact hr.elim

end Expressions

/-! ## Statements

A real run is compared with a rehearsal of the same statements. As long as no loop was skipped,
every variable that the rehearsal has bound is bound in the real run too; after a skipped loop
nothing is claimed of the variables any more, but calls and targets are still known to be good. -/

/-- The end of a real run that goes along with a rehearsal which has bound `known`. -/
structure Follows {σ : Type} (result : EStateM.Result Failure (Machine σ) Unit) (skipped : Prop)
    (known : Bindings) : Prop where
  ok : ∀ {m}, result = .ok () m → skipped ∨ m.vars.Covers known
  error : ∀ {f m}, result = .error f m → f.cause.Dynamic skipped

section Statements

variable {σ : Type} {fuel : Nat} {target : Target σ} {skipped : Prop} {known known' : Bindings}

theorem Follows.success {m : Machine σ} (h : skipped ∨ m.vars.Covers known) :
    Follows (.ok () m) skipped known where
  ok h' := by
    cases h'
    exact h
  error h' := by cases h'

theorem Follows.failure {f : Failure} {m : Machine σ} (h : f.cause.Dynamic skipped) :
    Follows (.error f m) skipped known where
  ok h' := by cases h'
  error h' := by
    cases h'
    exact h

theorem Follows.bind {α : Type} {x : Exec σ α} {g : α → Exec σ Unit} {m : Machine σ}
    (hx : ∀ {f n}, x m = .error f n → f.cause.Dynamic skipped)
    (hg : ∀ {a n}, x m = .ok a n → Follows (g a n) skipped known) :
    Follows ((x >>= g) m) skipped known where
  ok h := by
    obtain ⟨a, n, hxa, h⟩ := bind_eq_ok.mp h
    exact (hg hxa).ok h
  error h := by
    obtain h | ⟨a, n, hxa, h⟩ := bind_eq_error.mp h
    · exact hx h
    · exact (hg hxa).error h

theorem Follows.inside {phase : Label} {pos : Position} {act : Exec σ Unit} {m : Machine σ}
    (h : Follows (act m) skipped known) : Follows (Exec.inside phase pos act m) skipped known where
  ok ho := h.ok (Exec.inside_eq_ok.mp ho)
  error he := by
    obtain ⟨g, hg, rfl⟩ := Exec.inside_eq_error.mp he
    simpa using h.error hg

theorem Exec.resolved_of_eval {e : Expr} {v v' : Machine σ} {x : Float}
    (h : Exec.eval target e v = .ok x v') : e.Resolved v.vars.Binds := by
  rw [eval_apply, onTarget_eq_ok] at h
  obtain ⟨s, h, _⟩ := h
  exact Expr.resolved_of_eval h

/-- A resolved expression fails only as a rehearsal may miss. -/
theorem Exec.dynamic_of_eval (ht : target.Neutral) {e : Expr} (hr : e.Resolved known.Binds)
    {m n : Machine σ} {f : Failure} (hm : skipped ∨ m.vars.Covers known)
    (h : Exec.eval target e m = .error f n) : f.cause.Dynamic skipped := by
  rw [eval_apply, onTarget_eq_error] at h
  obtain ⟨c, s, h, rfl, rfl⟩ := h
  refine (Expr.dynamic_of_eval ht hr h).imp ?_
  rintro ⟨name, hk, hn⟩
  exact hm.resolve_right fun hc => hn (hc name hk)

theorem Range.dynamic_of_check {first last : Float} {step : Option Float} {c : Cause}
    (h : Range.check first last step = .error c) : c.Dynamic skipped := by
  unfold check at h
  split at h
  · cases h
  · split at h
    · cases h
      exact .of_neither rfl rfl
    · split at h
      · cases h
        exact .of_neither rfl rfl
      · split at h
        · cases h
          exact .of_neither rfl rfl
        · cases h

theorem Exec.resolved_of_stride {step : Option Expr} {v v' : Machine σ} {x : Option Float}
    (h : Exec.stride target step v = .ok x v') : ∀ e ∈ step, e.Resolved v.vars.Binds := by
  rintro e rfl
  simp only [stride, map_eq_pure_bind, bind_eq_ok] at h
  obtain ⟨x, m', he, _⟩ := h
  exact resolved_of_eval he

theorem Exec.dynamic_of_stride (ht : target.Neutral) {step : Option Expr}
    (hr : ∀ e ∈ step, e.Resolved known.Binds) {m n : Machine σ} {f : Failure}
    (hm : skipped ∨ m.vars.Covers known) (h : Exec.stride target step m = .error f n) :
    f.cause.Dynamic skipped := by
  cases step with
  | none => cases h
  | some e =>
    simp only [stride, map_eq_pure_bind, bind_eq_error] at h
    obtain h | ⟨_, _, _, h⟩ := h
    · exact dynamic_of_eval ht (hr e rfl) hm h
    · cases h

/-- What a rehearsal has seen of a loop when it comes to its only round. -/
theorem Exec.resolved_of_bounds {start stop : Expr} {step : Option Expr} {inclusive : Bool}
    {r : Range} {v v' : Machine σ}
    (h : Exec.bounds .rehearsal target start stop step inclusive v = .ok r v') :
    (start.Resolved v.vars.Binds ∧ stop.Resolved v.vars.Binds ∧
      ∀ e ∈ step, e.Resolved v.vars.Binds) ∧ ∃ first, r = .last first := by
  simp only [bounds, bind_eq_ok] at h
  obtain ⟨first, v₁, h₁, last, v₂, h₂, x, v₃, h₃, _, v₄, h₄, h₅⟩ := h
  have e₁ := vars_of_eval h₁
  have e₂ := vars_of_eval h₂
  refine ⟨⟨resolved_of_eval h₁, e₁ ▸ resolved_of_eval h₂, e₁ ▸ e₂ ▸ resolved_of_stride h₃⟩,
    first, ?_⟩
  have hr := (ofExcept_eq_ok.mp h₅).1
  cases hr
  rfl

theorem Exec.dynamic_of_bounds (ht : target.Neutral) {start stop : Expr} {step : Option Expr}
    {inclusive : Bool} (hr : start.Resolved known.Binds ∧ stop.Resolved known.Binds ∧
      ∀ e ∈ step, e.Resolved known.Binds)
    {m n : Machine σ} {f : Failure} (hm : skipped ∨ m.vars.Covers known)
    (h : Exec.bounds .real target start stop step inclusive m = .error f n) :
    f.cause.Dynamic skipped := by
  simp only [bounds, bind_eq_error] at h
  obtain h | ⟨first, m₁, h₁, h | ⟨last, m₂, h₂, h | ⟨x, m₃, h₃, h | ⟨_, m₄, h₄, h⟩⟩⟩⟩ := h
  · exact dynamic_of_eval ht hr.1 hm h
  · rw [← vars_of_eval h₁] at hm
    exact dynamic_of_eval ht hr.2.1 hm h
  · rw [← vars_of_eval h₁, ← vars_of_eval h₂] at hm
    exact dynamic_of_stride ht hr.2.2 hm h
  · obtain ⟨c, hc, rfl, _⟩ := ofExcept_eq_error.mp h
    exact Range.dynamic_of_check hc
  · obtain ⟨c, hc, _⟩ := ofExcept_eq_error.mp h
    cases hc

/-- The rounds of a loop after its first one. Each starts with the variables of the round before. -/
theorem Exec.sweep_follows {body : Float → Exec σ Unit} {fuel : Nat} {r : Range} {m : Machine σ}
    (hm : skipped ∨ m.vars.Covers known)
    (hbody : ∀ {v n}, Rounds body fuel r m v n → (skipped ∨ n.vars.Covers known) →
      Follows (body v n) skipped known) :
    Follows (sweep body fuel r m) skipped known := by
  induction fuel generalizing r m with
  | zero =>
    cases hr : r.next? with
    | none =>
      rw [sweep_done hr]
      exact .success hm
    | some p =>
      rw [sweep_exhausted hr]
      exact .failure (.of_neither rfl rfl)
  | succ fuel ih =>
    cases hr : r.next? with
    | none =>
      rw [sweep_done hr]
      exact .success hm
    | some p =>
      rw [sweep_next hr]
      have hfirst := hbody (.first hr) hm
      refine .bind hfirst.error fun hb => ih (hfirst.ok hb) ?_
      intro v n hrounds
      exact hbody (.next hr hb hrounds)

theorem Stmt.execAll_follows {ss : List Stmt}
    (ih : ∀ s ∈ ss, ∀ {v v' : Machine Unit}, s.exec .rehearsal 1 Target.discard v = .ok () v' →
      ∀ {m : Machine σ}, (skipped ∨ m.vars.Covers v.vars) →
      (∀ {x n}, Starts .real fuel target [s] m x n → x.Idles .real target n → skipped) →
      Follows (s.exec .real fuel target m) skipped v'.vars)
    {v v' : Machine Unit} (hv : Stmt.execAll .rehearsal 1 Target.discard ss v = .ok () v')
    {m : Machine σ} (hm : skipped ∨ m.vars.Covers v.vars)
    (hidle : ∀ {x n}, Starts .real fuel target ss m x n → x.Idles .real target n → skipped) :
    Follows (Stmt.execAll .real fuel target ss m) skipped v'.vars := by
  induction ss generalizing v m with
  | nil =>
    cases hv
    exact .success hm
  | cons s ss ihs =>
    rw [execAll, bind_eq_ok] at hv
    obtain ⟨_, v₁, hs, hss⟩ := hv
    have hfirst := ih s (.head _) hs hm fun hx => hidle hx.mono
    rw [execAll]
    refine .bind hfirst.error fun hok => ?_
    exact ihs (fun s hs => ih s (.tail _ hs)) hss (hfirst.ok hok) fun hx => hidle (.later hok hx)

theorem Stmt.round_covers {pass : Pass} {fuel : Nat} {name : Label} {body : List Stmt}
    {value : Float} {m n : Machine σ}
    (h : Stmt.round pass fuel target name body value m = .ok () n) : n.vars.Covers m.vars := by
  rw [round, bind_eq_ok] at h
  obtain ⟨_, m', ha, h⟩ := h
  cases ha
  exact (execAll_covers (fun _ _ _ _ h => exec_covers h) h).trans
    (Bindings.covers_assign _ name value)

/-- The rehearsal of a loop is its bounds and one round. -/
theorem Stmt.rehearsal_loop {pos : Position} {name : Label} {start stop : Expr} {step : Option Expr}
    {inclusive : Bool} {body : List Stmt} {v v' : Machine σ}
    (h : (Stmt.loop pos name start stop step inclusive body).exec .rehearsal 1 target v =
      .ok () v') :
    ∃ first v₁, Exec.bounds .rehearsal target start stop step inclusive v = .ok (.last first) v₁ ∧
      Stmt.round .rehearsal 1 target name body first v₁ = .ok () v' := by
  rw [exec_loop, Exec.inside_eq_ok, bind_eq_ok] at h
  obtain ⟨r, v₁, hb, hs⟩ := h
  obtain ⟨_, first, rfl⟩ := Exec.resolved_of_bounds hb
  rw [Exec.sweep_next (r := .last first) rfl, bind_eq_ok] at hs
  obtain ⟨_, v₂, hround, hs⟩ := hs
  cases hs
  exact ⟨first, v₁, hb, hround⟩

/-- A real run of a statement goes along with its rehearsal, unless it comes to a loop without a
round. -/
theorem Stmt.exec_follows (ht : target.Neutral) {s : Stmt} {v v' : Machine Unit}
    (hv : s.exec .rehearsal 1 Target.discard v = .ok () v') {m : Machine σ}
    (hm : skipped ∨ m.vars.Covers v.vars)
    (hidle : ∀ {x n}, Starts .real fuel target [s] m x n → x.Idles .real target n → skipped) :
    Follows (s.exec .real fuel target m) skipped v'.vars := by
  induction s generalizing v v' m with
  | assign pos name value =>
    simp only [exec, Exec.inside_eq_ok, bind_eq_ok] at hv
    obtain ⟨x, v₁, he, ha⟩ := hv
    have hvars := Exec.vars_of_eval he
    cases ha
    refine .inside (.bind (Exec.dynamic_of_eval ht (Exec.resolved_of_eval he) hm) fun he' => ?_)
    refine .success (hm.imp id fun hc => ?_)
    simp only [hvars, Exec.vars_of_eval he']
    exact hc.assign name _ x
  | call pos e =>
    simp only [exec, Exec.inside_eq_ok, bind_eq_ok] at hv
    obtain ⟨x, v₁, he, h⟩ := hv
    cases h
    refine .inside (.bind (Exec.dynamic_of_eval ht (Exec.resolved_of_eval he) hm) fun he' => ?_)
    refine .success ?_
    rwa [Exec.vars_of_eval he, Exec.vars_of_eval he']
  | loop pos name start stop step inclusive body ih =>
    obtain ⟨first, v₁, hbounds, hround⟩ := rehearsal_loop hv
    have hresolved := (Exec.resolved_of_bounds hbounds).1
    have hvars := Exec.vars_of_bounds hbounds
    rw [exec_loop]
    refine .inside (.bind (Exec.dynamic_of_bounds ht hresolved hm) ?_)
    intro r m₁ hb
    -- one round from any machine that knows what the rehearsal knew before its own round
    have hrounds : ∀ {value n}, Exec.Rounds (round .real fuel target name body) fuel r m₁ value n →
        (skipped ∨ n.vars.Covers v₁.vars) →
        Follows (round .real fuel target name body value n) skipped v'.vars := by
      intro value n hr hn
      rw [round, bind_eq_ok] at hround
      obtain ⟨_, v₂, ha, hbody⟩ := hround
      cases ha
      refine execAll_follows (fun s hs _ _ h _ hm hi => ih s hs h hm hi) hbody
        (hn.imp id fun hc => hc.assign name value first) fun hx => hidle (.within hb hr hx)
    have hm₁ : skipped ∨ m₁.vars.Covers v₁.vars := by
      rwa [hvars, Exec.vars_of_bounds hb]
    cases hr : r.next? with
    | none =>
      have hskip : skipped := hidle .here ⟨r, m₁, hb, hr⟩
      rw [Exec.sweep_done hr]
      exact .success (.inl hskip)
    | some p =>
      cases fuel with
      | zero =>
        rw [Exec.sweep_exhausted hr]
        exact .failure (.of_neither rfl rfl)
      | succ fuel =>
        rw [Exec.sweep_next hr]
        have hfirst := hrounds (.first hr) hm₁
        refine .bind hfirst.error fun hok => Exec.sweep_follows (hfirst.ok hok) ?_
        intro value n hn hknown
        exact hrounds (.next hr hok hn) (hknown.imp id fun hc => hc.trans (round_covers hround))
  | invalid pos message phase => simp [exec, Exec.inside, Exec.fail] at hv
  | misfit what => simp [exec, Exec.fail] at hv

theorem execAll_of_validate {program : List Stmt} (h : validate program = none) :
    ∃ v, Stmt.execAll .rehearsal 1 Target.discard program (Machine.fresh ()) = .ok () v := by
  unfold validate at h
  split at h
  · exact ⟨_, by assumption⟩
  · cases h

/-- A program that was rehearsed without a failure never fails for a missing function, a wrong
number of arguments or an assignment to something that is no variable. It fails for a variable
without a value only if the run came to a loop that had no round. Closing the target is not part of
the program: there the target alone decides what it raises. -/
theorem execute_dynamic_of_validate {program : List Stmt} (hv : validate program = none)
    (ht : target.Neutral) {state : σ} {f : Failure} {m : Machine σ}
    (h : execute fuel target program (Machine.fresh state) = .error f m) :
    (f.cause.isStatic = false ∧ (f.cause.isUnbound →
      ∃ loop n, Starts .real fuel target program (Machine.fresh state) loop n ∧
        loop.Idles .real target n)) ∨
    ∃ n, Stmt.execAll .real fuel target program (Machine.fresh state) = .ok () n ∧
      target.close n.target = .error f.cause m.target := by
  obtain ⟨v, hv⟩ := execAll_of_validate hv
  rw [execute, bind_eq_error] at h
  obtain h | ⟨_, n, hn, h⟩ := h
  · have hf : Follows (Stmt.execAll .real fuel target program (Machine.fresh state))
        (∃ loop n, Starts .real fuel target program (Machine.fresh state) loop n ∧
          loop.Idles .real target n) v.vars :=
      Stmt.execAll_follows (fun s _ _ _ hs _ hm hi => Stmt.exec_follows ht hs hm hi) hv
        (.inr (Bindings.Covers.refl Bindings.empty)) fun hx hi => ⟨_, _, hx, hi⟩
    obtain ⟨hs, hu⟩ := hf.error h
    exact .inl ⟨by simpa using hs, hu⟩
  · obtain ⟨c, s, hc, rfl, rfl⟩ := Exec.onTarget_eq_error.mp h
    exact .inr ⟨n, hn, hc⟩

end Statements

theorem Target.tally_neutral : Target.tally.Neutral := by
  intro command s c t h
  cases h

/-- A variable is bound in a loop that runs from no number, and read after it. -/
def boundInIdleLoop : List Stmt :=
  [.loop .unknown "i" (.const .unknown (0 / 0)) (.const .unknown 0) none false
      [.assign .unknown "x" (.const .unknown 1)],
    .assign .unknown "y" (.var .unknown "x")]

theorem execute_boundInIdleLoop :
    validate boundInIdleLoop = none ∧ Target.tally.Neutral ∧
      ∃ f m, execute 1 Target.tally boundInIdleLoop (Machine.fresh ⟨0, false⟩) = .error f m ∧
        f.cause = .undefinedVariable "x" ∧
        ∃ loop n, Starts .real 1 Target.tally boundInIdleLoop (Machine.fresh ⟨0, false⟩) loop n ∧
          loop.Idles .real Target.tally n := by
  have hv : validate boundInIdleLoop = none := by decide
  have h : execute 1 Target.tally boundInIdleLoop (Machine.fresh ⟨0, false⟩) =
      .error ⟨[⟨"assignment error", .unknown⟩], .undefinedVariable "x"⟩
        (Machine.fresh ⟨0, false⟩) := by
    rfl
  refine ⟨hv, Target.tally_neutral, _, _, h, rfl, ?_⟩
  obtain ⟨_, hidle⟩ | ⟨n, hn, hc⟩ := execute_dynamic_of_validate hv Target.tally_neutral h
  · exact hidle rfl
  · cases hc

end PolarPlot
