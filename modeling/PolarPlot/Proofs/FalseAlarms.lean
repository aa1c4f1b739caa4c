import PolarPlot.Proofs.Independence
import PolarPlot.Proofs.Splicing

/-!
# What a rehearsal refuses in vain

A rehearsal goes through each loop once, from the start of its range, so it may fail where the real
run does not. A run that comes to its end is compared here with the rehearsal of the same program.
Until the rehearsal leaves a loop that has not exactly one round (`Stmt.Uneven`), both have the same
variables; from there on the rehearsal still has a value for every variable that the run has
(`Precedes`). So it fails in vain only by a value (`Cause.Valued`), or in the body of a loop that
has no round (`validate_of_execute`).
-/

namespace PolarPlot

open Grammar

/-- An expression that holds a variable whose name is no text. -/
inductive Expr.Nameless : Expr → Prop where
  | var {pos : Position} {name : Label} : name.isWord = false → Nameless (.var pos name)
  | left {pos : Position} {op : Operator} {left right : Expr} :
      Nameless left → Nameless (.binary pos op left right)
  | right {pos : Position} {op : Operator} {left right : Expr} :
      Nameless right → Nameless (.binary pos op left right)
  | arg {pos : Position} {name : Label} {args : List Expr} {e : Expr} :
      e ∈ args → Nameless e → Nameless (.call pos name args)

/-- Errors in expressions that depend on the values at hand: a calculation without a result, or a
step that does not fit its bounds. The error of a quotient by zero shows the quotient; if this holds
a variable whose name is no text, it cannot be shown, and that is the error. -/
inductive Cause.Valued (es : List Expr) : Cause → Prop where
  | math (operation reason : String) : Valued es (.math operation reason)
  | range (problem : RangeProblem) (start stop : Float) :
      Valued es (.invalidRange problem start stop)
  | unshown {e : Expr} : e ∈ es → e.Nameless → Valued es .notText

theorem Cause.Valued.mono {es fs : List Expr} {c : Cause} (h : c.Valued es) (hes : es ⊆ fs) :
    c.Valued fs := by
  cases h with
  | math => exact .math _ _
  | range => exact .range _ _ _
  | unshown hmem he => exact .unshown (hes hmem) he

/-- The errors of its parts are those of an expression. -/
theorem Cause.Valued.whole {es : List Expr} {f : Expr} {c : Cause} (h : c.Valued es)
    (hf : ∀ e ∈ es, e.Nameless → f.Nameless) : c.Valued [f] := by
  cases h with
  | math => exact .math _ _
  | range => exact .range _ _ _
  | unshown hmem he => exact .unshown (.head _) (hf _ hmem he)

/-- The expressions of a statement, without those of its body. -/
def Stmt.operands : Stmt → List Expr
  | .assign _ _ value => [value]
  | .call _ e => [e]
  | .loop _ _ start stop step _ _ => start :: stop :: step.toList
  | .invalid _ _ _ | .misfit _ => []

/-! ## Expressions -/

section Expressions

variable {σ : Type} {target : Target σ} {vars : Bindings}

/-- The value of an expression does not depend on the target that takes its commands. -/
theorem Expr.eval_discard {e : Expr} {s t : σ} {x : Float} (h : e.eval target vars s = .ok x t)
    (u : Unit) : e.eval Target.discard vars u = .ok x u := by
  obtain ⟨cs, o, -, hperforms⟩ := Expr.performs_eval vars e
  have heval : ∀ {τ : Type} (T : Target τ), e.eval T vars = T.perform cs o := hperforms _
  have htaken : ∀ ds : List Command, Target.discard.replay ds u = .ok () u := by
    intro ds
    induction ds with
    | nil => rfl
    | cons d ds ih => exact ih
  rw [heval, Target.perform, bind_eq_ok] at h
  obtain ⟨_, s', _, ho⟩ := h
  rw [heval, Target.perform, bind_of_ok (htaken cs)]
  cases o with
  | ok y =>
    cases ho
    rfl
  | error c => cases ho

theorem Expr.allResolved_iff {known : Label → Prop} {es : List Expr} :
    Expr.AllResolved known es ↔ ∀ e ∈ es, e.Resolved known := by
  induction es with
  | nil => simp [AllResolved]
  | cons e es ih => rw [AllResolved, ih, List.forall_mem_cons]

/-- What is resolved has a text, unless one of its variables has a name that is none. -/
theorem Expr.nameless_of_resolved {known : Label → Prop} {e : Expr} (hr : e.Resolved known)
    (h : ¬ e.hasText = true) : e.Nameless := by
  induction e with
  | var pos name => exact .var (Bool.eq_false_iff.mpr h)
  | const pos value => exact absurd rfl h
  | binary pos op left right ihl ihr =>
    rw [hasText, Bool.and_eq_true, not_and_or] at h
    obtain hl | hr' := h
    · exact .left (ihl hr.1 hl)
    · exact .right (ihr hr.2 hr')
  | call pos name args ih =>
    rw [hasText, haveTexts_eq, List.all_eq_true] at h
    push Not at h
    obtain ⟨e, he, htext⟩ := h
    exact .arg he (ih e he (allResolved_iff.mp hr.2 e he) htext)
  | misfit what => exact hr.elim

theorem Expr.evalAll_valued {known : Label → Prop} {es : List Expr}
    (ih : ∀ e ∈ es, e.Resolved known → ∀ {s t c}, e.eval Target.discard vars s = .error c t →
      c.Valued [e])
    (hr : Expr.AllResolved known es) {s t : Unit} {c : Cause}
    (h : Expr.evalAll Target.discard vars es s = .error c t) : c.Valued es := by
  induction es generalizing s with
  | nil => cases h
  | cons e es ihs =>
    simp only [evalAll, bind_eq_error] at h
    obtain he | ⟨v, s₁, _, hes | ⟨_, _, _, h⟩⟩ := h
    · exact (ih e (.head _) hr.1 he).mono (by simp)
    · exact (ihs (fun e he => ih e (.tail _ he)) hr.2 hes).mono (List.subset_cons_self _ _)
    · cases h

/-- What is resolved and has a value for each of its variables fails by these values only. -/
theorem Expr.valued_of_eval {known : Label → Prop} (hknown : ∀ name, known name → vars.Binds name)
    {e : Expr} (hr : e.Resolved known) {s t : Unit} {c : Cause}
    (h : e.eval Target.discard vars s = .error c t) : c.Valued [e] := by
  induction e generalizing s t c with
  | var pos name =>
    obtain ⟨value, hvalue⟩ := Option.isSome_iff_exists.mp (hknown name hr)
    simp [eval, Bindings.find, hvalue, Action.ofExcept] at h
  | const pos value => cases h
  | binary pos op left right ihl ihr =>
    simp only [eval, bind_eq_error] at h
    obtain hl | ⟨x, s₁, _, hr' | ⟨y, s₂, _, h⟩⟩ := h
    · exact (ihl hr.1 hl).whole (List.forall_mem_singleton.mpr .left)
    · exact (ihr hr.2 hr').whole (List.forall_mem_singleton.mpr .right)
    · split at h
      · cases h
        rw [Cause.divisionByZero]
        split
        · exact .math _ _
        · next htext => exact .unshown (.head _) (nameless_of_resolved hr htext)
      · cases h
  | call pos name args ih =>
    simp only [eval, bind_eq_error] at h
    obtain ⟨⟨f, hf, hlen⟩, hargs⟩ := hr
    obtain h | ⟨vs, s₁, hvs, h⟩ := h
    · exact (evalAll_valued (fun e he hr _ _ _ h => ih e he hr h) hargs h).whole fun _ => .arg
    · simp only [Function.dispatch, hf] at h
      have hlen' : vs.length = f.arity := (evalAll_length hvs).trans hlen
      obtain ⟨operation, reason, rfl⟩ | ⟨command, s', t', h⟩ := Function.apply_error hlen' h
      · exact .math _ _
      · cases h
  | misfit what => exact hr.elim

end Expressions

/-! ## Variables -/

/-- Variables stay known when one of them gets a value that is known to have one. -/
theorem Bindings.Covers.assign_of {known vars other : Bindings} {name : Label} {x : Float}
    (h : known.Covers vars) (hname : known.Covers (other.assign name x)) (y : Float) :
    known.Covers (vars.assign name y) := by
  intro z hz
  have hbound := hname z
  have hbefore := h z
  unfold Binds at hz hbound hbefore ⊢
  rw [get?_assign] at hz hbound
  by_cases hz' : z.key = name.key ∧ name.key ≠ sink
  · rw [if_pos hz'] at hbound
    exact hbound rfl
  · rw [if_neg hz'] at hz
    exact hbefore hz

/-- The variables of a rehearsal before those of a run: it knows all of them, and with the same
values unless the two have parted. -/
structure Precedes (parted : Prop) (known vars : Bindings) : Prop where
  covers : known.Covers vars
  same : parted ∨ known = vars

theorem Precedes.refl {parted : Prop} (vars : Bindings) : Precedes parted vars vars :=
  ⟨.refl vars, .inr rfl⟩

theorem Precedes.assign {parted : Prop} {known vars : Bindings} (h : Precedes parted known vars)
    {x y : Float} (hxy : parted ∨ x = y) (name : Label) :
    Precedes parted (known.assign name x) (vars.assign name y) where
  covers := h.covers.assign name x y
  same := by
    obtain hp | rfl := h.same
    · exact .inl hp
    · exact hxy.imp id fun hxy => by rw [hxy]

theorem Exec.sweep_keeps {σ : Type} {body : Float → Exec σ Unit} {P : Machine σ → Prop}
    (hbody : ∀ {v m n}, body v m = .ok () n → P m → P n) {fuel : Nat} {r : Range} {m n : Machine σ}
    (h : sweep body fuel r m = .ok () n) (hm : P m) : P n := by
  induction fuel generalizing r m with
  | zero =>
    cases hr : r.next? with
    | none =>
      rw [sweep_done hr] at h
      cases h
      exact hm
    | some p => simp [sweep_exhausted hr] at h
  | succ fuel ih =>
    cases hr : r.next? with
    | none =>
      rw [sweep_done hr] at h
      cases h
      exact hm
    | some p =>
      rw [sweep_next hr, bind_eq_ok] at h
      obtain ⟨_, m', hb, hs⟩ := h
      exact ih hs (hbody hb hm)

section Covered

variable {σ : Type} {fuel : Nat} {target : Target σ} {known : Bindings}

theorem Stmt.execAll_covered {ss : List Stmt}
    (ih : ∀ s ∈ ss, ∀ {v v' : Machine Unit} {m m' : Machine σ},
      s.exec .rehearsal 1 Target.discard v = .ok () v' → s.exec .real fuel target m = .ok () m' →
      known.Covers v'.vars → known.Covers m.vars → known.Covers m'.vars)
    {v v' : Machine Unit} {m m' : Machine σ}
    (hv : Stmt.execAll .rehearsal 1 Target.discard ss v = .ok () v')
    (hm : Stmt.execAll .real fuel target ss m = .ok () m') (hknown : known.Covers v'.vars)
    (hcovers : known.Covers m.vars) : known.Covers m'.vars := by
  induction ss generalizing v m with
  | nil =>
    cases hm
    exact hcovers
  | cons s ss ihs =>
    rw [execAll, bind_eq_ok] at hv hm
    obtain ⟨_, v₁, hv₁, hv⟩ := hv
    obtain ⟨_, m₁, hm₁, hm⟩ := hm
    have hlater : v'.vars.Covers v₁.vars := execAll_covers (fun _ _ _ _ h => exec_covers h) hv
    exact ihs (fun s hs => ih s (.tail _ hs)) hv hm
      (ih s (.head _) hv₁ hm₁ (hknown.trans hlater) hcovers)

/-- A run binds no more variables than a rehearsal of the same statement, however many rounds it
has. -/
theorem Stmt.exec_covered {s : Stmt} {v v' : Machine Unit} {m m' : Machine σ}
    (hv : s.exec .rehearsal 1 Target.discard v = .ok () v')
    (hm : s.exec .real fuel target m = .ok () m') (hknown : known.Covers v'.vars)
    (hcovers : known.Covers m.vars) : known.Covers m'.vars := by
  induction s generalizing v v' m m' with
  | assign pos name value =>
    simp only [exec, Exec.inside_eq_ok, bind_eq_ok] at hv hm
    obtain ⟨x, v₁, hx, hv⟩ := hv
    obtain ⟨y, m₁, hy, hm⟩ := hm
    cases hv
    cases hm
    rw [← Exec.vars_of_eval hy] at hcovers
    exact hcovers.assign_of hknown y
  | call pos e =>
    simp only [exec, Exec.inside_eq_ok, bind_eq_ok] at hm
    obtain ⟨y, m₁, hy, hm⟩ := hm
    cases hm
    rwa [Exec.vars_of_eval hy]
  | loop pos name start stop step inclusive body ih =>
    obtain ⟨first, v₁, -, hround⟩ := rehearsal_loop hv
    rw [exec_loop, Exec.inside_eq_ok, bind_eq_ok] at hm
    obtain ⟨r, m₁, hb, hm⟩ := hm
    rw [← Exec.vars_of_bounds hb] at hcovers
    refine Exec.sweep_keeps (P := fun m => known.Covers m.vars) ?_ hm hcovers
    intro value n n' hn hc
    rw [round, bind_eq_ok] at hround hn
    obtain ⟨_, v₂, hassign, hbody⟩ := hround
    obtain ⟨_, n₂, hassign', hbody'⟩ := hn
    cases hassign
    cases hassign'
    have hlater : v'.vars.Covers (v₁.vars.assign name first) :=
      execAll_covers (fun _ _ _ _ h => exec_covers h) hbody
    exact execAll_covered (fun s hs _ _ _ _ hv hm hk hc => ih s hs hv hm hk hc) hbody hbody' hknown
      (hc.assign_of (hknown.trans hlater) value)
  | invalid pos message phase => simp [exec, Exec.inside, Exec.fail] at hv
  | misfit what => simp [exec, Exec.fail] at hv

end Covered

/-! ## Loops -/

/-- A range with exactly one value. -/
def Range.Single (r : Range) : Prop :=
  ∃ value rest, r.next? = some (value, rest) ∧ rest.next? = none

/-- A loop that has not exactly one round when it is run: its bounds are good, and its range has no
value or more than one. -/
def Stmt.Uneven {σ : Type} (target : Target σ) (m : Machine σ) : Stmt → Prop
  | .loop _ _ start stop step inclusive _ =>
    ∃ r m', Exec.bounds .real target start stop step inclusive m = .ok r m' ∧ ¬ r.Single
  | _ => False

/-- The first value of a range is its start. -/
theorem Range.next?_between {start stop value : Float} {step : Option Float} {inclusive : Bool}
    {rest : Range} (h : (between start stop step inclusive).next? = some (value, rest)) :
    value = start := by
  unfold between at h
  split at h
  · cases h
    rfl
  · simp only [next?] at h
    split at h
    · cases h
      rfl
    · cases h

theorem Range.valued_of_check {first last : Float} {step : Option Float} {c : Cause}
    (h : Range.check first last step = .error c) (es : List Expr) : c.Valued es := by
  unfold check at h
  split at h
  · cases h
  · split at h
    · cases h
      exact .range _ _ _
    · split at h
      · cases h
        exact .range _ _ _
      · split at h
        · cases h
          exact .range _ _ _
        · cases h

section Rehearsals

variable {σ : Type} {fuel : Nat} {target : Target σ} {parted : Prop}

/-- A step of a rehearsal on expressions `es` that goes along with a step of the run which ends with
`b`: it fails by a value only, and only after the two have parted. Before that it ends with the
same. -/
structure Heralds {α : Type} (parted : Prop) (es : List Expr)
    (result : EStateM.Result Failure (Machine Unit) α) (b : α) : Prop where
  error : ∀ {f v}, result = .error f v → f.cause.Valued es ∧ parted
  ok : ∀ {a v}, result = .ok a v → parted ∨ a = b

theorem Exec.eval_heralds {e : Expr} {v : Machine Unit} {m m' : Machine σ} {y : Float}
    (h : Precedes parted v.vars m.vars) (hm : eval target e m = .ok y m') :
    Heralds parted [e] (eval Target.discard e v) y := by
  have hresolved := Exec.resolved_of_eval hm
  rw [eval_apply, onTarget_eq_ok] at hm
  obtain ⟨t, hm, -⟩ := hm
  have hsame : v.vars = m.vars → eval Target.discard e v = .ok y v := by
    intro hvars
    rw [eval_apply, hvars]
    exact onTarget_eq_ok.mpr ⟨v.target, Expr.eval_discard hm v.target, rfl⟩
  constructor
  · intro f v' hv
    refine ⟨?_, h.same.resolve_right fun hvars => ?_⟩
    · rw [eval_apply, onTarget_eq_error] at hv
      obtain ⟨c, u, hv, rfl, -⟩ := hv
      exact Expr.valued_of_eval h.covers hresolved hv
    · rw [hsame hvars] at hv
      cases hv
  · intro x v' hv
    refine h.same.imp id fun hvars => ?_
    rw [hsame hvars] at hv
    cases hv
    rfl

theorem Exec.stride_heralds {step : Option Expr} {v : Machine Unit} {m m' : Machine σ}
    {y : Option Float} (h : Precedes parted v.vars m.vars) (hm : stride target step m = .ok y m') :
    Heralds parted step.toList (stride Target.discard step v) y := by
  cases step with
  | none =>
    cases hm
    constructor
    · intro f v' hv
      cases hv
    · intro x v' hv
      cases hv
      exact .inr rfl
  | some e =>
    simp only [stride, map_eq_pure_bind, bind_eq_ok] at hm
    obtain ⟨z, m₁, hz, hm⟩ := hm
    cases hm
    have hfirst := eval_heralds h hz
    constructor
    · intro f v' hv
      simp only [stride, map_eq_pure_bind, bind_eq_error] at hv
      obtain hv | ⟨_, _, _, hv⟩ := hv
      · exact hfirst.error hv
      · cases hv
    · intro x v' hv
      simp only [stride, map_eq_pure_bind, bind_eq_ok] at hv
      obtain ⟨w, v₁, hw, hv⟩ := hv
      cases hv
      exact (hfirst.ok hw).imp id fun he => by rw [he]

/-- The bounds of a loop in a rehearsal and in a run. Before the two part, the only round of the
rehearsal has the value of the first round of the run, if that has one. -/
theorem Exec.bounds_precedes {start stop : Expr} {step : Option Expr} {inclusive : Bool}
    {v : Machine Unit} {m m' : Machine σ} {r : Range} (h : Precedes parted v.vars m.vars)
    (hm : bounds .real target start stop step inclusive m = .ok r m') :
    (∀ {f v'}, bounds .rehearsal Target.discard start stop step inclusive v = .error f v' →
      f.cause.Valued (start :: stop :: step.toList) ∧ parted) ∧
    ∀ {first v'}, bounds .rehearsal Target.discard start stop step inclusive v =
      .ok (.last first) v' →
      parted ∨ ∀ value rest, r.next? = some (value, rest) → value = first := by
  simp only [bounds, bind_eq_ok] at hm
  obtain ⟨first, m₁, h₁, last, m₂, h₂, stride, m₃, h₃, _, m₄, h₄, h₅⟩ := hm
  obtain ⟨hcheck, -⟩ := ofExcept_eq_ok.mp h₄
  obtain ⟨hrange, -⟩ := ofExcept_eq_ok.mp h₅
  cases hrange
  have hstart := eval_heralds h h₁
  rw [← vars_of_eval h₁] at h
  -- evaluation leaves the variables of both as they are
  have hstop : ∀ {x v₁}, eval Target.discard start v = .ok x v₁ →
      Heralds parted [stop] (eval Target.discard stop v₁) last := by
    intro x v₁ hv₁
    rw [← vars_of_eval hv₁] at h
    exact eval_heralds h h₂
  rw [← vars_of_eval h₂] at h
  have hstep : ∀ {x v₁ y v₂}, eval Target.discard start v = .ok x v₁ →
      eval Target.discard stop v₁ = .ok y v₂ →
      Heralds parted step.toList (Exec.stride Target.discard step v₂) stride := by
    intro x v₁ y v₂ hv₁ hv₂
    rw [← vars_of_eval hv₁, ← vars_of_eval hv₂] at h
    exact stride_heralds h h₃
  constructor
  · intro f v' hv
    simp only [bounds, bind_eq_error] at hv
    obtain hv | ⟨x, v₁, hx, hv | ⟨y, v₂, hy, hv | ⟨z, v₃, hz, hv | ⟨_, v₄, _, hv⟩⟩⟩⟩ := hv
    · exact (hstart.error hv).imp_left (.mono · (by simp))
    · exact ((hstop hx).error hv).imp_left (.mono · (by simp))
    · exact ((hstep hx hy).error hv).imp_left (.mono · (by simp))
    · obtain ⟨c, hc, rfl, -⟩ := ofExcept_eq_error.mp hv
      refine ⟨Range.valued_of_check hc _, ?_⟩
      obtain hp | rfl := hstart.ok hx
      · exact hp
      obtain hp | rfl := (hstop hx).ok hy
      · exact hp
      obtain hp | rfl := (hstep hx hy).ok hz
      · exact hp
      rw [hcheck] at hc
      cases hc
    · obtain ⟨c, hc, -⟩ := ofExcept_eq_error.mp hv
      cases hc
  · intro value v' hv
    simp only [bounds, bind_eq_ok] at hv
    obtain ⟨x, v₁, hx, y, v₂, hy, z, v₃, hz, _, v₄, _, hv⟩ := hv
    obtain ⟨hlast, -⟩ := ofExcept_eq_ok.mp hv
    cases hlast
    refine (hstart.ok hx).imp id ?_
    rintro rfl w rest hw
    exact Range.next?_between hw

/-! ## Statements -/

/-- A real run and a rehearsal come to a loop with the same variables, the rehearsal gets through
it, and the run has not exactly one round. -/
def Parts (fuel : Nat) (target : Target σ) (ss : List Stmt) (v : Machine Unit) (m : Machine σ) :
    Prop :=
  ∃ loop w w' n, Starts .rehearsal 1 Target.discard ss v loop w ∧
    loop.exec .rehearsal 1 Target.discard w = .ok () w' ∧ Starts .real fuel target ss m loop n ∧
    w.vars = n.vars ∧ loop.Uneven target n

section Parts

variable {s : Stmt} {ss : List Stmt} {v v₁ : Machine Unit} {m m₁ : Machine σ}

theorem Parts.mono (h : Parts fuel target [s] v m) : Parts fuel target (s :: ss) v m := by
  obtain ⟨loop, w, w', n, hw, hw', hn, hvars, huneven⟩ := h
  exact ⟨loop, w, w', n, hw.mono, hw', hn.mono, hvars, huneven⟩

theorem Parts.later (hv : s.exec .rehearsal 1 Target.discard v = .ok () v₁)
    (hm : s.exec .real fuel target m = .ok () m₁) (h : Parts fuel target ss v₁ m₁) :
    Parts fuel target (s :: ss) v m := by
  obtain ⟨loop, w, w', n, hw, hw', hn, hvars, huneven⟩ := h
  exact ⟨loop, w, w', n, .later hv hw, hw', .later hm hn, hvars, huneven⟩

theorem Parts.within {pos : Position} {name : Label} {start stop : Expr} {step : Option Expr}
    {inclusive : Bool} {body : List Stmt} {first value : Float} {r rest : Range}
    (hv : Exec.bounds .rehearsal Target.discard start stop step inclusive v = .ok (.last first) v₁)
    (hm : Exec.bounds .real target start stop step inclusive m = .ok r m₁)
    (hr : r.next? = some (value, rest))
    (h : Parts (fuel + 1) target body { v₁ with vars := v₁.vars.assign name first }
      { m₁ with vars := m₁.vars.assign name value }) :
    Parts (fuel + 1) target (.loop pos name start stop step inclusive body :: ss) v m := by
  obtain ⟨loop, w, w', n, hw, hw', hn, hvars, huneven⟩ := h
  exact ⟨loop, w, w', n, .within hv (.first rfl) hw, hw', .within hm (.first hr) hn, hvars, huneven⟩

end Parts

theorem Stmt.execAll_precedes {ss : List Stmt}
    (ih : ∀ s ∈ ss, ∀ {v v' : Machine Unit} {m m' : Machine σ},
      s.exec .rehearsal 1 Target.discard v = .ok () v' → s.exec .real fuel target m = .ok () m' →
      Precedes parted v.vars m.vars → (Parts fuel target [s] v m → parted) →
      Precedes parted v'.vars m'.vars)
    {v v' : Machine Unit} {m m' : Machine σ}
    (hv : Stmt.execAll .rehearsal 1 Target.discard ss v = .ok () v')
    (hm : Stmt.execAll .real fuel target ss m = .ok () m') (h : Precedes parted v.vars m.vars)
    (hparts : Parts fuel target ss v m → parted) : Precedes parted v'.vars m'.vars := by
  induction ss generalizing v m with
  | nil =>
    cases hv
    cases hm
    exact h
  | cons s ss ihs =>
    rw [execAll, bind_eq_ok] at hv hm
    obtain ⟨_, v₁, hv₁, hv⟩ := hv
    obtain ⟨_, m₁, hm₁, hm⟩ := hm
    have hfirst := ih s (.head _) hv₁ hm₁ h fun hp => hparts hp.mono
    exact ihs (fun s hs => ih s (.tail _ hs)) hv hm hfirst fun hp => hparts (.later hv₁ hm₁ hp)

/-- After a statement that both get through, a rehearsal still precedes the run. -/
theorem Stmt.exec_precedes {s : Stmt} {v v' : Machine Unit} {m m' : Machine σ}
    (hv : s.exec .rehearsal 1 Target.discard v = .ok () v')
    (hm : s.exec .real fuel target m = .ok () m') (h : Precedes parted v.vars m.vars)
    (hparts : Parts fuel target [s] v m → parted) : Precedes parted v'.vars m'.vars := by
  induction s generalizing v v' m m' with
  | assign pos name value =>
    simp only [exec, Exec.inside_eq_ok, bind_eq_ok] at hv hm
    obtain ⟨x, v₁, hx, hv⟩ := hv
    obtain ⟨y, m₁, hy, hm⟩ := hm
    have hxy := (Exec.eval_heralds h hy).ok hx
    cases hv
    cases hm
    rw [← Exec.vars_of_eval hx, ← Exec.vars_of_eval hy] at h
    exact h.assign hxy name
  | call pos e =>
    simp only [exec, Exec.inside_eq_ok, bind_eq_ok] at hv hm
    obtain ⟨x, v₁, hx, hv⟩ := hv
    obtain ⟨y, m₁, hy, hm⟩ := hm
    cases hv
    cases hm
    rwa [Exec.vars_of_eval hx, Exec.vars_of_eval hy]
  | loop pos name start stop step inclusive body ih =>
    have hknown : v'.vars.Covers m'.vars :=
      exec_covered hv hm (.refl _) ((exec_covers hv).trans h.covers)
    refine ⟨hknown, ?_⟩
    obtain hp | hvars := h.same
    · exact .inl hp
    obtain ⟨first, v₁, hbounds, hround⟩ := rehearsal_loop hv
    have hm' := hm
    rw [exec_loop, Exec.inside_eq_ok, bind_eq_ok] at hm'
    obtain ⟨r, m₁, hb, hsweep⟩ := hm'
    by_cases hsingle : r.Single
    · -- one round on both sides
      obtain ⟨value, rest, hr, hrest⟩ := hsingle
      cases fuel with
      | zero =>
        rw [Exec.sweep_exhausted hr] at hsweep
        cases hsweep
      | succ fuel =>
        rw [Exec.sweep_next hr, bind_eq_ok] at hsweep
        obtain ⟨_, m₂, hround', hdone⟩ := hsweep
        rw [Exec.sweep_done hrest] at hdone
        cases hdone
        rw [round, bind_eq_ok] at hround hround'
        obtain ⟨_, v₂, hassign, hbody⟩ := hround
        obtain ⟨_, m₃, hassign', hbody'⟩ := hround'
        cases hassign
        cases hassign'
        have hvalue : parted ∨ first = value :=
          ((Exec.bounds_precedes h hb).2 hbounds).imp id fun hf => (hf value rest hr).symm
        rw [← Exec.vars_of_bounds hbounds, ← Exec.vars_of_bounds hb] at h
        have hstart := h.assign hvalue name
        exact (execAll_precedes (fun s hs _ _ _ _ hv hm h hp => ih s hs hv hm h hp) hbody
          hbody' hstart fun hp => hparts (.within hbounds hb hr hp)).same
    · exact .inl (hparts ⟨_, v, v', m, .here, hv, .here, hvars, r, m₁, hb, hsingle⟩)
  | invalid pos message phase => simp [exec, Exec.inside, Exec.fail] at hv
  | misfit what => simp [exec, Exec.fail] at hv

/-- Where a statement of the rehearsal fails that the run gets through, a value is to blame. -/
theorem Stmt.breaks_valued {s : Stmt} {v v' : Machine Unit} {m m' : Machine σ} {c : Cause}
    (hv : s.Breaks .rehearsal Target.discard v c v') (hm : s.exec .real fuel target m = .ok () m')
    (h : Precedes parted v.vars m.vars) : c.Valued s.operands ∧ parted := by
  cases s with
  | assign pos name value =>
    simp only [exec, Exec.inside_eq_ok, bind_eq_ok] at hm
    obtain ⟨y, m₁, hy, -⟩ := hm
    exact (Exec.eval_heralds h hy).error hv
  | call pos e =>
    simp only [exec, Exec.inside_eq_ok, bind_eq_ok] at hm
    obtain ⟨y, m₁, hy, -⟩ := hm
    exact (Exec.eval_heralds h hy).error hv
  | loop pos name start stop step inclusive body =>
    rw [exec_loop, Exec.inside_eq_ok, bind_eq_ok] at hm
    obtain ⟨r, m₁, hb, -⟩ := hm
    exact (Exec.bounds_precedes h hb).1 hv
  | invalid pos message phase => simp [exec, Exec.inside, Exec.fail] at hm
  | misfit what => simp [exec, Exec.fail] at hm

/-- Where the rehearsal of statements fails that the run gets through, a value is to blame, or the
rehearsal is in the body of a loop that has no round. -/
theorem Halts.valued_or_idles {ss loops : List Stmt} {x : Stmt} {v v' : Machine Unit} {c : Cause}
    (hv : Halts .rehearsal 1 Target.discard ss v loops x c v') {m m' : Machine σ}
    (hm : Stmt.execAll .real fuel target ss m = .ok () m') (h : Precedes parted v.vars m.vars)
    (hparts : Parts fuel target ss v m → parted) :
    c.Valued x.operands ∧ parted ∨
      ∃ loop ∈ loops, ∃ n, Starts .real fuel target ss m loop n ∧ loop.Idles .real target n := by
  induction hv generalizing m m' with
  | here hbreaks =>
    rw [Stmt.execAll, bind_eq_ok] at hm
    obtain ⟨_, m₁, hm₁, -⟩ := hm
    exact .inl (Stmt.breaks_valued hbreaks hm₁ h)
  | later hs _ ih =>
    rw [Stmt.execAll, bind_eq_ok] at hm
    obtain ⟨_, m₁, hm₁, hm⟩ := hm
    have hfirst := Stmt.exec_precedes hs hm₁ h fun hp => hparts hp.mono
    refine (ih hm hfirst fun hp => hparts (.later hs hm₁ hp)).imp id ?_
    rintro ⟨loop, hloop, n, hn, hidle⟩
    exact ⟨loop, hloop, n, .later hm₁ hn, hidle⟩
  | within hb hr _ ih =>
    rw [Stmt.execAll, bind_eq_ok] at hm
    obtain ⟨_, m₁, hm₁, -⟩ := hm
    rw [Stmt.exec_loop, Exec.inside_eq_ok, bind_eq_ok] at hm₁
    obtain ⟨r', m₂, hb', hsweep⟩ := hm₁
    -- the rehearsal is in its only round
    obtain ⟨-, first, rfl⟩ := Exec.resolved_of_bounds hb
    cases hr with
    | next _ _ hr => cases hr
    | first hfirst =>
      cases hfirst
      cases hr' : r'.next? with
      | none => exact .inr ⟨_, .head _, m, .here, r', m₂, hb', hr'⟩
      | some p =>
        obtain ⟨value, rest⟩ := p
        cases fuel with
        | zero =>
          rw [Exec.sweep_exhausted hr'] at hsweep
          cases hsweep
        | succ fuel =>
          rw [Exec.sweep_next hr', bind_eq_ok] at hsweep
          obtain ⟨_, m₃, hround, -⟩ := hsweep
          rw [Stmt.round, bind_eq_ok] at hround
          obtain ⟨_, m₄, hassign, hbody⟩ := hround
          cases hassign
          have hvalue :=
            ((Exec.bounds_precedes h hb').2 hb).imp id fun hf => (hf value rest hr').symm
          rw [← Exec.vars_of_bounds hb, ← Exec.vars_of_bounds hb'] at h
          refine (ih hbody (h.assign hvalue _) fun hp => hparts (.within hb hb' hr' hp)).imp id ?_
          rintro ⟨loop, hloop, n, hn, hidle⟩
          exact ⟨loop, .tail _ hloop, n, .within hb' (.first hr') hn, hidle⟩

/-- A program that comes to its end when it is run is not refused by a rehearsal, but for two
things. The rehearsal may have gone through a loop that has not exactly one round, so that a later
value is another one, for which a calculation fails, or the step of a loop, or the text of a
quotient by zero; up to that loop both had the same variables. Or it has failed in the body of a
loop that has no round. -/
theorem validate_of_execute {program : List Stmt} {state : σ} {m : Machine σ}
    (h : execute fuel target program (Machine.fresh state) = .ok () m) :
    validate program = none ∨ ∃ f loops x v, validate program = some f ∧
      Halts .rehearsal 1 Target.discard program (Machine.fresh ()) loops x f.cause v ∧
      (f.cause.Valued x.operands ∧
        Parts fuel target program (Machine.fresh ()) (Machine.fresh state) ∨
        ∃ loop ∈ loops, ∃ n, Starts .real fuel target program (Machine.fresh state) loop n ∧
          loop.Idles .real target n) := by
  rw [execute, bind_eq_ok] at h
  obtain ⟨_, m', hm, -⟩ := h
  cases hv : validate program with
  | none => exact .inl rfl
  | some f =>
    obtain ⟨v, hrun⟩ := validate_eq_some.mp hv
    obtain ⟨loops, x, hx⟩ | ⟨-, hfuel⟩ := Stmt.halts_of_execAll hrun
    · exact .inr ⟨f, loops, x, v, rfl, hx, hx.valued_or_idles hm (.refl _) id⟩
    · cases hfuel rfl

-- the name of the dividend is no text, so that the division by zero cannot be shown
example :
    let five : Label := .value "5" "5" "5"
    let program : List Stmt :=
      [.assign .unknown five (.const .unknown 1),
        .loop .unknown "i" (.const .unknown 0) (.const .unknown 1) (some (.const .unknown 1)) true
          [.assign .unknown "x" (.var .unknown "i")],
        .assign .unknown "y" (.binary .unknown .divide (.var .unknown five) (.var .unknown "x"))]
    (draw 2 Target.discard program ()).1.isNone ∧ validate program = some ⟨[], .notText⟩ := by
  decide +kernel

end Rehearsals

/-- The last round of the loop leaves a value that can be divided by, and the first does not. -/
def lateDivisor : String := "for i over [0, 1] by 1 \x7b x = i \x7d\ny = 1 / x"

theorem exists_lateDivisor : ∃ program m f, parse "" lateDivisor = .ok program ∧
    execute 2 Target.discard program (Machine.fresh ()) = .ok () m ∧ validate program = some f ∧
    f.cause.isReported ∧ f.frames.length = 1 := by
  have heval : (parse "" lateDivisor).toOption.map
      (fun program => ((draw 2 Target.discard program ()).1.isNone,
      (validate program).map fun f => (f.cause.isReported, f.frames.length))) =
      some (true, some (true, 1)) := by
    decide +kernel
  obtain ⟨program, hparse⟩ := exists_eq_ok (x := parse "" lateDivisor) (by decide +kernel)
  rw [hparse] at heval
  obtain ⟨hdraw, hvalidate⟩ := Prod.mk.inj (Option.some.inj heval)
  obtain ⟨f, hf, hshape⟩ := Option.map_eq_some_iff.mp hvalidate
  obtain ⟨hreported, hlength⟩ := Prod.mk.inj hshape
  cases hm : execute 2 Target.discard program (Machine.fresh ()) with
  | ok _ m => exact ⟨program, m, f, hparse, hm, hf, hreported, hlength⟩
  | error e m =>
    rw [draw, hm] at hdraw
    cases hdraw

/-- A program may draw to its end against a target that never fails, and be refused by a
rehearsal. -/
theorem not_forall_validate_of_execute : ¬ ∀ (program : List Stmt) (fuel : Nat) (m : Machine Unit),
    execute fuel Target.discard program (Machine.fresh ()) = .ok () m →
    validate program = none := by
  intro h
  obtain ⟨program, m, f, -, hm, hf, -⟩ := exists_lateDivisor
  rw [h program 2 m hm] at hf
  cases hf

theorem validate_of_execute_lateDivisor :
    ∃ program m f loops x v, parse "" lateDivisor = .ok program ∧
    execute 2 Target.discard program (Machine.fresh ()) = .ok () m ∧ validate program = some f ∧
    Halts .rehearsal 1 Target.discard program (Machine.fresh ()) loops x f.cause v ∧
    f.cause.Valued x.operands ∧
    Parts 2 Target.discard program (Machine.fresh ()) (Machine.fresh ()) := by
  obtain ⟨program, m, f, hparse, hm, hf, hreported, hlength⟩ := exists_lateDivisor
  obtain hnone | ⟨g, loops, x, v, hg, hx, ⟨hvalued, hparts⟩ | ⟨loop, hloop, -⟩⟩ :=
    validate_of_execute hm
  · rw [hnone] at hf
    cases hf
  · rw [hf] at hg
    cases hg
    exact ⟨program, m, f, loops, x, v, hparse, hm, hf, hx, hvalued, hparts⟩
  · -- the statement that fails is not in a loop
    rw [hf] at hg
    cases hg
    obtain ⟨w, hw⟩ := validate_eq_some.mp hf
    have hframes := Failure.along_frames hreported (loops ++ [x])
    rw [← hx.eq_along hw] at hframes
    rw [hframes, List.length_map, List.length_append, List.length_singleton, Nat.add_eq_right,
      List.length_eq_zero_iff] at hlength
    rw [hlength] at hloop
    cases hloop

end PolarPlot
