import PolarPlot.Proofs.SingleRounds

/-!
# What an expression draws

An expression is evaluated node by node: the operands of a node from left to right, and then the
node itself (`Expr.nodes`). Each call of a drawing function gives its command to the target when it
is come to (`Expr.Draws`), and nothing else does. An evaluation that fails stops at a node, so it
has given the commands of the nodes before that one, and at most the command of the node itself
(`eval_postorder`).
-/

namespace PolarPlot

/-! ## Nodes -/

mutual

/-- The nodes of an expression, each after its operands. -/
def Expr.nodes : Expr → List Expr
  | .var pos name => [.var pos name]
  | .const pos value => [.const pos value]
  | .binary pos op left right => left.nodes ++ (right.nodes ++ [.binary pos op left right])
  | .call pos name args => Expr.nodesOf args ++ [.call pos name args]
  | .misfit what => [.misfit what]

def Expr.nodesOf : List Expr → List Expr
  | [] => []
  | e :: es => e.nodes ++ Expr.nodesOf es

end

/-- Whether a node is a call of a drawing function. -/
def Expr.isDrawing : Expr → Bool
  | .call _ name _ => name = .word "render" ∨ name = .word "render_arc"
  | _ => false

/-- An expression has a value, whatever becomes of the commands that it gives. -/
def Expr.HasValue (vars : Bindings) (e : Expr) (x : Float) : Prop :=
  e.eval Target.discard vars () = .ok x ()

/-- An expression has no value. -/
def Expr.Lacks (vars : Bindings) (e : Expr) (c : Cause) : Prop :=
  e.eval Target.discard vars () = .error c ()

/-- A call gives a command, which holds the values of its arguments. -/
inductive Expr.Draws (vars : Bindings) : Expr → Command → Prop where
  | vertex {pos : Position} {r theta : Expr} {x y : Float} :
      r.HasValue vars x → theta.HasValue vars y →
      Draws vars (.call pos (.word "render") [r, theta]) (.vertex x y)
  | arc {pos : Position} {r theta sweep : Expr} {x y z : Float} :
      r.HasValue vars x → theta.HasValue vars y → sweep.HasValue vars z →
      Draws vars (.call pos (.word "render_arc") [r, theta, sweep]) (.arc x y z)

theorem Expr.Draws.isDrawing {vars : Bindings} {e : Expr} {x : Command} (h : e.Draws vars x) :
    e.isDrawing = true := by
  cases h <;> simp [Expr.isDrawing]

/-! ## Walks -/

/-- Nodes are evaluated one after the other, up to the first that has no value: the commands that
they give, and why the last has no value. -/
inductive Walks (vars : Bindings) : List Expr → List Command → Option Cause → Prop where
  | done : Walks vars [] [] none
  | silent {e : Expr} {es : List Expr} {cs : List Command} {o : Option Cause} {x : Float} :
      e.HasValue vars x → e.isDrawing = false → Walks vars es cs o → Walks vars (e :: es) cs o
  | draws {e : Expr} {es : List Expr} {c : Command} {cs : List Command} {o : Option Cause}
      {x : Float} :
      e.HasValue vars x → e.Draws vars c → Walks vars es cs o → Walks vars (e :: es) (c :: cs) o
  | lacks {e : Expr} {es : List Expr} {c : Cause} : e.Lacks vars c →
      Walks vars (e :: es) [] (some c)

namespace Walks

variable {vars : Bindings} {es fs : List Expr} {cs ds : List Command} {o : Option Cause} {c : Cause}

theorem append (h : Walks vars es cs none) (h' : Walks vars fs ds o) :
    Walks vars (es ++ fs) (cs ++ ds) o := by
  generalize hn : (none : Option Cause) = n at h
  induction h with
  | done => exact h'
  | silent hx he _ ih => exact .silent hx he (ih hn)
  | draws hx hc _ ih => exact .draws hx hc (ih hn)
  | lacks => cases hn

/-- What comes after a node without a value is not come to. -/
theorem stop (h : Walks vars es cs (some c)) (fs : List Expr) :
    Walks vars (es ++ fs) cs (some c) := by
  generalize hn : some c = n at h ⊢
  induction h with
  | done => cases hn
  | silent hx he _ ih => exact .silent hx he (ih hn)
  | draws hx hc _ ih => exact .draws hx hc (ih hn)
  | lacks he => exact .lacks he

theorem forall₂_draws (h : Walks vars es cs none) :
    List.Forall₂ (Expr.Draws vars) (es.filter Expr.isDrawing) cs := by
  generalize hn : (none : Option Cause) = n at h
  induction h with
  | done => exact .nil
  | silent _ he _ ih =>
    rw [List.filter_cons_of_neg (by simp [he])]
    exact ih hn
  | draws _ hc _ ih =>
    rw [List.filter_cons_of_pos hc.isDrawing]
    exact .cons hc (ih hn)
  | lacks => cases hn

theorem hasValue (h : Walks vars es cs none) : ∀ e ∈ es, ∃ x, e.HasValue vars x := by
  generalize hn : (none : Option Cause) = n at h
  induction h with
  | done => simp
  | silent hx _ _ ih => exact List.forall_mem_cons.mpr ⟨⟨_, hx⟩, ih hn⟩
  | draws hx _ _ ih => exact List.forall_mem_cons.mpr ⟨⟨_, hx⟩, ih hn⟩
  | lacks => cases hn

/-- A walk stops at one node, and is complete up to it. -/
theorem exists_lacks (h : Walks vars es cs (some c)) :
    ∃ before e after, es = before ++ e :: after ∧ Walks vars before cs none ∧ e.Lacks vars c := by
  generalize hn : some c = n at h
  induction h with
  | done => cases hn
  | silent hx he _ ih =>
    obtain ⟨before, e, after, rfl, hbefore, hlacks⟩ := ih hn
    exact ⟨_ :: before, e, after, rfl, .silent hx he hbefore, hlacks⟩
  | draws hx hc _ ih =>
    obtain ⟨before, e, after, rfl, hbefore, hlacks⟩ := ih hn
    exact ⟨_ :: before, e, after, rfl, .draws hx hc hbefore, hlacks⟩
  | lacks he =>
    cases hn
    exact ⟨[], _, _, rfl, .done, he⟩

/-- Each command of a walk is given by one node, and the walk is complete up to it. -/
theorem exists_draws {x : Command} (h : Walks vars es (cs ++ x :: ds) o) :
    ∃ before e after, es = before ++ e :: after ∧ Walks vars before cs none ∧ e.Draws vars x := by
  generalize hn : cs ++ x :: ds = n at h
  induction h generalizing cs with
  | done => simp at hn
  | silent hx he _ ih =>
    obtain ⟨before, e, after, rfl, hbefore, hdraws⟩ := ih hn
    exact ⟨_ :: before, e, after, rfl, .silent hx he hbefore, hdraws⟩
  | draws hx hc _ ih =>
    cases cs with
    | nil =>
      cases hn
      exact ⟨[], _, _, rfl, .done, hc⟩
    | cons y cs =>
      obtain ⟨rfl, hcs⟩ := List.cons.inj hn
      obtain ⟨before, e, after, rfl, hbefore, hdraws⟩ := ih hcs
      exact ⟨_ :: before, e, after, rfl, .draws hx hc hbefore, hdraws⟩
  | lacks => simp at hn

end Walks

/-! ## Functions -/

namespace Function

theorem find_eq_ok {name : Label} {f : Function} (h : find name = .ok f) : name = .word f.name := by
  cases name with
  | value => cases h
  | word text =>
    simp only [find] at h
    cases hn : ofName? text with
    | none =>
      rw [hn] at h
      cases h
    | some g =>
      rw [hn] at h
      cases h
      have hfind : all.find? (fun g => g.name == text) = some f := hn
      have hname := List.find?_some hfind
      rw [eq_of_beq hname]

/-- A function that does not draw gives no command. -/
theorem apply_silent {f : Function} (h : f ≠ .render ∧ f ≠ .renderArc) (values : List Float) :
    ∃ o, ∀ (σ : Type) (T : Target σ), f.apply T values = T.perform [] o := by
  have hcalculated : ∀ value, ∃ o, ∀ (σ : Type) (T : Target σ),
      f.calculated value = T.perform [] o := by
    intro value
    cases value with
    | ok x => exact ⟨.ok x, fun _ _ => rfl⟩
    | error e => exact ⟨.error _, fun _ _ => rfl⟩
  unfold apply
  split
  · exact ⟨.error _, fun _ _ => rfl⟩
  · split
    · cases h.1 rfl
    · cases h.2 rfl
    · exact hcalculated _
    · exact ⟨.ok _, fun _ _ => rfl⟩
    · exact ⟨.ok _, fun _ _ => rfl⟩
    · exact hcalculated _
    · exact ⟨.ok _, fun _ _ => rfl⟩

theorem name_ne {f : Function} (h : f ≠ .render ∧ f ≠ .renderArc) :
    f.name ≠ "render" ∧ f.name ≠ "render_arc" := by
  cases f <;> simp_all [name]

theorem apply_render {σ : Type} (T : Target σ) (x y : Float) :
    render.apply T [x, y] = T.perform [.vertex x y] (.ok 0) := by
  simp [apply, Target.perform, Target.replay, Action.ofExcept, arity]

theorem apply_renderArc {σ : Type} (T : Target σ) (x y z : Float) :
    renderArc.apply T [x, y, z] = T.perform [.arc x y z] (.ok 0) := by
  simp [apply, Target.perform, Target.replay, Action.ofExcept, arity]

/-- A call by name gives one command if it draws, and else none. -/
theorem dispatch_cases (name : Label) (values : List Float) :
    (∃ x y, name = .word "render" ∧ values = [x, y] ∧
      ∀ (σ : Type) (T : Target σ), dispatch T name values = T.perform [.vertex x y] (.ok 0)) ∨
    (∃ x y z, name = .word "render_arc" ∧ values = [x, y, z] ∧
      ∀ (σ : Type) (T : Target σ), dispatch T name values = T.perform [.arc x y z] (.ok 0)) ∨
    ∃ o, (∀ (σ : Type) (T : Target σ), dispatch T name values = T.perform [] o) ∧
      ∀ v, o = .ok v → name ≠ .word "render" ∧ name ≠ .word "render_arc" := by
  cases hfind : find name with
  | error c =>
    refine .inr (.inr ⟨.error c, ?_, fun v hv => by cases hv⟩)
    intro σ T
    simp only [dispatch, hfind]
    rfl
  | ok f =>
    have hdispatch : ∀ (σ : Type) (T : Target σ), dispatch T name values = f.apply T values := by
      intro σ T
      simp only [dispatch, hfind]
    simp only [hdispatch]
    obtain rfl := find_eq_ok hfind
    by_cases hlength : values.length = f.arity
    · by_cases hdraws : f ≠ .render ∧ f ≠ .renderArc
      · obtain ⟨o, ho⟩ := apply_silent hdraws values
        obtain ⟨hrender, harc⟩ := name_ne hdraws
        exact .inr (.inr ⟨o, ho, fun v _ => ⟨by simpa using hrender, by simpa using harc⟩⟩)
      · cases f with
        | render =>
          obtain ⟨x, y, rfl⟩ := List.length_eq_two.mp hlength
          exact .inl ⟨x, y, rfl, rfl, fun _ T => apply_render T x y⟩
        | renderArc =>
          obtain ⟨x, y, z, rfl⟩ := List.length_eq_three.mp hlength
          exact .inr (.inl ⟨x, y, z, rfl, rfl, fun _ T => apply_renderArc T x y z⟩)
        | _ => simp at hdraws
    · refine .inr
        (.inr ⟨.error (.wrongArity f.name f.arity values.length), ?_, fun v hv => by cases hv⟩)
      intro σ T
      simp only [apply, ne_eq, hlength, not_false_eq_true, if_true]
      rfl

end Function

/-! ## Evaluation -/

/-- The cause of a failure, if it is one. -/
def cause? {α : Type} : Except Cause α → Option Cause
  | .ok _ => none
  | .error c => some c

section Evaluation

variable {vars : Bindings}

theorem Expr.eval_discard_of {e : Expr} {cs : List Command} {o : Except Cause Float}
    (h : ∀ (σ : Type) (T : Target σ), e.eval T vars = T.perform cs o) :
    e.eval Target.discard vars () = Action.ofExcept o () := by
  obtain ⟨_, ht, -⟩ := Target.discard_unfailing.perform cs o (s := ()) trivial
  rw [h, ht]

/-- After its operands, a node that gives no command is come to. -/
theorem Walks.node {e : Expr} {es : List Expr} {cs : List Command} {o : Except Cause Float}
    (hes : Walks vars es cs none) (h : ∀ (σ : Type) (T : Target σ), e.eval T vars = T.perform cs o)
    (hsilent : ∀ x, o = .ok x → e.isDrawing = false) : Walks vars (es ++ [e]) cs (cause? o) := by
  have hvalue := Expr.eval_discard_of h
  rw [← List.append_nil cs]
  cases o with
  | ok x => exact hes.append (.silent hvalue (hsilent x rfl) .done)
  | error c => exact hes.append (.lacks hvalue)

theorem Walks.drawing {e : Expr} {es : List Expr} {cs : List Command} {c : Command} {x : Float}
    (hes : Walks vars es cs none)
    (h : ∀ (σ : Type) (T : Target σ), e.eval T vars = T.perform (cs ++ [c]) (.ok x))
    (hdraws : e.Draws vars c) : Walks vars (es ++ [e]) (cs ++ [c]) none :=
  hes.append (.draws (Expr.eval_discard_of h) hdraws .done)

/-- What an expression does: the commands of its nodes, up to the first that has no value. -/
def Expr.Performs (vars : Bindings) (e : Expr) : Prop :=
  ∃ cs o, (∀ (σ : Type) (T : Target σ), e.eval T vars = T.perform cs o) ∧
    Walks vars e.nodes cs (cause? o)

theorem Expr.walks_evalAll {es : List Expr} (ih : ∀ e ∈ es, e.Performs vars) :
    ∃ cs o, (∀ (σ : Type) (T : Target σ), Expr.evalAll T vars es = T.perform cs o) ∧
      Walks vars (Expr.nodesOf es) cs (cause? o) ∧
      ∀ values, o = .ok values → List.Forall₂ (Expr.HasValue vars) es values := by
  induction es with
  | nil =>
    refine ⟨[], .ok [], fun _ _ => rfl, .done, ?_⟩
    rintro values ⟨⟩
    exact .nil
  | cons e es ihs =>
    obtain ⟨cs, o, he, hwalks⟩ := ih e (.head _)
    cases o with
    | error c =>
      refine ⟨cs, .error c, fun σ T => ?_, hwalks.stop _, fun values h => by cases h⟩
      rw [evalAll, he, Target.perform_error_bind]
    | ok x =>
      obtain ⟨ds, o, hes, hwalks', hvalues⟩ := ihs fun e he => ih e (.tail _ he)
      refine ⟨cs ++ ds, o.map (x :: ·), fun σ T => ?_, ?_, ?_⟩
      · rw [evalAll, he, Target.perform_ok_bind, hes, ← Target.replay_perform]
        cases o with
        | error c => rw [Target.perform_error_bind]; rfl
        | ok xs => rw [Target.perform_ok_bind]; rfl
      · cases o <;> exact hwalks.append hwalks'
      · rintro values hv
        cases o with
        | error c => cases hv
        | ok xs =>
          cases hv
          exact .cons (Expr.eval_discard_of he) (hvalues xs rfl)

/-- Every node of an expression is come to after its operands, and gives its command then. -/
theorem Expr.performs_nodes (vars : Bindings) (e : Expr) : e.Performs vars := by
  induction e with
  | var pos name =>
    exact ⟨[], vars.find name, fun _ _ => rfl, Walks.done.node (fun _ _ => rfl) fun _ _ => rfl⟩
  | const pos value =>
    exact ⟨[], .ok value, fun _ _ => rfl, Walks.done.node (fun _ _ => rfl) fun _ _ => rfl⟩
  | misfit what =>
    exact ⟨[], .error (.ofExprMisfit what), fun _ _ => rfl,
      Walks.done.node (fun _ _ => rfl) fun _ _ => rfl⟩
  | binary pos op left right ihl ihr =>
    obtain ⟨cs, o, hleft, hwalks⟩ := ihl
    cases o with
    | error c =>
      refine ⟨cs, .error c, fun σ T => ?_, hwalks.stop _⟩
      rw [eval, hleft, Target.perform_error_bind]
    | ok x =>
      obtain ⟨ds, o, hright, hwalks'⟩ := ihr
      cases o with
      | error c =>
        refine ⟨cs ++ ds, .error c, fun σ T => ?_, hwalks.append (hwalks'.stop _)⟩
        rw [eval, hleft, Target.perform_ok_bind, hright, Target.perform_error_bind,
          Target.replay_perform]
      | ok y =>
        have hboth : Walks vars (left.nodes ++ right.nodes) (cs ++ ds) none := hwalks.append hwalks'
        obtain ⟨o, ho⟩ : ∃ o, ∀ (σ : Type) (T : Target σ),
            (Expr.binary pos op left right).eval T vars = T.perform (cs ++ ds) o := by
          refine ⟨if op = .divide && y == 0
            then .error (.divisionByZero (.binary pos op left right))
            else .ok (op.apply x y), fun σ T => ?_⟩
          rw [eval, hleft, Target.perform_ok_bind, hright,
            Target.perform_ok_bind, ← Target.replay_perform]
          split <;> rfl
        refine ⟨cs ++ ds, o, ho, ?_⟩
        rw [nodes, ← List.append_assoc]
        exact hboth.node ho fun _ _ => rfl
  | call pos name args ih =>
    obtain ⟨cs, o, hargs, hwalks, hvalues⟩ := walks_evalAll ih
    cases o with
    | error c =>
      refine ⟨cs, .error c, fun σ T => ?_, hwalks.stop _⟩
      rw [eval, hargs, Target.perform_error_bind]
    | ok values =>
      have hvalues := hvalues values rfl
      have hcall : ∀ {ds : List Command} {o : Except Cause Float},
          (∀ (σ : Type) (T : Target σ), Function.dispatch T name values = T.perform ds o) →
          ∀ (σ : Type) (T : Target σ), (Expr.call pos name args).eval T vars =
          T.perform (cs ++ ds) o := by
        intro ds o hdispatch σ T
        rw [eval, hargs, Target.perform_ok_bind, hdispatch, Target.replay_perform]
      obtain ⟨x, y, rfl, rfl, hdispatch⟩ | ⟨x, y, z, rfl, rfl, hdispatch⟩ | ⟨o, hdispatch, hname⟩ :=
        Function.dispatch_cases name values
      · refine ⟨_, _, hcall hdispatch, hwalks.drawing (hcall hdispatch) ?_⟩
        obtain _ | ⟨hx, _ | ⟨hy, _ | _⟩⟩ := hvalues
        exact .vertex hx hy
      · refine ⟨_, _, hcall hdispatch, hwalks.drawing (hcall hdispatch) ?_⟩
        obtain _ | ⟨hx, _ | ⟨hy, _ | ⟨hz, _ | _⟩⟩⟩ := hvalues
        exact .arc hx hy hz
      · have heval := hcall hdispatch
        rw [List.append_nil] at heval
        refine ⟨cs, o, heval, hwalks.node heval fun v hv => ?_⟩
        simpa [isDrawing] using hname v hv

end Evaluation

/-! ## Targets -/

/-- How the evaluation of an expression goes against a target, from a state of it: the commands that
are offered, the value or the cause of the failure, and the state of the target in the end. -/
inductive Evaluates {σ : Type} (T : Target σ) (vars : Bindings) (e : Expr) (s : σ) :
    List Command → Except Cause Float → σ → Prop where
  /-- Each drawing call has given its command, in order. -/
  | value {cs : List Command} {x : Float} {t : σ} :
      List.Forall₂ (Expr.Draws vars) (e.nodes.filter Expr.isDrawing) cs → T.replay cs s = .ok () t →
      e.HasValue vars x → Evaluates T vars e s cs (.ok x) t
  /-- A node has no value. The drawing calls before it have given their commands. -/
  | failed {before after : List Expr} {node : Expr} {cs : List Command} {c : Cause} {t : σ} :
      e.nodes = before ++ node :: after → (∀ n ∈ before, ∃ x, n.HasValue vars x) →
      node.Lacks vars c →
      List.Forall₂ (Expr.Draws vars) (before.filter Expr.isDrawing) cs → T.replay cs s = .ok () t →
      Evaluates T vars e s cs (.error c) t
  /-- The target rejects the command of a node. The drawing calls before it have given theirs. -/
  | rejected {before after : List Expr} {node : Expr} {cs : List Command} {x : Command} {c : Cause}
      {t u : σ} :
      e.nodes = before ++ node :: after → (∀ n ∈ before, ∃ x, n.HasValue vars x) →
      node.Draws vars x →
      List.Forall₂ (Expr.Draws vars) (before.filter Expr.isDrawing) cs → T.replay cs s = .ok () t →
      T.accept x t = .error c u → Evaluates T vars e s (cs ++ [x]) (.error c) u

section Targets

variable {σ : Type} {T : Target σ} {vars : Bindings} {e : Expr} {cs : List Command}
  {o : Except Cause Float} {s t : σ}

theorem Exec.eval_of_taken (h : e.eval T vars = T.perform cs o) (ht : T.replay cs s = .ok () t) :
    Exec.eval T e ⟨vars, s⟩ = Exec.ofExcept o ⟨vars, t⟩ := by
  have hact : T.perform cs o s = Action.ofExcept o t := bind_of_ok ht
  rw [eval_apply, h]
  unfold onTarget
  rw [hact]
  cases o <;> rfl

theorem Exec.eval_of_rejected {c : Cause} (h : e.eval T vars = T.perform cs o)
    (ht : T.replay cs s = .error c t) :
    Exec.eval T e ⟨vars, s⟩ = Exec.ofExcept (.error c) ⟨vars, t⟩ := by
  have hact : T.perform cs o s = .error c t := bind_eq_error.mpr (.inl ht)
  rw [eval_apply, h]
  unfold onTarget
  rw [hact]
  rfl

end Targets

/-- An evaluation leaves all variables as they are. It offers one command for each drawing call of
the expression, the operands of a node before the node and from left to right. Where it fails, it
has offered those of the nodes before the one that failed, and the command of that node only if it
is the target that rejects it. -/
theorem eval_postorder {σ : Type} (T : Target σ) (vars : Bindings) (e : Expr) (log : Logged σ) :
    ∃ cs o t, Evaluates T vars e log.state cs o t ∧
      Exec.eval T e ⟨vars, log.state⟩ = Exec.ofExcept o ⟨vars, t⟩ ∧
      Exec.eval T.logged e ⟨vars, log⟩ =
        Exec.ofExcept o ⟨vars, ⟨log.events ++ cs.map .offer, t⟩⟩ := by
  obtain ⟨cs, o, heval, hwalks⟩ := e.performs_nodes vars
  have hvalue := Expr.eval_discard_of heval
  cases ht : T.replay cs log.state with
  | ok _ t =>
    refine ⟨cs, o, t, ?_, Exec.eval_of_taken (heval σ T) ht,
      Exec.eval_of_taken (heval _ T.logged) (Target.logged_replay ht log.events)⟩
    cases o with
    | ok x => exact .value hwalks.forall₂_draws ht hvalue
    | error c =>
      obtain ⟨before, node, after, hnodes, hbefore, hlacks⟩ := hwalks.exists_lacks
      exact .failed hnodes hbefore.hasValue hlacks hbefore.forall₂_draws ht
  | error c u =>
    obtain ⟨given, x, rest, t, rfl, ht', hx⟩ := Target.replay_eq_error.mp ht
    obtain ⟨before, node, after, hnodes, hbefore, hdraws⟩ := hwalks.exists_draws
    have hlogged : T.logged.replay (given ++ x :: rest) log =
        .error c ⟨log.events ++ (given ++ [x]).map .offer, u⟩ := by
      refine Target.replay_eq_error.mpr
        ⟨given, x, rest, _, rfl, Target.logged_replay ht' log.events, ?_⟩
      simp [Target.logged, Logged.note, hx]
    exact ⟨given ++ [x], .error c, u,
      .rejected hnodes hbefore.hasValue hdraws hbefore.forall₂_draws ht' hx,
      Exec.eval_of_rejected (heval σ T) ht, Exec.eval_of_rejected (heval _ T.logged) hlogged⟩

end PolarPlot
