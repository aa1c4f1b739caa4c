import PolarPlot.Syntax.Program

/-!
# Induction on programs

Expressions and statements hold lists of themselves. The principles here give the hypothesis for
every member of such a list.
-/

namespace PolarPlot

/-- Induction on expressions, with a hypothesis for each argument of a call. -/
@[elab_as_elim, induction_eliminator]
theorem Expr.induction {motive : Expr → Prop}
    (var : ∀ pos name, motive (.var pos name))
    (const : ∀ pos value, motive (.const pos value))
    (binary : ∀ pos op left right, motive left → motive right →
      motive (.binary pos op left right))
    (call : ∀ pos name args, (∀ e ∈ args, motive e) → motive (.call pos name args))
    (misfit : ∀ what, motive (.misfit what)) (e : Expr) : motive e := by
  refine @Expr.rec motive (fun es => ∀ e ∈ es, motive e) var const binary call misfit ?_ ?_ e
  · simp
  · intro e es he hes
    simpa [he] using hes

/-- Induction on statements, with a hypothesis for each statement of a loop body. -/
@[elab_as_elim, induction_eliminator]
theorem Stmt.induction {motive : Stmt → Prop}
    (assign : ∀ pos name value, motive (.assign pos name value))
    (call : ∀ pos e, motive (.call pos e))
    (loop : ∀ pos name start stop step inclusive body, (∀ s ∈ body, motive s) →
      motive (.loop pos name start stop step inclusive body))
    (invalid : ∀ pos message phase, motive (.invalid pos message phase))
    (misfit : ∀ what, motive (.misfit what)) (s : Stmt) : motive s := by
  refine @Stmt.rec motive (fun ss => ∀ s ∈ ss, motive s) assign call loop invalid misfit ?_ ?_ s
  · simp
  · intro s ss hs hss
    simpa [hs] using hss

end PolarPlot
