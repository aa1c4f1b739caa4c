import PolarPlot.Syntax.Program

/-!
# Programs that say the same

Two programs say the same if they differ in nothing but the places of their nodes. Constants are
compared as numbers.
-/

namespace PolarPlot

mutual

def Expr.same : Expr → Expr → Bool
  | .var _ name, .var _ name' => name.same name'
  | .const _ value, .const _ value' => value == value'
  | .binary _ op left right, .binary _ op' left' right' =>
    op == op' && left.same left' && right.same right'
  | .call _ name args, .call _ name' args' => name.same name' && Expr.sameAll args args'
  | .misfit what, .misfit what' => what == what'
  | _, _ => false

def Expr.sameAll : List Expr → List Expr → Bool
  | [], [] => true
  | e :: es, e' :: es' => e.same e' && Expr.sameAll es es'
  | _, _ => false

end

def Expr.sameOption : Option Expr → Option Expr → Bool
  | none, none => true
  | some e, some e' => e.same e'
  | _, _ => false

mutual

def Stmt.same : Stmt → Stmt → Bool
  | .assign _ name value, .assign _ name' value' => name.same name' && value.same value'
  | .call _ e, .call _ e' => e.same e'
  | .loop _ name start stop step inclusive body,
      .loop _ name' start' stop' step' inclusive' body' =>
    name.same name' && start.same start' && stop.same stop' && Expr.sameOption step step' &&
      inclusive == inclusive' && Stmt.sameAll body body'
  | .invalid _ message phase, .invalid _ message' phase' => message == message' && phase.same phase'
  | .misfit what, .misfit what' => what == what'
  | _, _ => false

def Stmt.sameAll : List Stmt → List Stmt → Bool
  | [], [] => true
  | s :: ss, s' :: ss' => s.same s' && Stmt.sameAll ss ss'
  | _, _ => false

end

end PolarPlot
