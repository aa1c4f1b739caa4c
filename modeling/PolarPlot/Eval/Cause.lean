import PolarPlot.Number.Layout
import PolarPlot.Syntax.Program

/-!
# Causes of failure

Why a program stops. Most causes are errors of the program or of its output, which are reported with
the statements that led to them. The others say that something was asked for that has no meaning;
they pass through unreported.
-/

namespace PolarPlot

open Number

/-- Why a step cannot be used for a range. -/
inductive RangeProblem where
  | zero
  | notNegative
  | notPositive
  deriving DecidableEq, Repr

inductive Cause where
  | undefinedVariable (name : Label)
  | noSuchFunction (name : Label)
  | wrongArity (name : String) (expected got : Int)
  | math (operation reason : String)
  | invalidRange (problem : RangeProblem) (start stop : Float)
  /-- An assignment to something that is no variable. -/
  | illegalTarget (message : String)
  /-- The output could not be written. -/
  | output (action detail : String)
  /-- A radius outside the unit circle, where only those inside can be drawn. -/
  | unnormalized (r : Float)
  /-- A value of the named sort where an expression belongs. -/
  | notExpression (sort : String)
  /-- A value of the named sort where a statement belongs. -/
  | notStatement (sort : String)
  /-- A value where a list belongs. -/
  | notList
  /-- An expression that cannot be shown. -/
  | notText
  /-- A command that no drawing can show. -/
  | notDrawable (r theta : Float)
  /-- An angle that has no direction. -/
  | infiniteAngle
  /-- An operation that has no meaning where it was asked for. -/
  | undefinedOperation
  /-- A loop that did not end within the number of rounds it was given. -/
  | outOfFuel
  deriving DecidableEq

namespace Cause

/-- Whether a cause is an error of the program or of its output. -/
def isReported : Cause → Bool
  | .undefinedVariable _ | .noSuchFunction _ | .wrongArity _ _ _ | .math _ _ | .invalidRange _ _ _
  | .illegalTarget _ | .output _ _ | .unnormalized _ => true
  | _ => false

/-- Whether a cause is an error of the output. -/
def isRender : Cause → Bool
  | .output _ _ | .unnormalized _ => true
  | _ => false

def message : Cause → String
  | .undefinedVariable name => "undefined variable " ++ name.text
  | .noSuchFunction name => name.text ++ ": no such function"
  | .wrongArity name expected got =>
    name ++ ": wrong number of arguments: requires " ++ toString expected ++ ", got " ++
      toString got
  | .math operation reason => operation ++ ": " ++ reason
  | .invalidRange .zero start stop =>
    "cannot use zero step unless start (" ++ generalText start ++ ") == end (" ++
      generalText stop ++ ")"
  | .invalidRange .notNegative start stop =>
    "must use negative step for start (" ++ generalText start ++ ") > end (" ++
      generalText stop ++ ")"
  | .invalidRange .notPositive start stop =>
    "must use positive step for start (" ++ generalText start ++ ") < end (" ++
      generalText stop ++ ")"
  | .illegalTarget message => message
  | .output action detail => "failed to " ++ action ++ ": " ++ detail
  | .unnormalized r => "SVG rendering requires normalized input, got r=" ++ generalText r
  | .notExpression sort => "Unsupported expression node: " ++ sort
  | .notStatement sort => "Unsupported statement node: " ++ sort
  | .notList => "the value cannot be gone through"
  | .notText => "the expression has no text"
  | .notDrawable r theta =>
    "Unsupported render command: RenderCommand(r=" ++ plainText r ++ ", theta=" ++
      plainText theta ++ ")"
  | .infiniteAngle => "math domain error"
  | .undefinedOperation => "the operation has no meaning here"
  | .outOfFuel => "the loop did not end"

/-- The cause that a misfit is in the place of an expression. -/
def ofExprMisfit : Misfit → Cause
  | .sort name => .notExpression name
  | .unlisted => .notList

/-- The cause that a misfit is in the place of a statement. -/
def ofStmtMisfit : Misfit → Cause
  | .sort name => .notStatement name
  | .unlisted => .notList

end Cause

end PolarPlot
