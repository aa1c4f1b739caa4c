import PolarPlot.Syntax.Program
import PolarPlot.Number.Layout

/-!
# Programs as text

The text of a program is a program again, with every operand in parentheses. Constants show six
significant digits.
-/

namespace PolarPlot

open Number

mutual

def Expr.text : Expr → String
  | .var _ name => name.text
  | .const _ value => generalText value
  | .binary _ op left right => "(" ++ left.text ++ ") " ++ op.symbol ++ " (" ++ right.text ++ ")"
  | .call _ name args => name.text ++ "(" ++ ", ".intercalate (Expr.texts args) ++ ")"
  | .misfit _ => ""

def Expr.texts : List Expr → List String
  | [] => []
  | e :: es => e.text :: Expr.texts es

end

mutual

/-- Whether an expression has a text: a variable has none if its name is no text. -/
def Expr.hasText : Expr → Bool
  | .var _ name => name.isWord
  | .const _ _ => true
  | .binary _ _ left right => left.hasText && right.hasText
  | .call _ _ args => Expr.haveTexts args
  | .misfit _ => false

def Expr.haveTexts : List Expr → Bool
  | [] => true
  | e :: es => e.hasText && Expr.haveTexts es

end

/-- What closes the range of a loop. -/
def rangeEnd (inclusive : Bool) : String := if inclusive then "]" else ")"

mutual

def Stmt.text : Stmt → String
  | .assign _ name value => name.text ++ " = " ++ value.text
  | .call _ e => e.text
  | .loop _ name start stop step inclusive body =>
    "for " ++ name.text ++ " over [" ++ start.text ++ ", " ++ stop.text ++ rangeEnd inclusive ++
      (match step with
        | none => ""
        | some step => " by " ++ step.text) ++
      " \x7b " ++ " ".intercalate (Stmt.texts body) ++ " \x7d"
  | .invalid _ message _ => "<error: " ++ message ++ ">"
  | .misfit _ => ""

def Stmt.texts : List Stmt → List String
  | [] => []
  | s :: ss => s.text :: Stmt.texts ss

end

end PolarPlot
