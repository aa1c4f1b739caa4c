import PolarPlot.Syntax.Label
import PolarPlot.Syntax.Position

/-!
# Programs

A program is a list of statements. Every node knows its place in the source, which matters for error
messages only. A program that was read from a document may hold a `Misfit` where an expression or a
statement belongs; running it is an error, and a program that was parsed from text never holds one.
-/

namespace PolarPlot

/-- The arithmetic operators. -/
inductive Operator where
  | add
  | subtract
  | multiply
  | divide
  deriving DecidableEq, Repr

def Operator.symbol : Operator → String
  | .add => "+"
  | .subtract => "-"
  | .multiply => "*"
  | .divide => "/"

/-- A value that stands where an expression or a statement belongs. -/
inductive Misfit where
  /-- A value of the named sort. -/
  | sort (name : String)
  /-- A value in the place of a list that has no items to go through. -/
  | unlisted
  deriving DecidableEq, Repr

inductive Expr where
  | var (pos : Position) (name : Label)
  | const (pos : Position) (value : Float)
  | binary (pos : Position) (op : Operator) (left right : Expr)
  | call (pos : Position) (name : Label) (args : List Expr)
  | misfit (what : Misfit)
  deriving Inhabited

inductive Stmt where
  | assign (pos : Position) (name : Label) (value : Expr)
  /-- A call for its effect. -/
  | call (pos : Position) (call : Expr)
  /-- Runs the body for each value of a range. Without a step the range has a default one. -/
  | loop (pos : Position) (name : Label) (start stop : Expr) (step : Option Expr) (inclusive : Bool)
      (body : List Stmt)
  /-- A statement that is well formed but not allowed. It fails when it is run. -/
  | invalid (pos : Position) (message : String) (phase : Label)
  | misfit (what : Misfit)
  deriving Inhabited

/-- What was going on when a statement failed. -/
def Phase.assignment : String := "assignment error"

@[inherit_doc Phase.assignment]
def Phase.call : String := "call error"

@[inherit_doc Phase.assignment]
def Phase.loop : String := "loop error"

end PolarPlot
