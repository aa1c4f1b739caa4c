import PolarPlot.Syntax.Label

/-!
# Variables and their values
-/

namespace PolarPlot

/-- Variables with their values, in the order in which they were first assigned. -/
abbrev Bindings : Type := List (Label.Key × Float)

namespace Bindings

def empty : Bindings := []

def get? (vars : Bindings) (name : Label) : Option Float := List.lookup name.key vars

/-- Gives a value to a variable, whether or not it has one. -/
def set (name : Label.Key) (value : Float) : Bindings → Bindings
  | [] => [(name, value)]
  | (n, v) :: vars => if n = name then (n, value) :: vars else (n, v) :: set name value vars

/-- The name whose values are thrown away. -/
def sink : Label.Key := .word "_"

/-- Assigns to a variable, or to the sink. -/
def assign (vars : Bindings) (name : Label) (value : Float) : Bindings :=
  if name.key = sink then vars else set name.key value vars

end Bindings

end PolarPlot
