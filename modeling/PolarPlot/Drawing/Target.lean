import PolarPlot.Drawing.Command
import PolarPlot.Eval.Cause

/-!
# Targets

A target is a machine that takes drawing commands one by one and is closed at the end. Any step may
fail, and what a step did to the state before it failed stays done.
-/

namespace PolarPlot

/-- A step on a state. It may fail, and the state it leaves is kept either way. -/
abbrev Action (σ α : Type) : Type := EStateM Cause σ α

namespace Action

variable {σ τ α : Type}

/-- Does a step on a part of the state. -/
def on (get : σ → τ) (set : τ → σ → σ) (act : Action τ α) : Action σ α := fun s =>
  match act (get s) with
  | .ok a t => .ok a (set t s)
  | .error e t => .error e (set t s)

end Action

/-- A machine for drawing commands, with states in `σ`. -/
structure Target (σ : Type) where
  accept : Command → Action σ Unit
  close : Action σ Unit

namespace Target

/-- Takes everything and does nothing. -/
def discard : Target Unit where
  accept _ := pure ()
  close := pure ()

/-- Can do nothing. -/
def undefined : Target Unit where
  accept _ := throw .undefinedOperation
  close := throw .undefinedOperation

end Target

/-- How many commands came, and whether the target was closed. -/
structure Tally where
  count : Nat
  closed : Bool
  deriving DecidableEq, Repr

namespace Target

/-- Counts commands. -/
def tally : Target Tally where
  accept _ := modify fun t => { t with count := t.count + 1 }
  close := modify fun t => { t with closed := true }

/-- Gives commands to a target one by one. -/
def replay {σ : Type} (target : Target σ) : List Command → Action σ Unit
  | [] => pure ()
  | c :: cs => do
    target.accept c
    replay target cs

end Target

end PolarPlot
