import PolarPlot.Eval.Cause

/-!
# Loop ranges

The values of a loop variable are fixed when the loop is entered: they start at one bound and go by
equal steps, each added to the value before, as long as they are within the other bound.
-/

namespace PolarPlot

/-- The values that are still to come. -/
inductive Range where
  | done
  | last (value : Float)
  | ladder (current step stop : Float) (ascending inclusive : Bool)
  deriving DecidableEq

namespace Range

/-- Whether a value is within the bound. -/
def within (value stop : Float) (ascending inclusive : Bool) : Bool :=
  if ascending then (if inclusive then value ≤ stop else value < stop)
  else if inclusive then stop ≤ value else stop < value

/-- The next value, and those that come after it. -/
def next? : Range → Option (Float × Range)
  | .done => none
  | .last value => some (value, .done)
  | .ladder current step stop ascending inclusive =>
    if within current stop ascending inclusive then
      some (current, .ladder (current + step) step stop ascending inclusive)
    else none

/-- The first values, at most `n` of them, and what is left. -/
def take : Nat → Range → List Float × Range
  | 0, r => ([], r)
  | n + 1, r =>
    match r.next? with
    | none => ([], r)
    | some (value, r) =>
      let (values, r) := take n r
      (value :: values, r)

/-- The step of a loop that gives none. -/
def defaultStep (ascending : Bool) : Float := if ascending then 0.01 else -0.01

/-- The range from `start` to `stop`. Equal bounds give one value. Bounds that are not in ascending
order are taken as descending. -/
def between (start stop : Float) (step : Option Float) (inclusive : Bool) : Range :=
  if start == stop then .last start
  else
    let ascending := start < stop
    .ladder start (step.getD (defaultStep ascending)) stop ascending inclusive

/-- Refuses a step that is zero or points away from the end of the range. -/
def check (start stop : Float) : Option Float → Except Cause Unit
  | none => .ok ()
  | some step =>
    if !(start == stop) && step == 0 then .error (.invalidRange .zero start stop)
    else if stop < start ∧ 0 < step then .error (.invalidRange .notNegative start stop)
    else if start < stop ∧ step < 0 then .error (.invalidRange .notPositive start stop)
    else .ok ()

end Range

/-- How the statements of a program are run: for their output, or only to see whether they fail. -/
inductive Pass where
  | real
  /-- Every loop body runs once, at the start of its range. -/
  | rehearsal
  /-- Loops have no meaning. -/
  | loopless
  deriving DecidableEq, Repr

/-- The range of a loop. -/
def Pass.range (pass : Pass) (start stop : Float) (step : Option Float) (inclusive : Bool) :
    Except Cause Range :=
  match pass with
  | .real => .ok (.between start stop step inclusive)
  | .rehearsal => .ok (.last start)
  | .loopless => .error .undefinedOperation

end PolarPlot
