/-!
# Drawing commands

A program draws by giving commands in polar coordinates to a target.
-/

namespace PolarPlot

inductive Command where
  /-- A point. -/
  | vertex (r theta : Float)
  /-- A turn at constant radius, clockwise if `sweep` is negative. -/
  | arc (r theta sweep : Float)
  /-- A place alone, which no drawing can show. -/
  | bare (r theta : Float)
  deriving DecidableEq

namespace Command

def r : Command → Float
  | .vertex r _ => r
  | .arc r _ _ => r
  | .bare r _ => r

/-- The same command at another radius. -/
def withRadius (r : Float) : Command → Command
  | .vertex _ theta => .vertex r theta
  | .arc _ theta sweep => .arc r theta sweep
  | .bare _ theta => .bare r theta

end Command

end PolarPlot
