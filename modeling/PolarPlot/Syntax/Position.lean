/-!
# Places in a source text
-/

namespace PolarPlot

/-- How a place is shown that is not made of a text and two numbers. -/
structure Position.Spelling where
  origin : String
  line : String
  column : String
  deriving DecidableEq, Repr, Inhabited

/-- A place in a source text: where the text came from, and the line and column, from 1. A program
that was not read from a text may carry any numbers, or values that are only good for being
shown. -/
structure Position where
  origin : String
  line : Int
  column : Int
  spelling : Option Position.Spelling := none
  deriving DecidableEq, Repr, Inhabited

namespace Position

/-- The place of a node that no text is known for. -/
def unknown : Position where
  origin := "<unknown>"
  line := 0
  column := 0

/-- How a place is shown. -/
def shown (p : Position) : Spelling :=
  p.spelling.getD ⟨p.origin, toString p.line, toString p.column⟩

def text (p : Position) : String := p.shown.origin ++ ":" ++ p.shown.line ++ ":" ++ p.shown.column

end Position

end PolarPlot
