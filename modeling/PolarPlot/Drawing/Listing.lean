import PolarPlot.Drawing.Writer

/-!
# Vertex listings

One line for each point: the angle and the radius. An arc is listed as its two ends.
-/

namespace PolarPlot

open Number

namespace Listing

def line (r theta : Float) : String := fixedText 5 theta ++ " " ++ fixedText 5 r ++ "\n"

def writePoint (r theta : Float) : Action Writer Unit := Writer.write "vertex" (line r theta)

end Listing

/-- Lists vertices. -/
def Target.listing : Target Writer where
  accept
    | .vertex r theta => Listing.writePoint r theta
    | .arc r theta sweep => do
      Listing.writePoint r theta
      Listing.writePoint r (theta + sweep)
    | .bare r theta => throw (.notDrawable r theta)
  close := Writer.flush

end PolarPlot
