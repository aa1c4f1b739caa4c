import PolarPlot.Drawing.Writer
import PolarPlot.Number.Checked

/-!
# SVG documents

The drawing is an HTML page that holds one SVG picture. The unit circle fills the picture; runs of
vertices are polylines, and every arc is a path of its own that joins what comes before it to what
comes after. Radii have to lie in the unit circle.
-/

namespace PolarPlot

open Number

namespace Svg

/-! ## Elements -/

def style (color width : String) : String :=
  "style=\"fill:none;stroke:" ++ color ++ ";stroke-width:" ++ width ++ "\" />\n"

def coordinates (p : Float × Float) : String := fixedText 5 p.1 ++ "," ++ fixedText 5 p.2

def polyline (points : List (Float × Float)) (color width : String) : String :=
  "<polyline points=\"" ++ " ".intercalate (points.map coordinates) ++ "\" " ++ style color width

def path (d color width : String) : String := "<path d=\"" ++ d ++ "\" " ++ style color width

def circle (cx cy r : Float) (color width : String) : String :=
  "<circle cx=\"" ++ fixedText 5 cx ++ "\" cy=\"" ++ fixedText 5 cy ++ "\" r=\"" ++ fixedText 5 r ++
    "\" " ++ style color width

def header (size : Int) : String :=
  "<html><body><svg height=\"" ++ toString size ++ "\" width=\"" ++ toString size ++ "\">\n"

def footer : String := "</svg></body></html>"

/-- The color and the width of the drawing. -/
def strokeColor : String := "black"

@[inherit_doc strokeColor]
def strokeWidth : String := "5"

/-- The color of what helps to see where the drawing is. -/
def guideColor : String := "#cccccc"

/-- The nearest binary64 number to `π`. -/
def pi : Float := 3.141592653589793

/-- The flags of an arc: whether it is more than half a turn, and whether it runs clockwise. The
axis points down, so a turn the usual way has flag 0. -/
def arcFlags (sweep : Float) : Nat × Nat :=
  (if pi < sweep.abs then 1 else 0, if sweep < 0 then 1 else 0)

/-! ## The picture -/

/-- A picture of `size` by `size`. -/
structure Canvas where
  size : Int
  /-- The length of radius 1. -/
  scale : Float
  /-- Whether the unit circle is drawn, with marks at all angles. -/
  guide : Bool

/-- A picture of a size, if the size is a number at all. -/
def Canvas.ofSize? (size : Int) (guide : Bool) : Option Canvas :=
  (ofInt? size).map fun x => ⟨size, x / 2, guide⟩

structure State where
  writer : Writer
  started : Bool
  closed : Bool
  /-- The points of the polyline that is not written yet. -/
  pending : Array (Float × Float)
  polylines : Nat
  paths : Nat

def State.initial (writer : Writer) : State := ⟨writer, false, false, #[], 0, 0⟩

def write (text : String) : Action State Unit :=
  Action.on State.writer (fun w s => { s with writer := w }) (Writer.write "SVG" text)

/-- Writes the header, the first time only. -/
def start (canvas : Canvas) : Action State Unit := do
  if !(← get).started then
    modify fun s => { s with started := true }
    write (header canvas.size)

/-- The place of a point in the picture. The axis points down. -/
def toCartesian (canvas : Canvas) (r theta : Float) : Action State (Float × Float) :=
  match Checked.cos theta, Checked.sin theta with
  | .ok cosine, .ok sine =>
    pure (r * canvas.scale * cosine + canvas.scale, -(r * canvas.scale * sine) + canvas.scale)
  | _, _ => throw .infiniteAngle

/-- Writes the pending polyline, if there is one. -/
def flushPending : Action State Unit := do
  let points := (← get).pending
  if !points.isEmpty then
    write (polyline points.toList strokeColor strokeWidth)
    modify fun s => { s with polylines := s.polylines + 1, pending := #[] }

/-- Adds a point to the pending polyline. -/
def addPoint (p : Float × Float) : Action State Unit :=
  modify fun s => { s with pending := s.pending.push p }

/-- Draws an arc. The pending polyline runs up to its start, and the next one begins at its end. -/
def drawArc (canvas : Canvas) (r theta sweep : Float) : Action State Unit := do
  let first ← toCartesian canvas r theta
  let last ← toCartesian canvas r (theta + sweep)
  if !(← get).pending.isEmpty then
    addPoint first
    flushPending
  let (large, clockwise) := arcFlags sweep
  let radius := fixedText 5 (r * canvas.scale)
  write (path ("M " ++ coordinates first ++ " A " ++ radius ++ "," ++ radius ++ " 0 " ++
    toString large ++ " " ++ toString clockwise ++ " " ++ coordinates last) strokeColor strokeWidth)
  modify fun s => { s with paths := s.paths + 1 }
  addPoint last

def accept (canvas : Canvas) (c : Command) : Action State Unit := do
  start canvas
  if 1 < c.r.abs then throw (.unnormalized c.r)
  match c with
  | .vertex r theta => addPoint (← toCartesian canvas r theta)
  | .arc r theta sweep => drawArc canvas r theta sweep
  | .bare r theta => throw (.notDrawable r theta)

/-- The number of marks on the unit circle. -/
def ticks : Nat := 128

/-- Draws a mark from the center to the unit circle; those at right angles are red. -/
def drawTick (canvas : Canvas) (center : Float × Float) (i : Nat) : Action State Unit := do
  let tip ← toCartesian canvas 1 (pi / 64 * ofInt i)
  write (polyline [center, tip] (if i % 32 = 0 then "red" else guideColor) "1")

def drawGuide (canvas : Canvas) : Action State Unit := do
  write (circle canvas.scale canvas.scale canvas.scale guideColor "1")
  let center ← toCartesian canvas 0 0
  (List.range ticks).forM (drawTick canvas center)

/-- Ends the document, the first time only, and flushes. -/
def close (canvas : Canvas) : Action State Unit := do
  if !(← get).closed then
    start canvas
    flushPending
    if canvas.guide then drawGuide canvas
    write footer
    modify fun s => { s with closed := true }
  Action.on State.writer (fun w s => { s with writer := w }) Writer.flush

end Svg

/-- Draws a picture. -/
def Target.svg (canvas : Svg.Canvas) : Target Svg.State where
  accept := Svg.accept canvas
  close := Svg.close canvas

end PolarPlot
