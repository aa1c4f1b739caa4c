import PolarPlot.Drawing.Buffer
import PolarPlot.Drawing.Listing
import PolarPlot.Drawing.Svg

/-!
# Plans

A plan says how a target is put together. `Plan.State` is the type of the states of that target, and
`Plan.target` is the target itself.
-/

namespace PolarPlot

inductive Plan where
  | discard
  | undefined
  | tally
  | listing
  | svg (canvas : Svg.Canvas)
  | buffered (inner : Plan)
  | normalized (inner : Plan)

namespace Plan

def State : Plan → Type
  | .discard => Unit
  | .undefined => Unit
  | .tally => Tally
  | .listing => Writer
  | .svg _ => Svg.State
  | .buffered inner => Buffer inner.State
  | .normalized inner => Buffer inner.State

def target : (p : Plan) → Target p.State
  | .discard => Target.discard
  | .undefined => Target.undefined
  | .tally => Target.tally
  | .listing => Target.listing
  | .svg canvas => Target.svg canvas
  | .buffered inner => Target.buffered inner.target
  | .normalized inner => Target.normalized inner.target

/-- The state before any command, with a writer for the output. -/
def initial (writer : Writer) : (p : Plan) → p.State
  | .discard => ()
  | .undefined => ()
  | .tally => (⟨0, false⟩ : Tally)
  | .listing => writer
  | .svg _ => Svg.State.initial writer
  | .buffered inner => Buffer.initial (initial writer inner)
  | .normalized inner => Buffer.initial (initial writer inner)

/-- The writer of a target that has one. -/
def writer? : (p : Plan) → p.State → Option Writer
  | .discard, _ => none
  | .undefined, _ => none
  | .tally, _ => none
  | .listing, (w : Writer) => some w
  | .svg _, (s : Svg.State) => some s.writer
  | .buffered inner, (b : Buffer inner.State) => writer? inner b.inner
  | .normalized inner, (b : Buffer inner.State) => writer? inner b.inner

/-- How many pieces of text were written. -/
def pieces (p : Plan) (s : p.State) : Nat := ((p.writer? s).map fun w => w.written.size).getD 0

/-- All that was written from piece `n` on. -/
def textFrom (p : Plan) (s : p.State) (n : Nat) : String :=
  ((p.writer? s).map fun w => w.textFrom n).getD ""

end Plan

/-! ## Output settings -/

/-- How the output of a program is drawn. -/
structure Config where
  /-- An SVG document in place of a vertex listing; it is always normalized. -/
  svg : Bool
  svgSize : Int
  /-- Whether an SVG document shows the unit circle. -/
  unitCircle : Bool
  /-- Whether a vertex listing is normalized. -/
  normalize : Bool
  deriving DecidableEq, Repr

namespace Config

def default : Config := ⟨false, 1000, false, false⟩

/-- Why settings make no target. -/
inductive Problem where
  | notPositive (size : Int)
  | tooLarge
  deriving DecidableEq, Repr

def Problem.message : Problem → String
  | .notPositive size => "svg_size must be positive, got " ++ toString size
  | .tooLarge => "int too large to convert to float"

def check (c : Config) : Except Problem Unit :=
  if c.svgSize ≤ 0 then .error (.notPositive c.svgSize) else .ok ()

/-- The plan of a picture of a size. -/
def svgPlan (size : Int) (guide : Bool) : Except Problem Plan :=
  match Svg.Canvas.ofSize? size guide with
  | some canvas => .ok (.svg canvas)
  | none => .error .tooLarge

/-- The plan for settings that were checked. -/
def plan (c : Config) : Except Problem Plan :=
  if c.svg then (svgPlan c.svgSize c.unitCircle).map .normalized
  else .ok (if c.normalize then .normalized .listing else .listing)

end Config

end PolarPlot
