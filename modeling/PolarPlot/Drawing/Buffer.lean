import PolarPlot.Drawing.Target

/-!
# Buffered targets

A buffered target keeps its commands and gives them to another target when it is closed. A
normalized target does the same, but first scales all radii so that the largest has length 1.
-/

namespace PolarPlot

/-- The commands that came so far, and the state of the target that will get them. -/
structure Buffer (σ : Type) where
  items : Array Command
  inner : σ

namespace Buffer

variable {σ α : Type}

def initial (inner : σ) : Buffer σ := ⟨#[], inner⟩

/-- Does a step on the inner target. -/
def onInner (act : Action σ α) : Action (Buffer σ) α :=
  Action.on Buffer.inner (fun s b => { b with inner := s }) act

def push (c : Command) : Action (Buffer σ) Unit :=
  modify fun b => { b with items := b.items.push c }

/-- Gives all commands to the inner target, then closes it. -/
def replayAll (target : Target σ) : Action (Buffer σ) Unit := do
  let items := (← get).items
  onInner do
    target.replay items.toList
    target.close

/-- The first of the largest items. An item that cannot be compared never takes the lead, nor loses
it. -/
def largest : Float → List Float → Float
  | lead, [] => lead
  | lead, x :: xs => largest (if lead < x then x else lead) xs

/-- What all radii are divided by: the largest of their lengths if there is one above zero. -/
def factor (items : List Command) : Float :=
  let lead := match items.map fun c => c.r.abs with
    | [] => 0
    | x :: xs => largest x xs
  if 0 < lead then lead else 1

/-- The value, or the end of `[-1, 1]` that it is past; what cannot be compared becomes `-1`. -/
def clamp (x : Float) : Float :=
  let y := if -1 < x then x else -1
  if y < 1 then y else 1

/-- The command with its radius divided by a factor. -/
def rescale (factor : Float) (c : Command) : Command := c.withRadius (clamp (c.r / factor))

/-- Scales all radii by the factor of the buffer. -/
def normalize : Action (Buffer σ) Unit :=
  modify fun b =>
    let f := factor b.items.toList
    { b with items := b.items.map (rescale f) }

end Buffer

namespace Target

variable {σ : Type}

/-- Keeps commands until it is closed. -/
def buffered (target : Target σ) : Target (Buffer σ) where
  accept := Buffer.push
  close := Buffer.replayAll target

/-- Keeps commands until it is closed, and scales their radii then. -/
def normalized (target : Target σ) : Target (Buffer σ) where
  accept := Buffer.push
  close := do
    Buffer.normalize
    Buffer.replayAll target

end Target

end PolarPlot
