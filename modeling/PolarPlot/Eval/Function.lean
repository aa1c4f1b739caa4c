import PolarPlot.Drawing.Target
import PolarPlot.Number.Checked

/-!
# Built-in functions
-/

namespace PolarPlot

open Number

inductive Function where
  | cos
  | sin
  | tan
  | acos
  | asin
  | atan
  | cosh
  | sinh
  | tanh
  | abs
  | ceil
  | floor
  | sqrt
  | ln
  | log10
  | pow
  | min
  | max
  | render
  | renderArc
  deriving DecidableEq, Repr

namespace Function

/-- All functions, by name. -/
def all : List Function :=
  [.abs, .acos, .asin, .atan, .ceil, .cos, .cosh, .floor, .ln, .log10, .max, .min, .pow, .render,
   .renderArc, .sin, .sinh, .sqrt, .tan, .tanh]

def name : Function → String
  | .cos => "cos"
  | .sin => "sin"
  | .tan => "tan"
  | .acos => "acos"
  | .asin => "asin"
  | .atan => "atan"
  | .cosh => "cosh"
  | .sinh => "sinh"
  | .tanh => "tanh"
  | .abs => "abs"
  | .ceil => "ceil"
  | .floor => "floor"
  | .sqrt => "sqrt"
  | .ln => "ln"
  | .log10 => "log10"
  | .pow => "pow"
  | .min => "min"
  | .max => "max"
  | .render => "render"
  | .renderArc => "render_arc"

def arity : Function → Nat
  | .pow | .min | .max | .render => 2
  | .renderArc => 3
  | _ => 1

def ofName? (name : String) : Option Function := all.find? (·.name == name)

/-- The function with a name, or the error that there is none. -/
def find (name : Label) : Except Cause Function :=
  let found := match name with
    | .word text => ofName? text
    | .value _ _ _ => none
  match found with
  | some f => .ok f
  | none => .error (.noSuchFunction name)

/-- The value of a function of one number. -/
def unary : Function → Float → Checked
  | .cos => Checked.cos
  | .sin => Checked.sin
  | .tan => Checked.tan
  | .acos => Checked.arccos
  | .asin => Checked.arcsin
  | .atan => Checked.arctan
  | .cosh => Checked.cosh
  | .sinh => Checked.sinh
  | .tanh => Checked.tanh
  | .abs => fun x => .ok x.abs
  | .ceil => Checked.ceil
  | .floor => Checked.floor
  | .sqrt => Checked.sqrt
  | .ln => Checked.ln
  | .log10 => Checked.log10
  | _ => .ok

variable {σ : Type}

/-- The value of a calculation, or the error that it has none. -/
def calculated (f : Function) (value : Checked) : Action σ Float :=
  match value with
  | .ok x => pure x
  | .error e => throw (.math f.name e.reason)

/-- Applies a function. The two that draw give a command to the target, and their value is 0. -/
def apply (target : Target σ) (f : Function) (args : List Float) : Action σ Float :=
  if args.length ≠ f.arity then throw (.wrongArity f.name f.arity args.length)
  else
    match f, args with
    | .render, [r, theta] => do
      target.accept (.vertex r theta)
      return 0
    | .renderArc, [r, theta, sweep] => do
      target.accept (.arc r theta sweep)
      return 0
    | .pow, [x, y] => calculated f (Checked.pow x y)
    | .min, [x, y] => pure (Checked.min x y)
    | .max, [x, y] => pure (Checked.max x y)
    | f, x :: _ => calculated f (f.unary x)
    | _, [] => pure 0

/-- Calls a function by name with the values of its arguments. -/
def dispatch (target : Target σ) (name : Label) (args : List Float) : Action σ Float :=
  match find name with
  | .ok f => f.apply target args
  | .error e => throw e

end Function

end PolarPlot
