import PolarPlot.Number.Power

/-!
# Functions of any number

The elementary functions on all of binary64. Outside its domain a function fails, and so does a
finite argument whose value is past every finite number. A value that is no number passes through.
-/

namespace PolarPlot.Number

/-- Why a function has no value. -/
inductive MathFault where
  | domain
  | range
  | infinityToInteger
  | nanToInteger
  deriving DecidableEq, Repr

def MathFault.reason : MathFault → String
  | .domain => "math domain error"
  | .range => "math range error"
  | .infinityToInteger => "cannot convert float infinity to integer"
  | .nanToInteger => "cannot convert float NaN to integer"

abbrev Checked : Type := Except MathFault Float

namespace Checked

/-- A function that is given for finite numbers, with its values at infinity. -/
def extend (finite : Float → Checked) (infinite : Float → Checked) (x : Float) : Checked :=
  if x.isNaN then .ok x else if x.isInf then infinite x else finite x

/-- A value that may be past every finite number. -/
def bounded (x : Float) : Checked := if x.isInf then .error .range else .ok x

def outside : Float → Checked := fun _ => .error .domain

def sin : Float → Checked := extend (fun x => .ok (Number.sin x)) outside

def cos : Float → Checked := extend (fun x => .ok (Number.cos x)) outside

def tan : Float → Checked := extend (fun x => .ok (Number.tan x)) outside

def arcsin : Float → Checked :=
  extend (fun x => if 1 < x.abs then .error .domain else .ok (Number.arcsin x)) outside

def arccos : Float → Checked :=
  extend (fun x => if 1 < x.abs then .error .domain else .ok (Number.arccos x)) outside

def arctan : Float → Checked :=
  extend (fun x => .ok (Number.arctan x)) fun x => .ok (if x < 0 then -halfPi else halfPi)

def sinh : Float → Checked := extend (fun x => bounded (Number.sinh x)) .ok

def cosh : Float → Checked := extend (fun x => bounded (Number.cosh x)) fun x => .ok x.abs

def tanh : Float → Checked :=
  extend (fun x => .ok (Number.tanh x)) fun x => .ok (if x < 0 then -1 else 1)

def ln : Float → Checked :=
  extend (fun x => if x ≤ 0 then .error .domain else .ok (Number.ln x))
    fun x => if x < 0 then .error .domain else .ok x

def log10 : Float → Checked :=
  extend (fun x => if x ≤ 0 then .error .domain else .ok (Number.log10 x))
    fun x => if x < 0 then .error .domain else .ok x

def sqrt (x : Float) : Checked := if x < 0 then .error .domain else .ok x.sqrt

/-- Goes through an integer, so that the result is never `-0`. -/
def throughInteger (f : Float → Int) (x : Float) : Checked :=
  if x.isNaN then .error .nanToInteger
  else if x.isInf then .error .infinityToInteger
  else .ok (ofInt (f x))

def ceil : Float → Checked := throughInteger Number.ceil

def floor : Float → Checked := throughInteger Number.floor

/-- The second if it is less, or else the first. -/
def min (a b : Float) : Float := if b < a then b else a

/-- The second if it is greater, or else the first. -/
def max (a b : Float) : Float := if a < b then b else a

/-- Powers of finite numbers. A negative base needs an integer exponent, and its odd powers are
negative. -/
def powFinite (x y : Float) : Checked :=
  let p := parts y
  let negate (v : Float) : Float := if isNegative x && p.isOdd then -v else v
  if y == 0 then .ok 1
  else if x == 0 then
    if p.negative then .error .domain else .ok (negate 0)
  else if x < 0 && !p.isInteger then .error .domain
  else (bounded (powPositive x.abs y)).map negate

/-- Powers. Anything to the power zero is 1, and so is 1 to any power. -/
def pow (x y : Float) : Checked :=
  if x.isNaN then .ok (if y == 0 then 1 else x)
  else if y.isNaN then .ok (if x == 1 then 1 else y)
  else if x.isInf then
    let odd := y.isFinite && (parts y).isOdd
    if 0 < y then .ok (if odd then x else x.abs)
    else if y == 0 then .ok 1
    else .ok (if odd && x < 0 then -0.0 else 0)
  else if y.isInf then
    let a := x.abs
    .ok (if a == 1 then 1 else if (1 < a && 0 < y) || (a < 1 && y < 0) then infinity else 0)
  else powFinite x y

end Checked

end PolarPlot.Number
