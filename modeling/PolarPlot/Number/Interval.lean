import PolarPlot.Number.Binary64

/-!
# Fixed-point intervals

An interval holds two integers, read as multiples of `2 ^ -p` for a precision `p` that the caller
keeps. Each operation rounds its lower end down and its upper end up. So if the arguments enclose
some real numbers, the result encloses the sum, product, ... of those numbers, and no error analysis
is needed beyond that.
-/

namespace PolarPlot.Number

/-- The real numbers from `lo * 2 ^ -p` to `hi * 2 ^ -p`. -/
structure Interval where
  lo : Int
  hi : Int
  deriving DecidableEq, Repr

namespace Interval

/-- The quotient rounded up. -/
def ceilDiv (a b : Int) : Int := -(-a / b)

/-- Encloses `num / den`. -/
def ofRatio (p : Nat) (num : Int) (den : Nat) : Interval :=
  ⟨num * Nat.pow 2 p / den, ceilDiv (num * Nat.pow 2 p) den⟩

def one (p : Nat) : Interval := ⟨Nat.pow 2 p, Nat.pow 2 p⟩

def add (a b : Interval) : Interval := ⟨a.lo + b.lo, a.hi + b.hi⟩

def neg (a : Interval) : Interval := ⟨-a.hi, -a.lo⟩

def sub (a b : Interval) : Interval := ⟨a.lo - b.hi, a.hi - b.lo⟩

/-- Multiplies by an exact integer. -/
def scale (k : Int) (a : Interval) : Interval :=
  if 0 ≤ k then ⟨k * a.lo, k * a.hi⟩ else ⟨k * a.hi, k * a.lo⟩

/-- Divides by an exact positive number. -/
def shrink (a : Interval) (n : Nat) : Interval := ⟨a.lo / n, ceilDiv a.hi n⟩

/-- Drops `n` bits of precision. -/
def coarsen (a : Interval) (n : Nat) : Interval := ⟨a.lo >>> n, -((-a.hi) >>> n)⟩

def mul (p : Nat) (a b : Interval) : Interval :=
  let x := a.lo * b.lo
  let y := a.lo * b.hi
  let z := a.hi * b.lo
  let w := a.hi * b.hi
  coarsen ⟨min (min x y) (min z w), max (max x y) (max z w)⟩ p

/-- Divides by an interval of positive numbers. -/
def div (p : Nat) (a b : Interval) : Interval :=
  let lo := a.lo * Nat.pow 2 p
  let hi := a.hi * Nat.pow 2 p
  ⟨min (lo / b.lo) (lo / b.hi), max (ceilDiv hi b.lo) (ceilDiv hi b.hi)⟩

/-- One unit added at each end. -/
def widen (a : Interval) : Interval := ⟨a.lo - 1, a.hi + 1⟩

end Interval

/-- Newton's iteration for the integer square root, from a start that is not below the root. -/
def squareRootFrom : Nat → Nat → Nat → Nat
  | 0, _, guess => guess
  | fuel + 1, n, guess =>
    let next := (guess + n / guess) / 2
    if next < guess then squareRootFrom fuel n next else guess

/-- The largest natural number whose square is not above `n`. -/
def squareRoot (n : Nat) : Nat :=
  if n = 0 then 0 else squareRootFrom (n.log2 + 2) n (Nat.pow 2 (n.log2 / 2 + 1))

namespace Interval

/-- The square root of an interval of nonnegative numbers. -/
def sqrt (p : Nat) (a : Interval) : Interval :=
  ⟨squareRoot (a.lo.toNat * Nat.pow 2 p), squareRoot (a.hi.toNat * Nat.pow 2 p) + 1⟩

/-- Sums a series. `next k t` is the term after the `k`-th term `t`, and `share k t` is what the
`k`-th term adds to the sum. The sum stops at a term of at most one unit; where each further share
is at most half the one before, all that is left out is less than that unit, and `widen` covers
it. -/
def sumSeries (next share : Nat → Interval → Interval) : Nat → Nat → Interval → Interval → Interval
  | 0, _, _, sum => sum
  | fuel + 1, k, t, sum =>
    let sum := sum.add (share k t)
    if -1 ≤ t.lo ∧ t.hi ≤ 1 then sum.widen
    else sumSeries next share fuel (k + 1) (next k t) sum

end Interval

end PolarPlot.Number
