import PolarPlot.Number.Binary64
import PolarPlot.Text.Digit

/-!
# Decimal numbers and their reading

A `Decimal` is a signed natural number times a power of ten. `Decimal.toFloat` rounds it once, to
the nearest binary64 number. The readers below turn text into a `Decimal` exactly, so that a number
is rounded a single time however many digits it was written with.
-/

namespace PolarPlot.Number

open Text

/-- The value `digits * 10 ^ exponent`, negated if `negative`. -/
structure Decimal where
  negative : Bool
  digits : Nat
  exponent : Int
  deriving DecidableEq, Repr

/-- The bits of the binary64 number nearest to `digits * 10 ^ exponent`. The first two cases keep
the powers of ten small: `10 ^ 401` is past every finite number, and `2 ^ -1200` rounds to zero. -/
def Decimal.magnitudeBits (digits : Nat) (exponent : Int) : Nat :=
  if digits = 0 then 0
  else if 400 < exponent then infinityBits
  else if digits.log2 + 1 + 3 * exponent < -1200 then 0
  else nearestBits (digits * Nat.pow 10 exponent.toNat) (Nat.pow 10 (-exponent).toNat)

/-- The binary64 number nearest to a decimal; infinite when the decimal is too large. -/
def Decimal.toFloat (d : Decimal) : Float :=
  ofMagnitudeBits d.negative (magnitudeBits d.digits d.exponent)

/-- Reads digits with at most one point among them. -/
def Decimal.ofUnsigned (negative : Bool) (cs : List Char) : Decimal :=
  let whole := cs.takeWhile (· ≠ '.')
  let fraction := (cs.dropWhile (· ≠ '.')).drop 1
  ⟨negative, digitsValue (whole ++ fraction), -(fraction.length : Int)⟩

/-- Reads an optional sign and digits with at most one point among them. -/
def Decimal.ofNumeral : List Char → Decimal
  | '-' :: cs => ofUnsigned true cs
  | '+' :: cs => ofUnsigned false cs
  | cs => ofUnsigned false cs

/-- Drops each underscore that stands between two digits; `none` if one stands elsewhere. -/
def dropUnderscores (cs : List Char) : Option (List Char) :=
  go none cs
where
  go (before : Option Char) : List Char → Option (List Char)
    | [] => some []
    | '_' :: cs =>
      if before.any isDigit && cs.head?.any isDigit then go none cs else none
    | c :: cs => (go (some c) cs).map (c :: ·)

/-- A sign in front of a text, and what follows it. -/
def splitSign : List Char → Bool × List Char
  | '-' :: cs => (true, cs)
  | '+' :: cs => (false, cs)
  | cs => (false, cs)

/-- Reads a whole number: a sign, then at least one digit. -/
def readInteger? (cs : List Char) : Option Int :=
  let (negative, digits) := splitSign cs
  if digits.isEmpty || !digits.all isDigit then none
  else some (if negative then -(digitsValue digits : Int) else digitsValue digits)

/-- Digits with at most one point, and at least one digit. -/
def isNumeral (cs : List Char) : Bool :=
  let whole := cs.takeWhile (· ≠ '.')
  let fraction := (cs.dropWhile (· ≠ '.')).drop 1
  whole.all isDigit && fraction.all isDigit && !(whole ++ fraction).isEmpty

/-- Reads a decimal in ordinary or scientific form. -/
def Decimal.read? (cs : List Char) : Option Decimal :=
  let (negative, body) := splitSign cs
  let mantissa := body.takeWhile fun c => c ≠ 'e' && c ≠ 'E'
  if !isNumeral mantissa then none
  else
    let d := ofUnsigned negative mantissa
    match body.drop mantissa.length with
    | [] => some d
    | _ :: exponent => (readInteger? exponent).map fun e => { d with exponent := d.exponent + e }

/-- Reads a number as people type one: blanks around it, single underscores between digits, digits
of any script, and the words for infinity and for a value that is no number, in any case. -/
def read? (text : String) : Option Float := do
  let cs ← dropUnderscores (trim text.toList)
  let (negative, body) := splitSign cs
  let word := String.ofList (body.map Char.toLower)
  if word = "inf" || word = "infinity" then return if negative then -infinity else infinity
  if word = "nan" then return nan
  let d ← Decimal.read? cs
  return d.toFloat

/-- The longest row of digits that is read as an integer. -/
def integerDigitLimit : Nat := 4300

/-- What is said of an integer with more digits. -/
def tooManyDigits (digits : Nat) : String :=
  "Exceeds the limit (" ++ toString integerDigitLimit ++
    " digits) for integer string conversion: value has " ++ toString digits ++
    " digits; use sys.set_int_max_str_digits() to increase the limit"

/-- Reads an integer as people type one, within `integerDigitLimit`. -/
def readTypedInteger? (text : String) : Option Int := do
  let cs ← dropUnderscores (trim text.toList)
  if integerDigitLimit < (splitSign cs).2.length then none else readInteger? cs

end PolarPlot.Number
