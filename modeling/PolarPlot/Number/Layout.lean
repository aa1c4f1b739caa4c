import PolarPlot.Number.Shortest

/-!
# Numbers as text

A `Layout` says how decimal digits are set out: where positional form ends, and when a whole number
shows a point. `plainText`, `generalText` and `fixedText` are the three forms in which the library
writes a number.
-/

namespace PolarPlot.Number

/-- How decimal digits are set out as text. -/
structure Layout where
  /-- The least exponent that is written in positional form. -/
  least : Int
  /-- The first exponent that is too large for positional form. -/
  limit : Int
  /-- Whether a whole number in positional form ends in `.0`. -/
  wholePoint : Bool
  /-- Whether a single digit in scientific form is followed by `.0`. -/
  leadPoint : Bool

/-- Positional form from `0.0001` up to sixteen digits, always with a point. -/
def Layout.plain : Layout := ⟨-4, 16, true, false⟩

/-- Positional form from `0.0001` up to six digits, with a point only before a fraction. -/
def Layout.general : Layout := ⟨-4, 6, false, false⟩

/-- A row of zeros. -/
def zeroRow (n : Nat) : String := String.ofList (List.replicate n '0')

/-- The exponent with its sign and at least two digits. -/
def exponentText (e : Int) : String :=
  let digits := toString e.natAbs
  (if e < 0 then "-" else "+") ++ (if digits.length < 2 then "0" ++ digits else digits)

/-- The text of a decimal whose digits do not end in zero. -/
def Layout.text (l : Layout) (d : Decimal) : String :=
  let sign := if d.negative then "-" else ""
  let digits := toString d.digits
  let count := digits.length
  let order : Int := if d.digits = 0 then 0 else d.exponent + count - 1
  let body :=
    if order < l.least ∨ l.limit ≤ order then
      let lead := String.ofList (digits.toList.take 1)
      let rest := String.ofList (digits.toList.drop 1)
      let point := if rest ≠ "" then "." ++ rest else if l.leadPoint then ".0" else ""
      lead ++ point ++ "e" ++ exponentText order
    else if order < 0 then
      "0." ++ zeroRow (-order - 1).toNat ++ digits
    else if count ≤ order.toNat + 1 then
      digits ++ zeroRow (order.toNat + 1 - count) ++ if l.wholePoint then ".0" else ""
    else
      String.ofList (digits.toList.take (order.toNat + 1)) ++ "." ++
        String.ofList (digits.toList.drop (order.toNat + 1))
  sign ++ body

/-- The texts of the infinities and of a value that is no number, around the text of finite ones. -/
def withSpecial (finite : Float → String) (x : Float) : String :=
  if x.isNaN then "nan" else if x.isInf then (if x < 0 then "-inf" else "inf") else finite x

/-- The shortest text that reads back as the same number. -/
def plainText : Float → String := withSpecial fun x => Layout.plain.text (shortest x)

/-- Six significant digits. -/
def generalText : Float → String := withSpecial fun x => Layout.general.text (rounded 6 x)

/-- A fixed count of decimal places. The sign stays when all digits are zero. -/
def fixedText (places : Nat) : Float → String :=
  withSpecial fun x =>
    let p := parts x
    let digits := toString (roundDiv (p.num * Nat.pow 10 places) p.den)
    let digits := zeroRow (places + 1 - digits.length) ++ digits
    let whole := digits.toList.take (digits.length - places)
    let fraction := digits.toList.drop (digits.length - places)
    (if p.negative then "-" else "") ++ String.ofList whole ++
      if places = 0 then "" else "." ++ String.ofList fraction

end PolarPlot.Number
