import PolarPlot.Document.Datum
import PolarPlot.Document.Yaml.Date

/-!
# Plain scalars

A scalar without quotes is a text unless it looks like something else: a yes or no, nothing, a
number, a date, or one of two signs with a meaning of their own.
-/

namespace PolarPlot.Document.Yaml

open Number Text

/-- What a scalar without quotes is taken for. -/
inductive Tag where
  | bool
  | float
  | int
  | merge
  | null
  | timestamp
  | value
  | str
  deriving DecidableEq, Repr

/-- Characters that end a line. -/
def isBreak (c : Char) : Bool := c = '\n' || c = '\x85' || c = '\u2028' || c = '\u2029'

/-- Blanks, breaks and NUL: what may follow a sign for it to count as a sign. -/
def endsSign (c : Char) : Bool :=
  c = '\x00' || c = ' ' || c = '\t' || c = '\r' || isBreak c

/-- A digit or an underscore, which may stand among digits. -/
def isSpaced (c : Char) : Bool := isDecimal c || c = '_'

/-- The texts that mean yes, and those that mean no. -/
def yesWords : List String :=
  ["yes", "Yes", "YES", "true", "True", "TRUE", "on", "On", "ON"]

@[inherit_doc yesWords]
def noWords : List String :=
  ["no", "No", "NO", "false", "False", "FALSE", "off", "Off", "OFF"]

def nullWords : List String := ["", "~", "null", "Null", "NULL"]

/-- A row of digits and underscores that starts with a digit. -/
def isSpacedNumber : List Char → Bool
  | c :: cs => isDecimal c && cs.all isSpaced
  | [] => false

/-- The parts of a text between colons. -/
def splitColons (cs : List Char) : List (List Char) :=
  cs.foldr (fun c parts =>
    match parts with
    | part :: rest => if c = ':' then [] :: part :: rest else (c :: part) :: rest
    | [] => [[c]]) [[]]

/-- One or two digits below sixty. -/
def isSixtieth : List Char → Bool
  | [a] => isDecimal a
  | [a, b] => '0' ≤ a && a ≤ '5' && isDecimal b
  | _ => false

/-- An empty text, or an exponent with its mark and sign. -/
def isExponent : List Char → Bool
  | [] => true
  | e :: sign :: digits =>
    (e = 'e' || e = 'E') && (sign = '+' || sign = '-') && !digits.isEmpty && digits.all isDecimal
  | _ => false

/-- The whole part, the fraction with its point, and the exponent of a decimal. -/
def splitDecimal (cs : List Char) : List Char × List Char × List Char :=
  let whole := cs.takeWhile isSpaced
  let rest := cs.drop whole.length
  match rest with
  | '.' :: rest =>
    let fraction := rest.takeWhile isSpaced
    (whole, '.' :: fraction, rest.drop fraction.length)
  | _ => (whole, [], rest)

/-- Numbers to base sixty: a spaced number, then sixtieths after colons. -/
def isSexagesimal (first : List Char → Bool) (cs : List Char) : Bool :=
  match splitColons cs with
  | whole :: sixtieths => first whole && !sixtieths.isEmpty && sixtieths.all isSixtieth
  | [] => false

def isFloat (cs : List Char) : Bool :=
  let (_, body) := splitSign cs
  let (whole, fraction, exponent) := splitDecimal body
  let sixty := body.takeWhile (· ≠ '.')
  let afterSixty := body.drop sixty.length
  (isSpacedNumber whole && !fraction.isEmpty && isExponent exponent) ||
    (whole.isEmpty && cs.head? = some '.' && isSpacedNumber (fraction.drop 1) &&
      isExponent exponent) ||
    (isSexagesimal isSpacedNumber sixty && !afterSixty.isEmpty &&
      (afterSixty.drop 1).all isSpaced) ||
    [".inf", ".Inf", ".INF"].contains (String.ofList body) ||
    [".nan", ".NaN", ".NAN"].contains (String.ofList cs)

/-- A spaced number that does not start with a zero. -/
def isCounting : List Char → Bool
  | c :: cs => isDecimal c && c ≠ '0' && cs.all isSpaced
  | [] => false

def isHex (c : Char) : Bool := isDecimal c || ('a' ≤ c && c ≤ 'f') || ('A' ≤ c && c ≤ 'F')

def isInt (cs : List Char) : Bool :=
  let (_, body) := splitSign cs
  (match body with
    | ['0'] => true
    | '0' :: 'b' :: digits =>
      !digits.isEmpty && digits.all fun c => c = '0' || c = '1' || c = '_'
    | '0' :: 'x' :: digits => !digits.isEmpty && digits.all fun c => isHex c || c = '_'
    | '0' :: digits => digits.all fun c => ('0' ≤ c && c ≤ '7') || c = '_'
    | _ => isCounting body) ||
    isSexagesimal isCounting body

/-- What a scalar without quotes is taken for. -/
def resolve (s : String) : Tag :=
  let cs := s.toList
  if yesWords.contains s || noWords.contains s then .bool
  else if isFloat cs then .float
  else if isInt cs then .int
  else if s = "<<" then .merge
  else if nullWords.contains s then .null
  else if isDate cs then .timestamp
  else if s = "=" then .value
  else .str

/-! ## Values -/

/-- The number that digits spell to a base. -/
def digitsToBase (base : Nat) (cs : List Char) : Nat :=
  cs.foldl (fun n c =>
    let d := if isDecimal c then c.toNat - '0'.toNat else c.toLower.toNat - 'a'.toNat + 10
    n * base + d) 0

/-- Why a scalar, or a document, has no value. -/
inductive Fault where
  /-- A character that no text may hold. -/
  | unprintable
  /-- Characters that make no token. -/
  | badToken
  /-- A token where it cannot stand. -/
  | misplaced
  /-- A name for a value that has none, or two. -/
  | badReference
  /-- A node that stands for no value. -/
  | noValue
  /-- A text, here in quotes, that is no integer to a base. -/
  | notInteger (base : Nat) (shown : String)
  /-- A text, here in quotes, that is no number. -/
  | notNumber (shown : String)
  /-- No text where a number was to be. -/
  | emptyNumber
  /-- A text, here in quotes, that is no word for yes or no. -/
  | notBool (shown : String)
  /-- A text that is no date. -/
  | notDate
  /-- An integer of more digits than are read. -/
  | tooLong (digits : Nat)
  | date (fault : DateFault)
  deriving DecidableEq, Repr

def Fault.message : Fault → String
  | .unprintable => "the text holds a character that cannot be read"
  | .badToken => "the text cannot be split into tokens"
  | .misplaced => "a token stands where it cannot"
  | .badReference => "a name stands for no value"
  | .noValue => "a node stands for no value"
  | .notInteger base shown =>
    "invalid literal for int() with base " ++ toString base ++ ": " ++ shown
  | .notNumber shown => "could not convert string to float: " ++ shown
  | .emptyNumber => "a number has no text"
  | .notBool shown => shown
  | .notDate => "a text is no date"
  | .tooLong digits => tooManyDigits digits
  | .date fault => fault.message

/-- The number that digits spell to a base. Too many decimal digits are not read. -/
def digitsToBase? (base : Nat) (cs : List Char) : Except Fault Nat :=
  let isDigitOf (c : Char) : Bool := isHex c && digitsToBase 16 [c] < base
  if cs.isEmpty || !cs.all isDigitOf then .error (.notInteger base (quoted (String.ofList cs)))
  else if base = 10 && integerDigitLimit < cs.length then .error (.tooLong cs.length)
  else .ok (digitsToBase base cs)

/-- The integer that a scalar spells, in base two, eight, ten, sixteen or sixty. -/
def intValue? (cs : List Char) : Except Fault Int := do
  let cs := cs.filter (· ≠ '_')
  if cs.isEmpty then throw .emptyNumber
  let (negative, body) := splitSign cs
  let magnitude ← match body with
    | ['0'] => .ok 0
    | '0' :: 'b' :: digits => digitsToBase? 2 digits
    | '0' :: 'x' :: digits => digitsToBase? 16 digits
    | '0' :: _ => digitsToBase? 8 body
    | _ => (splitColons body).foldlM (fun n part => (n * 60 + ·) <$> digitsToBase? 10 part) 0
  return if negative then -(magnitude : Int) else magnitude

/-- The number that a scalar spells, as a decimal or to base sixty. -/
def floatValue? (cs : List Char) : Except Fault Float := do
  let cs := cs.filter (· ≠ '_')
  if cs.isEmpty then throw .emptyNumber
  let (negative, body) := splitSign cs
  let word := String.ofList (body.map Char.toLower)
  let magnitude ←
    if word = ".inf" then .ok infinity
    else if word = ".nan" then .ok nan
    else
      let parts ← (splitColons body).mapM fun part =>
        match Number.read? (String.ofList part) with
        | some x => .ok x
        | none => .error (Fault.notNumber (quoted (String.ofList (part.map Char.toLower))))
      match parts with
      | [x] => .ok x
      | _ =>
        .ok (parts.foldr (fun x (sum, base) => (sum + x * base, base * 60))
          ((0 : Float), (1 : Float))).1
  return if negative then -magnitude else magnitude

/-- The date that a scalar spells. -/
def dateValue? (cs : List Char) : Except Fault Scalar :=
  match Date.read? cs with
  | some d => (d.text?.map Scalar.date).mapError .date
  | none => .error .notDate

/-- The value of a scalar without quotes. -/
def plainValue? (s : String) : Except Fault Scalar :=
  match resolve s with
  | .bool => .ok (.bool (yesWords.contains s))
  | .float => Scalar.num <$> floatValue? s.toList
  | .int => Scalar.int <$> intValue? s.toList
  | .null => .ok .null
  | .timestamp => dateValue? s.toList
  | .merge | .value => .error .noValue
  | .str => .ok (.str s)

/-- The value of a scalar that says by its tag what it is. -/
def taggedValue? (name s : String) : Except Fault Scalar :=
  match name with
  | "str" => .ok (.str s)
  | "null" => .ok .null
  | "bool" =>
    let word := s.map Char.toLower
    if yesWords.contains word then .ok (.bool true)
    else if noWords.contains word then .ok (.bool false)
    else .error (.notBool (quoted word))
  | "int" => Scalar.int <$> intValue? s.toList
  | "float" => Scalar.num <$> floatValue? s.toList
  | "timestamp" => dateValue? s.toList
  | _ => .error .noValue

end PolarPlot.Document.Yaml
