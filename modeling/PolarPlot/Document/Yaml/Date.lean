import PolarPlot.Text.Digit

/-!
# Dates

A date, alone or with a time of day and a zone. `Date.text?` checks the parts of a date in the order
in which they count, and writes it with all its digits.
-/

namespace PolarPlot.Document.Yaml

open Text

structure TimeOfDay where
  hour : Nat
  minute : Nat
  second : Nat
  /-- The digits after the point of the seconds. -/
  fraction : List Char
  /-- How far the zone is from the mean time, in minutes. -/
  zone : Option Int
  deriving DecidableEq, Repr

structure Date where
  year : Nat
  month : Nat
  day : Nat
  time : Option TimeOfDay
  deriving DecidableEq, Repr

/-- What is wrong with a date. -/
inductive DateFault where
  | year (n : Nat)
  | month
  | day
  | hour
  | minute
  | second
  /-- A zone so many minutes away. -/
  | zone (minutes : Int)
  deriving DecidableEq, Repr

/-! ## Reading -/

def isDecimal (c : Char) : Bool := '0' ≤ c && c ≤ '9'

def isBlankChar (c : Char) : Bool := c = ' ' || c = '\t'

/-- Reads digits, at least `least` and at most `most` of them. -/
def readDigits (least most : Nat) (cs : List Char) : Option (Nat × List Char) :=
  let n := min most (cs.takeWhile isDecimal).length
  if n < least then none else some (digitsValue (cs.take n), cs.drop n)

def dropChar (p : Char → Bool) : List Char → Option (List Char)
  | c :: cs => if p c then some cs else none
  | [] => none

/-- Reads a zone up to the end: nothing, `Z`, or hours with a sign and maybe minutes. -/
def readZone (cs : List Char) : Option (Option Int) :=
  match cs.dropWhile isBlankChar with
  | [] => if cs.isEmpty then some none else none
  | ['Z'] => some (some 0)
  | sign :: rest => do
    guard (sign = '+' || sign = '-')
    let (hours, rest) ← readDigits 1 2 rest
    let (minutes, rest) ←
      if rest.isEmpty then some (0, []) else readDigits 2 2 (← dropChar (· = ':') rest)
    guard rest.isEmpty
    let total : Int := hours * 60 + minutes
    return some (if sign = '-' then -total else total)

/-- Reads a time of day up to the end. -/
def readTime (cs : List Char) : Option TimeOfDay := do
  let (hour, cs) ← readDigits 1 2 cs
  let (minute, cs) ← readDigits 2 2 (← dropChar (· = ':') cs)
  let (second, cs) ← readDigits 2 2 (← dropChar (· = ':') cs)
  let (fraction, cs) := match cs with
    | '.' :: cs => (cs.takeWhile isDecimal, cs.dropWhile isDecimal)
    | cs => ([], cs)
  return ⟨hour, minute, second, fraction, ← readZone cs⟩

/-- Reads a date. -/
def Date.read? (cs : List Char) : Option Date := do
  let (year, rest) ← readDigits 4 4 cs
  let (month, rest) ← readDigits 1 2 (← dropChar (· = '-') rest)
  let (day, rest) ← readDigits 1 2 (← dropChar (· = '-') rest)
  if rest.isEmpty then return ⟨year, month, day, none⟩
  else
    let rest ← (dropChar (fun c => c = 'T' || c = 't') rest).or
      ((dropChar isBlankChar rest).map (·.dropWhile isBlankChar))
    return ⟨year, month, day, some (← readTime rest)⟩

/-- Whether a text looks like a date. Months and days of one digit need a time of day after them. -/
def isDate (cs : List Char) : Bool :=
  (Date.read? cs).any fun d => d.time.isSome || cs.length = 10

/-! ## Writing -/

def isLeap (year : Nat) : Bool := year % 4 = 0 && (year % 100 ≠ 0 || year % 400 = 0)

def monthLength (year month : Nat) : Nat :=
  if month = 2 then if isLeap year then 29 else 28
  else if month = 4 || month = 6 || month = 9 || month = 11 then 30
  else 31

/-- The minutes of a day. A zone is nearer than that. -/
def dayMinutes : Nat := 1440

/-- A number with at least so many digits. -/
def padded (width n : Nat) : String :=
  let digits := toString n
  String.ofList (List.replicate (width - digits.length) '0') ++ digits

def TimeOfDay.fault? (t : TimeOfDay) : Option DateFault :=
  if 23 < t.hour then some .hour
  else if 59 < t.minute then some .minute
  else if 59 < t.second then some .second
  else none

/-- The first thing wrong with a date. The zone comes first. -/
def Date.fault? (d : Date) : Option DateFault :=
  let zone := (d.time.bind (·.zone)).getD 0
  if dayMinutes ≤ zone.natAbs then some (.zone zone)
  else if d.year = 0 then some (.year d.year)
  else if d.month = 0 || 12 < d.month then some .month
  else if d.day = 0 || monthLength d.year d.month < d.day then some .day
  else d.time.bind (·.fault?)

/-- The time of day; of its fraction six digits count. -/
def TimeOfDay.text (t : TimeOfDay) : String :=
  let fraction := (t.fraction ++ List.replicate 6 '0').take 6
  let zone := match t.zone with
    | none => ""
    | some z =>
      (if z < 0 then "-" else "+") ++ padded 2 (z.natAbs / 60) ++ ":" ++ padded 2 (z.natAbs % 60)
  padded 2 t.hour ++ ":" ++ padded 2 t.minute ++ ":" ++ padded 2 t.second ++
    (if fraction.all (· = '0') then "" else "." ++ String.ofList fraction) ++ zone

/-- A date that is right, written out. -/
def Date.text? (d : Date) : Except DateFault String :=
  match d.fault? with
  | some fault => .error fault
  | none =>
    .ok (padded 4 d.year ++ "-" ++ padded 2 d.month ++ "-" ++ padded 2 d.day ++
      match d.time with
      | none => ""
      | some t => " " ++ t.text)

/-- A span of minutes as whole days, counted down, and the seconds left. -/
def spanText (minutes : Int) : String :=
  let days := minutes.fdiv dayMinutes
  let seconds := minutes.fmod dayMinutes * 60
  "datetime.timedelta(days=" ++ toString days ++
    (if seconds = 0 then "" else ", seconds=" ++ toString seconds) ++ ")"

def DateFault.message : DateFault → String
  | .year n => "year " ++ toString n ++ " is out of range"
  | .month => "month must be in 1..12"
  | .day => "day is out of range for month"
  | .hour => "hour must be in 0..23"
  | .minute => "minute must be in 0..59"
  | .second => "second must be in 0..59"
  | .zone minutes =>
    "offset must be a timedelta strictly between -timedelta(hours=24) and timedelta(hours=24), " ++
      "not " ++ spanText minutes ++ "."

end PolarPlot.Document.Yaml
