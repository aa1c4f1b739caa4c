import PolarPlot.Document.Datum
import PolarPlot.Text.Lines

/-!
# Reading JSON

The reader takes the JSON of data interchange and three words more: `NaN`, `Infinity` and
`-Infinity`. Whole numbers stay exact. Of a repeated key the last value counts. An error says what
was missing and at which character.
-/

namespace PolarPlot.Document.Json

open Number Text

inductive Problem where
  | value
  | comma
  | colon
  | key
  | extra
  | unterminated
  | escape
  | unicodeEscape
  | control
  | byteOrderMark
  /-- An integer of more digits than are read. -/
  | tooLong (digits : Nat)
  deriving DecidableEq, Repr

structure Error where
  problem : Problem
  offset : Nat
  deriving DecidableEq, Repr

def Problem.text : Problem → String
  | .value => "Expecting value"
  | .comma => "Expecting ',' delimiter"
  | .colon => "Expecting ':' delimiter"
  | .key => "Expecting property name enclosed in double quotes"
  | .extra => "Extra data"
  | .unterminated => "Unterminated string starting at"
  | .escape => "Invalid \\escape"
  | .unicodeEscape => "Invalid \\uXXXX escape"
  | .control => "Invalid control character at"
  | .byteOrderMark => "Unexpected UTF-8 BOM (decode using utf-8-sig)"
  | .tooLong digits => tooManyDigits digits

def Error.message (e : Error) (text : List Char) : String :=
  match e.problem with
  | .tooLong _ => e.problem.text
  | _ =>
    let (line, column) := lineColumn text e.offset
    e.problem.text ++ ": line " ++ toString line ++ " column " ++ toString column ++ " (char " ++
      toString e.offset ++ ")"

/-- What is still to be read, and how many characters were read before it. -/
structure Place where
  rest : List Char
  offset : Nat
  deriving DecidableEq, Repr

abbrev Result (α : Type) : Type := Except Error (α × Place)

def Place.drop (p : Place) (n : Nat) : Place := ⟨p.rest.drop n, p.offset + n⟩

def fail {α : Type} (problem : Problem) (p : Place) : Result α := .error ⟨problem, p.offset⟩

def isSpace (c : Char) : Bool := c = ' ' || c = '\t' || c = '\n' || c = '\r'

def Place.skipSpace (p : Place) : Place := p.drop (p.rest.takeWhile isSpace).length

/-! ## Strings -/

def hexDigit? (c : Char) : Option Nat :=
  if '0' ≤ c ∧ c ≤ '9' then some (c.toNat - '0'.toNat)
  else if 'a' ≤ c ∧ c ≤ 'f' then some (c.toNat - 'a'.toNat + 10)
  else if 'A' ≤ c ∧ c ≤ 'F' then some (c.toNat - 'A'.toNat + 10)
  else none

/-- The number that four hexadecimal digits spell, if more text follows them. -/
def hexFour? : List Char → Option Nat
  | a :: b :: c :: d :: _ :: _ => do
    return (((← hexDigit? a) * 16 + (← hexDigit? b)) * 16 + (← hexDigit? c)) * 16 + (← hexDigit? d)
  | _ => none

/-- The character that a letter after a backslash stands for. -/
def simpleEscape? : Char → Option Char
  | '"' => some '"'
  | '\\' => some '\\'
  | '/' => some '/'
  | 'b' => some '\x08'
  | 'f' => some '\x0c'
  | 'n' => some '\n'
  | 'r' => some '\r'
  | 't' => some '\t'
  | _ => none

def isHighSurrogate (n : Nat) : Bool := 0xd800 ≤ n && n < 0xdc00

def isLowSurrogate (n : Nat) : Bool := 0xdc00 ≤ n && n < 0xe000

/-- Reads an escape from the `u` on, and gives its code. Two escapes may make one character. -/
def readUnicode (p : Place) : Result Nat :=
  match hexFour? (p.rest.drop 1) with
  | none => fail .unicodeEscape p
  | some high =>
    let after := p.drop 5
    match after.rest with
    | '\\' :: 'u' :: rest =>
      if isHighSurrogate high && 5 ≤ rest.length then
        match hexFour? rest with
        | none => fail .unicodeEscape (after.drop 1)
        | some low =>
          if isLowSurrogate low then
            .ok (0x10000 + (high - 0xd800) * 0x400 + (low - 0xdc00), after.drop 6)
          else .ok (high, after)
      else .ok (high, after)
    | _ => .ok (high, after)

/-- Reads the codes of a string up to the quote that ends it. `start` is where it began. -/
def readCodes (start : Nat) : Nat → Place → List Nat → Result (List Nat)
  | 0, _, _ => .error ⟨.unterminated, start⟩
  | fuel + 1, p, seen =>
    match p.rest with
    | [] => .error ⟨.unterminated, start⟩
    | '"' :: _ => .ok (seen.reverse, p.drop 1)
    | ['\\'] => .error ⟨.unterminated, start⟩
    | '\\' :: 'u' :: _ =>
      match readUnicode (p.drop 1) with
      | .error e => .error e
      | .ok (code, p) => readCodes start fuel p (code :: seen)
    | '\\' :: c :: _ =>
      match simpleEscape? c with
      | none => fail .escape p
      | some c => readCodes start fuel (p.drop 2) (c.toNat :: seen)
    | c :: _ =>
      if c.toNat < 0x20 then fail .control p
      else readCodes start fuel (p.drop 1) (c.toNat :: seen)

/-- Reads a string from its opening quote on. -/
def readString (p : Place) : Result (List Nat) :=
  readCodes p.offset (p.rest.length + 1) (p.drop 1) []

/-- The text with some codes, as far as they stand for characters. -/
def textScalar (codes : List Nat) : Scalar :=
  if codes.any isSurrogate then .rough codes else .str (String.ofList (codes.map codeChar))

/-! ## Numbers -/

def isDecimal (c : Char) : Bool := '0' ≤ c && c ≤ '9'

def digitRun (cs : List Char) : List Char := cs.takeWhile isDecimal

/-- The whole part of a number: a zero, or digits that do not start with one. -/
def wholePart : List Char → List Char
  | '0' :: _ => ['0']
  | cs => digitRun cs

/-- The point and the digits after it, if there are any. -/
def fractionPart : List Char → List Char
  | '.' :: cs => if (digitRun cs).isEmpty then [] else '.' :: digitRun cs
  | _ => []

/-- The exponent with its mark, if it has a digit. -/
def exponentPart : List Char → List Char
  | c :: cs =>
    if c = 'e' || c = 'E' then
      let sign := cs.takeWhile (fun c => c = '+' || c = '-') |>.take 1
      let digits := digitRun (cs.drop sign.length)
      if digits.isEmpty then [] else c :: sign ++ digits
    else []
  | [] => []

/-- Reads the longest number at a place. Without a fraction and an exponent it is an integer. -/
def readNumber (p : Place) : Result Scalar :=
  let sign := if p.rest.head? = some '-' then ['-'] else []
  let cs := p.rest.drop sign.length
  let whole := wholePart cs
  let fraction := fractionPart (cs.drop whole.length)
  let exponent := exponentPart (cs.drop (whole.length + fraction.length))
  let text := sign ++ whole ++ fraction ++ exponent
  if whole.isEmpty then fail .value p
  else if fraction.isEmpty && exponent.isEmpty then
    if integerDigitLimit < whole.length then fail (.tooLong whole.length) p
    else .ok (.int ((readInteger? text).getD 0), p.drop text.length)
  else .ok (.num ((Decimal.read? text).map Decimal.toFloat |>.getD nan), p.drop text.length)

/-! ## Values -/

/-- The words that stand for a scalar. -/
def words : List (String × Scalar) :=
  [("null", .null), ("true", .bool true), ("false", .bool false), ("NaN", .num nan),
   ("Infinity", .num infinity), ("-Infinity", .num (-infinity))]

/-- Reads a word or a number. -/
def readScalar (p : Place) : Result Scalar :=
  match words.find? fun (word, _) => word.toList.isPrefixOf p.rest with
  | some (word, s) => .ok (s, p.drop word.length)
  | none => readNumber p

mutual

/-- Reads a value whose first character is at the place. -/
def readValue : Nat → Place → Result Datum
  | 0, p => fail .value p
  | fuel + 1, p =>
    match p.rest with
    | '"' :: _ => (readString p).map fun (codes, p) => (.scalar (textScalar codes), p)
    | '[' :: _ =>
      let p := (p.drop 1).skipSpace
      match p.rest with
      | ']' :: _ => .ok (.list [], p.drop 1)
      | _ => (readItems fuel p).map fun (items, p) => (.list items, p)
    | '{' :: _ =>
      let p := (p.drop 1).skipSpace
      match p.rest with
      | '}' :: _ => .ok (.obj [], p.drop 1)
      | _ => (readFields fuel p []).map fun (fields, p) => (.obj fields, p)
    | _ => (readScalar p).map fun (s, p) => (.scalar s, p)

/-- Reads the items of a list up to the bracket that closes it. -/
def readItems : Nat → Place → Result (List Datum)
  | 0, p => fail .value p
  | fuel + 1, p =>
    match readValue fuel p with
    | .error e => .error e
    | .ok (d, p) =>
      let p := p.skipSpace
      match p.rest with
      | ']' :: _ => .ok ([d], p.drop 1)
      | ',' :: _ => (readItems fuel (p.drop 1).skipSpace).map fun (ds, p) => (d :: ds, p)
      | _ => fail .comma p

/-- Reads the fields of an object up to the brace that closes it, after those already seen. -/
def readFields : Nat → Place → List (String × Datum) → Result (List (String × Datum))
  | 0, p, _ => fail .key p
  | fuel + 1, p, seen =>
    match p.rest with
    | '"' :: _ =>
      match readString p with
      | .error e => .error e
      | .ok (codes, p) =>
        let key := (textScalar codes).display
        let p := p.skipSpace
        match p.rest with
        | ':' :: _ =>
          match readValue fuel (p.drop 1).skipSpace with
          | .error e => .error e
          | .ok (d, p) =>
            let p := p.skipSpace
            let seen := setField key d seen
            match p.rest with
            | '}' :: _ => .ok (seen, p.drop 1)
            | ',' :: _ => readFields fuel (p.drop 1).skipSpace seen
            | _ => fail .comma p
        | _ => fail .colon p
    | _ => fail .key p

end

/-- Reads a whole text as one value. Each step into a value takes a character, so the fuel never
runs out. -/
def read (text : List Char) : Except Error Datum :=
  match text with
  | '\ufeff' :: _ => .error ⟨.byteOrderMark, 0⟩
  | _ =>
    match readValue (2 * text.length + 2) (Place.skipSpace ⟨text, 0⟩) with
    | .error e => .error e
    | .ok (d, p) =>
      let p := p.skipSpace
      if p.rest.isEmpty then .ok d else .error ⟨.extra, p.offset⟩

end PolarPlot.Document.Json
