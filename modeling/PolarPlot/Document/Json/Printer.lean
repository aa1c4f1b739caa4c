import PolarPlot.Document.Datum

/-!
# Writing JSON

Objects keep the order of their fields. Text is written as it is, but for quotes, backslashes and
control characters.
-/

namespace PolarPlot.Document.Json

open Number Text

def escapeChar (c : Char) : String :=
  match c with
  | '"' => "\\\""
  | '\\' => "\\\\"
  | '\n' => "\\n"
  | '\r' => "\\r"
  | '\t' => "\\t"
  | '\x08' => "\\b"
  | '\x0c' => "\\f"
  | c => if c.toNat < 0x20 then "\\u" ++ hex 4 c.toNat else String.singleton c

def stringText (s : String) : String := "\"" ++ String.join (s.toList.map escapeChar) ++ "\""

def numberText (x : Float) : String :=
  if x.isNaN then "NaN"
  else if x.isInf then (if x < 0 then "-Infinity" else "Infinity")
  else plainText x

def scalarText : Scalar → String
  | .null => "null"
  | .bool b => if b then "true" else "false"
  | .int n => toString n
  | .num x => numberText x
  | .str s => stringText s
  | s => stringText s.display

/-- A line break and the blanks of a depth, or nothing if the text stays on one line. -/
def lineBreak (indent : Option Nat) (depth : Nat) : String :=
  match indent with
  | none => ""
  | some n => "\n" ++ String.ofList (List.replicate (n * depth) ' ')

/-- Sets out the parts of a list or an object between its brackets. -/
def enclose (opening closing : String) (indent : Option Nat) (depth : Nat) (parts : List String) :
    String :=
  if parts.isEmpty then opening ++ closing
  else
    let separator := if indent.isSome then "," ++ lineBreak indent (depth + 1) else ", "
    opening ++ lineBreak indent (depth + 1) ++ separator.intercalate parts ++
      lineBreak indent depth ++ closing

mutual

/-- The text of data at a depth. With an indent each item has its own line. -/
def write (indent : Option Nat) (depth : Nat) : Datum → String
  | .scalar s => scalarText s
  | .list items => enclose "[" "]" indent depth (writeItems indent (depth + 1) items)
  | .obj fields => enclose "\x7b" "\x7d" indent depth (writeFields indent (depth + 1) fields)

def writeItems (indent : Option Nat) (depth : Nat) : List Datum → List String
  | [] => []
  | d :: ds => write indent depth d :: writeItems indent depth ds

def writeFields (indent : Option Nat) (depth : Nat) : List (String × Datum) → List String
  | [] => []
  | (key, d) :: ds =>
    (stringText key ++ ": " ++ write indent depth d) :: writeFields indent depth ds

end

/-- The text of data, on one line or with an indent. -/
def text (indent : Option Nat) (d : Datum) : String := write indent 0 d

end PolarPlot.Document.Json
