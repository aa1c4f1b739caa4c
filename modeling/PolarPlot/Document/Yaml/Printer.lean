import PolarPlot.Document.Yaml.Scalar

/-!
# Writing YAML

Data is written in block form. A list under a key starts at the column of the key, and an object is
set in by two. A text is written plain if it then reads as the same text; else in single quotes, or
in double quotes if it holds characters that have to be escaped. Past column 80 a text goes on in
the next line at its next single space.
-/

namespace PolarPlot.Document.Yaml

open Number Text

/-- A line is broken at the first chance past this column. -/
def width : Nat := 80

/-! ## Which style a text can have -/

/-- Characters that show only when they are escaped. -/
def isSpecial (c : Char) : Bool :=
  let n := c.toNat
  !(c = '\n' || (0x20 ≤ n && n ≤ 0x7e) || n = 0x85 ||
    ((0xa0 ≤ n && n ≤ 0xfffd || 0x10000 ≤ n && n < 0x10ffff) && n ≠ 0xfeff))

/-- A first character that has a meaning of its own. -/
def isOpeningSign (c : Char) (next : Option Char) : Bool :=
  "#,[]\x7b\x7d&*!|>'\"%@`".toList.contains c ||
    ((c = '?' || c = ':' || c = '-') && next.all endsSign)

/-- Whether a later character has a meaning of its own: a colon before a blank, a hash after one. -/
def hasInnerSign : Char → List Char → Bool
  | _, [] => false
  | before, c :: cs =>
    (c = ':' && cs.head?.all endsSign) || (c = '#' && endsSign before) || hasInnerSign c cs

/-- Whether a text of some length has a sign that keeps it from being plain. -/
def hasSign (cs : List Char) : Bool :=
  match cs with
  | [] => false
  | c :: rest =>
    ['-', '-', '-'].isPrefixOf cs || ['.', '.', '.'].isPrefixOf cs || isOpeningSign c rest.head? ||
      hasInnerSign c rest

/-- Whether a character for which `p` holds is followed by one for which `q` holds. -/
def hasPair (p q : Char → Bool) : List Char → Bool
  | a :: b :: cs => (p a && q b) || hasPair p q (b :: cs)
  | _ => false

inductive Style where
  | plain
  | single
  | double
  deriving DecidableEq, Repr

/-- The style of a text. -/
def styleOf (s : String) : Style :=
  let cs := s.toList
  let edges := cs.head?.any (· = ' ') || cs.getLast?.any (· = ' ')
  let ragged := hasPair isBreak (· = ' ') cs || hasPair (· = ' ') isBreak cs
  if ragged || cs.any isSpecial then .double
  else if edges || cs.any isBreak || hasSign cs || resolve s ≠ .str then .single
  else .plain

/-! ## Lines -/

def blanks (n : Nat) : List Char := List.replicate n ' '

/-- A new line that starts at a column. -/
def newLine (column : Nat) : List Char := '\n' :: blanks column

/-- Text without breaks, from a column on. A single space between words becomes a line break once
the line is past its width. `run` is the length of the row of spaces just passed. -/
def foldPlain (indent : Nat) : Nat → Nat → List Char → List Char
  | _, run, [] => blanks run
  | column, run, c :: cs =>
    if c = ' ' then foldPlain indent column (run + 1) cs
    else if run = 1 ∧ width < column then
      newLine indent ++ c :: foldPlain indent (indent + 1) 0 cs
    else blanks run ++ c :: foldPlain indent (column + run + 1) 0 cs

/-- Text in single quotes, from a column on. Breaks are written once more than they occur, and a
single space past the width becomes a line break. `first` tells whether the row of spaces just
passed starts the text; `run` is its length, and `breaks` is the row of breaks just passed. -/
def foldSingle (indent : Nat) : Nat → Bool → Nat → List Char → List Char → List Char
  | _, _, run, breaks, [] => blanks run ++ endBreaks breaks
  | column, first, run, breaks, c :: cs =>
    if c = ' ' then foldSingle indent column first (run + 1) breaks cs
    else if isBreak c then foldSingle indent column false 0 (breaks ++ [c]) cs
    else
      let written := if c = '\'' then ['\'', '\''] else [c]
      if !breaks.isEmpty then
        endBreaks breaks ++ written ++ foldSingle indent (indent + written.length) false 0 [] cs
      else if run = 1 ∧ width < column ∧ !first then
        newLine indent ++ written ++ foldSingle indent (indent + written.length) false 0 [] cs
      else
        blanks run ++ written ++ foldSingle indent (column + run + written.length) false 0 [] cs
where
  endBreaks (breaks : List Char) : List Char :=
    if breaks.isEmpty then []
    else
      (if breaks.head? = some '\n' then ['\n'] else []) ++ breaks ++ blanks indent

def escapeLetter? : Char → Option Char
  | '\x00' => some '0'
  | '\x07' => some 'a'
  | '\x08' => some 'b'
  | '\t' => some 't'
  | '\n' => some 'n'
  | '\x0b' => some 'v'
  | '\x0c' => some 'f'
  | '\r' => some 'r'
  | '\x1b' => some 'e'
  | '"' => some '"'
  | '\\' => some '\\'
  | '\x85' => some 'N'
  | '\xa0' => some '_'
  | '\u2028' => some 'L'
  | '\u2029' => some 'P'
  | _ => none

/-- Characters that stand for themselves between double quotes. -/
def isVerbatim (c : Char) : Bool :=
  let n := c.toNat
  c ≠ '"' && c ≠ '\\' && n ≠ 0x85 && n ≠ 0x2028 && n ≠ 0x2029 && n ≠ 0xfeff &&
    ((0x20 ≤ n && n ≤ 0x7e) || (0xa0 ≤ n && n ≤ 0xfffd))

def upperHex (width n : Nat) : List Char := (hex width n).toList.map Char.toUpper

/-- A character between double quotes. -/
def escaped (c : Char) : List Char :=
  if isVerbatim c then [c]
  else
    match escapeLetter? c with
    | some letter => ['\\', letter]
    | none =>
      if c.toNat ≤ 0xff then '\\' :: 'x' :: upperHex 2 c.toNat
      else if c.toNat ≤ 0xffff then '\\' :: 'u' :: upperHex 4 c.toNat
      else '\\' :: 'U' :: upperHex 8 c.toNat

/-- Text in double quotes, from a column on. Past the width a backslash breaks the line: after an
escape, before what follows an escape, or before a space. A space that starts a line has a backslash
before it. The text is never broken before its first character, nor at its last. `first` tells
whether the text starts here, and `fresh` whether an escape comes just before. -/
def foldDouble (indent : Nat) : Nat → Bool → Bool → List Char → List Char
  | _, _, _, [] => []
  | column, first, fresh, c :: cs =>
    let inner := !first && !cs.isEmpty
    if isVerbatim c then
      if inner && (c = ' ' || fresh) && width < column then
        let mark := if c = ' ' then ['\\'] else []
        '\\' :: newLine indent ++ mark ++
          c :: foldDouble indent (indent + mark.length + 1) false false cs
      else c :: foldDouble indent (column + 1) false false cs
    else
      let column := column + (escaped c).length
      if inner && width + 1 < column then
        let mark := if cs.head? = some ' ' then ['\\'] else []
        escaped c ++ '\\' :: newLine indent ++ mark ++
          foldDouble indent (indent + mark.length) false true cs
      else escaped c ++ foldDouble indent column false true cs

/-- A text in its style, from a column on; lines after the first start at the indent. -/
def textScalar (indent column : Nat) (s : String) : List Char :=
  match styleOf s with
  | .plain => foldPlain indent column 0 s.toList
  | .single => '\'' :: foldSingle indent (column + 1) true 0 [] s.toList ++ ['\'']
  | .double => '"' :: foldDouble indent (column + 1) true false s.toList ++ ['"']

/-- Shortest digits, with a point also before an exponent. -/
def Layout.yaml : Layout := { Layout.plain with leadPoint := true }

def numberText (x : Float) : String :=
  if x.isNaN then ".nan"
  else if x.isInf then (if x < 0 then "-.inf" else ".inf")
  else Layout.yaml.text (shortest x)

def scalarChars (indent column : Nat) : Scalar → List Char
  | .null => "null".toList
  | .bool b => (if b then "true" else "false").toList
  | .int n => (toString n).toList
  | .num x => (numberText x).toList
  | s => textScalar indent column s.display

/-! ## Blocks -/

/-- Puts lines below each other, all from one column on. -/
def stack (column : Nat) : List (List Char) → List Char
  | [] => []
  | [line] => line
  | line :: lines => line ++ newLine column ++ stack column lines

mutual

/-- The text after a key at a column. -/
def underKey (column : Nat) (key : List Char) : Datum → List Char
  | .scalar s => ' ' :: scalarChars (column + 2) (column + key.length + 2) s
  | .list [] => " []".toList
  | .list items => newLine column ++ stack column (itemLines column items)
  | .obj [] => " \x7b\x7d".toList
  | .obj fields => newLine (column + 2) ++ stack (column + 2) (fieldLines (column + 2) fields)

/-- The text after the dash of a list at a column. -/
def afterDash (column : Nat) : Datum → List Char
  | .scalar s => ' ' :: scalarChars (column + 2) (column + 2) s
  | .list [] => " []".toList
  | .list items => ' ' :: stack (column + 2) (itemLines (column + 2) items)
  | .obj [] => " \x7b\x7d".toList
  | .obj fields => ' ' :: stack (column + 2) (fieldLines (column + 2) fields)

def itemLines (column : Nat) : List Datum → List (List Char)
  | [] => []
  | d :: ds => ('-' :: afterDash column d) :: itemLines column ds

def fieldLines (column : Nat) : List (String × Datum) → List (List Char)
  | [] => []
  | (name, d) :: ds =>
    let key := textScalar column column name
    (key ++ ':' :: underKey column key d) :: fieldLines column ds

end

/-- The text of data. A plain scalar on its own is followed by a line that ends the document. -/
def text : Datum → String
  | .scalar s =>
    let plain : Bool := match s with
      | .str s => styleOf s = .plain
      | _ => true
    String.ofList (scalarChars 2 0 s ++ ['\n']) ++ if plain then "...\n" else ""
  | .list [] => "[]\n"
  | .list items => String.ofList (stack 0 (itemLines 0 items) ++ ['\n'])
  | .obj [] => "\x7b\x7d\n"
  | .obj fields => String.ofList (stack 0 (fieldLines 0 fields) ++ ['\n'])

end PolarPlot.Document.Yaml
