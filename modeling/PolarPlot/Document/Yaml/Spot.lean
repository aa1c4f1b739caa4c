import PolarPlot.Document.Yaml.Scalar
import PolarPlot.Text.Lines

/-!
# Scalars in a text

A `Spot` is a place in a text. From it the text of a scalar is read: plain, in quotes, or as a block
of lines. A scalar may go on over lines; a single break between two lines becomes a blank, and of
several the first is left out.
-/

namespace PolarPlot.Document.Yaml

open Text

/-- What is still to be read, and where it starts. -/
structure Spot where
  rest : List Char
  index : Nat
  line : Nat
  column : Nat
  deriving DecidableEq, Repr

namespace Spot

def start (text : List Char) : Spot := ⟨text, 0, 0, 0⟩

def peek (s : Spot) : Option Char := s.rest.head?

/-- The spot after the next character. A byte order mark takes no column. -/
def next (s : Spot) : Spot :=
  match s.rest with
  | [] => s
  | c :: cs =>
    if isBreak c then ⟨cs, s.index + 1, s.line + 1, 0⟩
    else ⟨cs, s.index + 1, s.line, if c = '\ufeff' then s.column else s.column + 1⟩

def skip : Nat → Spot → Spot
  | 0, s => s
  | n + 1, s => skip n s.next

def skipWhile (p : Char → Bool) (s : Spot) : Spot := s.skip (s.rest.takeWhile p).length

def skipSpaces (s : Spot) : Spot := s.skipWhile (· = ' ')

/-- Skips a comment up to the end of its line. -/
def skipComment (s : Spot) : Spot :=
  if s.peek = some '#' then s.skipWhile (!isBreak ·) else s

/-- Whether a word of `n` characters ends here. -/
def endsAfter (s : Spot) (n : Nat) : Bool := (s.rest.drop n).head?.all endsSign

/-- Whether one of the marks between documents stands here. -/
def atMark (mark : String) (s : Spot) : Bool :=
  mark.toList.isPrefixOf s.rest && s.endsAfter mark.length

@[inherit_doc atMark]
def atSeparator (s : Spot) : Bool := s.atMark "---" || s.atMark "..."

/-- Skips what may follow on the line of a header: spaces and a comment. -/
def skipHeaderEnd (s : Spot) : Except Fault Spot :=
  let s := s.skipSpaces.skipComment
  if s.peek.all isBreak then .ok s.next else .error .badToken

end Spot

/-- What a break and those after it stand for within a scalar. -/
def foldBreaks (first : Char) (more : List Char) : List Char :=
  if first ≠ '\n' then first :: more else if more.isEmpty then [' '] else more

/-! ## Text in quotes -/

/-- Reads the breaks up to the next line that holds something. -/
def readBreaks : Nat → Spot → Except Fault (List Char × Spot)
  | 0, s => .ok ([], s)
  | fuel + 1, s =>
    if s.atSeparator then .error .badToken
    else
      let s := s.skipWhile isBlankChar
      match s.rest with
      | [] => .ok ([], s)
      | c :: _ =>
        if isBreak c then do
          let (breaks, s) ← readBreaks fuel s.next
          return (c :: breaks, s)
        else .ok ([], s)

/-- The character of a letter after a backslash. -/
def unescapeLetter? : Char → Option Char
  | '0' => some '\x00'
  | 'a' => some '\x07'
  | 'b' => some '\x08'
  | 't' | '\t' => some '\t'
  | 'n' => some '\n'
  | 'v' => some '\x0b'
  | 'f' => some '\x0c'
  | 'r' => some '\r'
  | 'e' => some '\x1b'
  | ' ' => some ' '
  | '"' => some '"'
  | '/' => some '/'
  | '\\' => some '\\'
  | 'N' => some '\x85'
  | '_' => some '\xa0'
  | 'L' => some '\u2028'
  | 'P' => some '\u2029'
  | _ => none

/-- The number of digits of an escape by number. -/
def escapeWidth? : Char → Option Nat
  | 'x' => some 2
  | 'u' => some 4
  | 'U' => some 8
  | _ => none

/-- Reads an escape after its backslash: the character, and how much of the text it takes. -/
def readEscape : List Char → Except Fault (Char × Nat)
  | [] => .error .badToken
  | c :: cs =>
    match escapeWidth? c with
    | some n =>
      if n ≤ cs.length && (cs.take n).all isHex then
        .ok (codeChar (digitsToBase 16 (cs.take n)), n + 1)
      else .error .badToken
    | none =>
      match unescapeLetter? c with
      | some c => .ok (c, 1)
      | none => .error .badToken

/-- Reads a text up to the quote that ends it. Within single quotes two of them stand for one;
within double quotes a backslash escapes, also the end of a line. `seen` is what was read, last
first. -/
def readQuoted (quote : Char) : Nat → Spot → List Char → Except Fault (String × Spot)
  | 0, _, _ => .error .badToken
  | fuel + 1, s, seen =>
    match s.rest with
    | [] => .error .badToken
    | c :: cs =>
      if c = quote then
        if quote = '\'' && cs.head? = some '\'' then readQuoted quote fuel (s.skip 2) ('\'' :: seen)
        else .ok (String.ofList seen.reverse, s.next)
      else if c = '\\' && quote = '"' then
        if cs.head?.any isBreak then do
          let (breaks, s) ← readBreaks fuel (s.skip 2)
          readQuoted quote fuel s (breaks.reverse ++ seen)
        else do
          let (c, n) ← readEscape cs
          readQuoted quote fuel (s.skip (n + 1)) (c :: seen)
      else if isBlankChar c || isBreak c then
        let blanks := s.rest.takeWhile isBlankChar
        let s := s.skip blanks.length
        match s.peek with
        | none => .error .badToken
        | some b =>
          if isBreak b then do
            let (breaks, s) ← readBreaks fuel s.next
            readQuoted quote fuel s ((foldBreaks b breaks).reverse ++ seen)
          else readQuoted quote fuel s (blanks.reverse ++ seen)
      else readQuoted quote fuel s.next (c :: seen)

/-! ## Plain text -/

/-- The signs of lists and objects in brackets. -/
def flowSigns : List Char := [',', '[', ']', '{', '}']

/-- Whether a plain text stops before a character. -/
def stopsPlain (inFlow : Bool) (c : Char) (next : Option Char) : Bool :=
  endsSign c || (c = ':' && next.all fun d => endsSign d || (inFlow && flowSigns.contains d)) ||
    (inFlow && (c = '?' || flowSigns.contains c))

/-- The characters of a plain text up to a blank or a sign. -/
def plainWord (inFlow : Bool) : List Char → List Char
  | [] => []
  | c :: cs => if stopsPlain inFlow c cs.head? then [] else c :: plainWord inFlow cs

/-- Reads the breaks after which a plain text may go on; none if a mark between documents
follows. -/
def plainBreaks : Nat → Spot → Option (List Char) × Spot
  | 0, s => (none, s)
  | fuel + 1, s =>
    if s.atSeparator then (none, s)
    else
      let s := s.skipSpaces
      match s.rest with
      | [] => (some [], s)
      | c :: _ =>
        if isBreak c then
          let (breaks, s) := plainBreaks fuel s.next
          (breaks.map (c :: ·), s)
        else (some [], s)

/-- Reads what stands between the words of a plain text, and tells whether a line ended. -/
def plainGap (fuel : Nat) (s : Spot) : List Char × Spot × Bool :=
  let spaces := s.rest.takeWhile (· = ' ')
  let s := s.skip spaces.length
  match s.rest with
  | [] => (spaces, s, false)
  | c :: _ =>
    if isBreak c then
      let (breaks, s) := plainBreaks fuel s.next
      ((breaks.map (foldBreaks c)).getD [], s, true)
    else (spaces, s, false)

/-- What was read of a plain text: the text, the spot after it, and whether it ended with a line. -/
structure Plain where
  text : List Char
  spot : Spot
  lineEnded : Bool

/-- Reads a plain text. Its lines start at column `least` or later, unless it is inside brackets.
`gap` is what stands before the next word. -/
def readPlain (inFlow : Bool) (least : Int) : Nat → Spot → List Char → List Char → Bool → Plain
  | 0, s, _, seen, ended => ⟨seen, s, ended⟩
  | fuel + 1, s, gap, seen, ended =>
    let word := if s.peek = some '#' then [] else plainWord inFlow s.rest
    if word.isEmpty then ⟨seen, s, ended⟩
    else
      let seen := seen ++ gap ++ word
      let (gap, s, ended) := plainGap fuel (s.skip word.length)
      if gap.isEmpty || s.peek = some '#' || (!inFlow && s.column < least) then ⟨seen, s, ended⟩
      else readPlain inFlow least fuel s gap seen ended

/-! ## Blocks of lines -/

/-- The header of a block of lines: whether the breaks at its end are all kept or all dropped, and
how far it is set in. -/
structure BlockHeader where
  keep : Option Bool
  indent : Option Nat

/-- Reads the signs of a header in either order. -/
def BlockHeader.read (cs : List Char) : Except Fault (BlockHeader × Nat) :=
  let keep? (c : Option Char) : Option Bool :=
    if c = some '+' then some true else if c = some '-' then some false else none
  let indent? (c : Option Char) : Option Nat :=
    c.bind fun c => if isDecimal c then some (c.toNat - '0'.toNat) else none
  let header : BlockHeader × Nat := match keep? cs.head?, indent? cs.head? with
    | some k, _ =>
      match indent? (cs.drop 1).head? with
      | some n => (⟨some k, some n⟩, 2)
      | none => (⟨some k, none⟩, 1)
    | none, some n =>
      match keep? (cs.drop 1).head? with
      | some k => (⟨some k, some n⟩, 2)
      | none => (⟨none, some n⟩, 1)
    | none, none => (⟨none, none⟩, 0)
  let after := (cs.drop header.2).head?
  if header.1.indent = some 0 || !after.all (fun c => c = ' ' || isBreak c) then .error .badToken
  else .ok header

/-- Reads empty lines, and up to `column` spaces at the start of each line. -/
def blockBreaks (column : Nat) : Nat → Spot → List Char × Spot
  | 0, s => ([], s)
  | fuel + 1, s =>
    let s := s.skip (min (column - s.column) (s.rest.takeWhile (· = ' ')).length)
    match s.rest with
    | [] => ([], s)
    | c :: _ =>
      if isBreak c then
        let (breaks, s) := blockBreaks column fuel s.next
        (c :: breaks, s)
      else ([], s)

/-- Reads empty lines and spaces, and gives the furthest column reached. -/
def blockIndent : Nat → Spot → Nat → List Char × Nat × Spot
  | 0, s, furthest => ([], furthest, s)
  | fuel + 1, s, furthest =>
    let s := s.skipSpaces
    let furthest := max furthest s.column
    match s.rest with
    | [] => ([], furthest, s)
    | c :: _ =>
      if isBreak c then
        let (breaks, furthest, s) := blockIndent fuel s.next furthest
        (c :: breaks, furthest, s)
      else ([], furthest, s)

/-- Reads the lines of a block at a column, after some breaks. Gives the text, the last break and
the empty lines after it. When folded, a break between two lines that start with no blank is taken
as in other scalars. -/
def blockLines (folded : Bool) (column : Nat) :
    Nat → Spot → List Char → List Char × List Char × List Char × Spot
  | 0, s, breaks => ([], [], breaks, s)
  | fuel + 1, s, breaks =>
    if s.column ≠ column || s.rest.isEmpty then ([], [], breaks, s)
    else
      let line := s.rest.takeWhile (!isBreak ·)
      let after := s.skip line.length
      let ending := after.rest.take 1
      let (more, after) := blockBreaks column fuel after.next
      if after.column = column && !after.rest.isEmpty then
        let isText (c : Option Char) : Bool := !c.any isBlankChar
        let joint := if folded && ending = ['\n'] && isText s.peek && isText after.peek then
            if more.isEmpty then [' '] else []
          else ending
        let (text, last, tail, s) := blockLines folded column fuel after more
        (breaks ++ line ++ joint ++ text, last, tail, s)
      else (breaks ++ line, ending, more, after)

/-- Reads a block of lines from its sign on, inside a block at column `indent`. -/
def readBlockText (folded : Bool) (indent : Int) (fuel : Nat) (s : Spot) :
    Except Fault (String × Spot) := do
  let (header, length) ← BlockHeader.read (s.rest.drop 1)
  let s ← (s.skip (length + 1)).skipHeaderEnd
  let least := (max (indent + 1) 1).toNat
  let (breaks, column, s) := match header.indent with
    | some n =>
      let column := least + n - 1
      let (breaks, s) := blockBreaks column fuel s
      (breaks, column, s)
    | none =>
      let (breaks, furthest, s) := blockIndent fuel s 0
      (breaks, max least furthest, s)
  let (text, last, tail, s) := blockLines folded column fuel s breaks
  let ending := match header.keep with
    | some false => []
    | none => last
    | some true => last ++ tail
  return (String.ofList (text ++ ending), s)

end PolarPlot.Document.Yaml
