import PolarPlot.Grammar.Cursor
import PolarPlot.Text.Digit

/-!
# Tokens and what stands between them

A token is matched at the first character after blanks and comments. Matching looks at no more than
the text that follows: a keyword may run on into a word, and a word may be a keyword.
-/

namespace PolarPlot.Grammar

open Text

inductive Token where
  | number
  | name
  | function
  | rangeEnd
  | comma
  | assign
  | paren
  | endParen
  | brace
  | endBrace
  | bracket
  | add
  | subtract
  | multiply
  | divide
  | wordFor
  | wordOver
  | wordBy
  | eof
  deriving DecidableEq, Repr

/-- The name by which error messages call a token. -/
def Token.label : Token → String
  | .number => "TOK_NUMBER"
  | .name => "TOK_VARIABLE"
  | .function => "TOK_FUNCTION"
  | .rangeEnd => "TOK_RANGE_END"
  | .comma => "TOK_COMMA"
  | .assign => "TOK_ASSIGN"
  | .paren => "TOK_PAREN"
  | .endParen => "TOK_ENDPAREN"
  | .brace => "TOK_BRACE"
  | .endBrace => "TOK_ENDBRACE"
  | .bracket => "TOK_BRACKET"
  | .add => "TOK_ADD"
  | .subtract => "TOK_SUBTRACT"
  | .multiply => "TOK_MULTIPLY"
  | .divide => "TOK_DIVIDE"
  | .wordFor => "KWD_FOR"
  | .wordOver => "KWD_OVER"
  | .wordBy => "KWD_BY"
  | .eof => "EOF"

/-! ## Matching -/

def isLatin (c : Char) : Bool := 'a' ≤ c && c ≤ 'z'

def isGreek (c : Char) : Bool := 'α' ≤ c && c ≤ 'ω'

def isArabic (c : Char) : Bool := '0' ≤ c && c ≤ '9'

/-- Length of the word at the start of a text, if there is one. -/
def wordLength? (first next : Char → Bool) : List Char → Option Nat
  | [] => none
  | c :: cs => if first c then some ((cs.takeWhile next).length + 1) else none

/-- Length of the number at the start of a text: a sign, then digits with a fraction or without. A
point needs a digit after it. -/
def numberLength? (cs : List Char) : Option Nat :=
  let sign := if cs.head? = some '+' || cs.head? = some '-' then 1 else 0
  let body := cs.drop sign
  let whole := (body.takeWhile isDigit).length
  let fraction :=
    match body.drop whole with
    | '.' :: rest => (rest.takeWhile isDigit).length
    | _ => 0
  if 0 < fraction then some (sign + whole + 1 + fraction)
  else if 0 < whole then some (sign + whole)
  else none

/-- Length of a fixed text at the start of another. -/
def fixedLength? (text cs : List Char) : Option Nat :=
  if text.isPrefixOf cs then some text.length else none

/-- How many characters a token takes at the start of a text; `none` if it does not match there. -/
def Token.length? : Token → List Char → Option Nat
  | .number, cs => numberLength? cs
  | .name, cs =>
    wordLength? (fun c => isLatin c || isGreek c || c = '_')
      (fun c => isLatin c || isArabic c || isGreek c || c = '_') cs
  | .function, cs => wordLength? isLatin (fun c => isLatin c || isArabic c || c = '_') cs
  | .rangeEnd, cs => if cs.head? = some ']' || cs.head? = some ')' then some 1 else none
  | .comma, cs => fixedLength? [','] cs
  | .assign, cs => fixedLength? ['='] cs
  | .paren, cs => fixedLength? ['('] cs
  | .endParen, cs => fixedLength? [')'] cs
  | .brace, cs => fixedLength? ['{'] cs
  | .endBrace, cs => fixedLength? ['}'] cs
  | .bracket, cs => fixedLength? ['['] cs
  | .add, cs => fixedLength? ['+'] cs
  | .subtract, cs => fixedLength? ['-'] cs
  | .multiply, cs => fixedLength? ['*'] cs
  | .divide, cs => fixedLength? ['/'] cs
  | .wordFor, cs => fixedLength? ['f', 'o', 'r'] cs
  | .wordOver, cs => fixedLength? ['o', 'v', 'e', 'r'] cs
  | .wordBy, cs => fixedLength? ['b', 'y'] cs
  | .eof, cs => if cs.isEmpty then some 0 else none

/-! ## Blanks and comments -/

def isLayout (c : Char) : Bool := c = ' ' || c = '\t' || c = '\n' || c = '\r'

def skipBlanks (c : Cursor) : Cursor := c.advance (c.rest.takeWhile isLayout).length

/-- Length of a text up to and with the first `*/`. -/
def blockEnd? : List Char → Option Nat
  | '*' :: '/' :: _ => some 2
  | _ :: cs => (blockEnd? cs).map (· + 1)
  | [] => none

/-- Length of the line comment at the start of a text, without the line feed that ends it. -/
def lineCommentLength? : List Char → Option Nat
  | '/' :: '/' :: cs => some ((cs.takeWhile (· ≠ '\n')).length + 2)
  | _ => none

/-- Length of the comment at the start of a text. A comment that is never closed is none. -/
def commentLength? : List Char → Option Nat
  | '/' :: '*' :: cs => (blockEnd? cs).map (· + 2)
  | cs => lineCommentLength? cs

/-- Skips blanks and whatever `length?` finds after them, over and over, at most `fuel` times. -/
def skipWith (length? : List Char → Option Nat) : Nat → Cursor → Cursor
  | 0, c => skipBlanks c
  | fuel + 1, c =>
    let c := skipBlanks c
    match length? c.rest with
    | none => c
    | some n => skipWith length? fuel (c.advance n)

/-- The place of the next token. Every comment takes a character, so the fuel never runs out. -/
def skipLayout (c : Cursor) : Cursor := skipWith commentLength? c.rest.length c

/-- The same for blanks and line comments only. -/
def skipLineComments (c : Cursor) : Cursor := skipWith lineCommentLength? c.rest.length c

end PolarPlot.Grammar
