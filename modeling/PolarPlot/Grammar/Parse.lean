import PolarPlot.Grammar.Rules

/-!
# Parsing programs

`parse` reads a whole text as a program. If it cannot, the error names the furthest place where a
token was missing, and what could have stood there.
-/

namespace PolarPlot.Grammar

/-- Why a text is no program. -/
structure ParseError where
  expected : List Expectation
  line : Nat
  column : Nat
  /-- Up to ten characters before the place. -/
  before : List Char
  /-- Up to ten characters from the place on. -/
  after : List Char
  deriving DecidableEq, Repr

/-- Text on one line: a line feed becomes a space, and a carriage return goes. -/
def flatten (cs : List Char) : List Char :=
  (cs.filter (· ≠ '\r')).map fun c => if c = '\n' then ' ' else c

def ParseError.message (e : ParseError) : String :=
  "Expected " ++ " or ".intercalate (e.expected.map Expectation.label) ++ " at position (" ++
    toString e.line ++ ", " ++ toString e.column ++ ") => '" ++
    String.ofList (flatten (e.before ++ '*' :: e.after)) ++ "'."

/-- The error at the furthest failure of a text. -/
def Furthest.toError (f : Furthest) (text : List Char) : ParseError :=
  { expected := f.expected
    line := f.place.line
    column := f.place.column
    before := (text.take f.place.offset).drop (f.place.offset - 10)
    after := f.place.rest.take 10 }

/-- The furthest failure before any token was tried: a line comment could start the text. -/
def Furthest.start (c : Cursor) : Furthest := ⟨skipLineComments c, [.lineComment]⟩

/-- What the grammar takes of a text. Rules within rules take at least one character more each time,
so the depth never runs out. -/
def runProgram (origin : String) (text : List Char) : Option (List Stmt × Cursor) × Furthest :=
  let c := Cursor.start origin text
  program.run (ruleRun grammar (text.length + 1)) c (Furthest.start c)

/-- The name of a text that has no other. -/
def defaultOrigin : String := "<string>"

/-- Reads a text as a program. -/
def parse (origin text : String) : Except ParseError (List Stmt) :=
  match runProgram origin text.toList with
  | (some (statements, _), _) => .ok statements
  | (none, f) => .error (f.toError text.toList)

end PolarPlot.Grammar
