import PolarPlot.Number.Decimal
import PolarPlot.Text.Quoted

/-!
# Command line options

Options may be shortened as long as they stay unique. A value follows its option, after an equals
sign or as the next word; one-letter options may be run together. After a bare `--` nothing is an
option. Of a repeated option the last counts. Whatever is neither an option nor the one file is
reported at the end.
-/

namespace PolarPlot.CommandLine

open Number Text

inductive Flag where
  | help
  | output
  | normalize
  | svg
  | svgSize
  | unitCircle
  | dump
  | verbose
  deriving DecidableEq, Repr

namespace Flag

/-- The names of an option. -/
def names : Flag → List String
  | .help => ["-h", "--help"]
  | .output => ["-o", "--output"]
  | .normalize => ["--normalize"]
  | .svg => ["--svg"]
  | .svgSize => ["--svg-size"]
  | .unitCircle => ["--svg-unit-circle"]
  | .dump => ["--dump-ast"]
  | .verbose => ["-v", "--verbose"]

def takesValue : Flag → Bool
  | .output | .svgSize | .dump => true
  | _ => false

def all : List Flag :=
  [.help, .output, .normalize, .svg, .svgSize, .unitCircle, .dump, .verbose]

/-- How messages call an option. -/
def title (f : Flag) : String := "/".intercalate f.names

end Flag

/-- All names of options with what they stand for. -/
def flagNames : List (String × Flag) := Flag.all.flatMap fun f => f.names.map fun n => (n, f)

/-- The forms in which a program can be dumped. -/
inductive DumpFormat where
  | json
  | yaml
  deriving DecidableEq, Repr

structure Options where
  file : String
  /-- Where the picture goes; none if the name was emptied. -/
  output : Option String
  normalize : Bool
  svg : Bool
  svgSize : Int
  unitCircle : Bool
  dump : Option DumpFormat
  verbose : Bool
  deriving DecidableEq, Repr

def Options.default : Options := ⟨"-", some "-", false, false, 1000, false, none, false⟩

/-! ## Wrong usage -/

inductive UsageError where
  | ambiguous (word : String) (candidates : List String)
  | expectedValue (flag : Flag)
  | ignoredValue (flag : Flag) (value : String)
  | invalidInt (value : String)
  | invalidChoice (value : String)
  | unrecognized (words : List String)
  | sizeNotPositive
  deriving DecidableEq, Repr

def UsageError.message : UsageError → String
  | .ambiguous word candidates =>
    "ambiguous option: " ++ word ++ " could match " ++ ", ".intercalate candidates
  | .expectedValue flag => "argument " ++ flag.title ++ ": expected one argument"
  | .ignoredValue flag value =>
    "argument " ++ flag.title ++ ": ignored explicit argument " ++ quoted value
  | .invalidInt value => "argument --svg-size: invalid int value: " ++ quoted value
  | .invalidChoice value =>
    "argument --dump-ast: invalid choice: " ++ quoted value ++ " (choose from 'json', 'yaml')"
  | .unrecognized words => "unrecognized arguments: " ++ " ".intercalate words
  | .sizeNotPositive => "--svg-size must be positive"

/-- Why no options come out: a wrong use, a wish for help, or a size that was emptied. -/
inductive Halt where
  | usage (e : UsageError)
  | help
  | noSize
  deriving DecidableEq, Repr

/-! ## Words -/

/-- What a word of the command line is. -/
inductive Word where
  | plain (text : String)
  /-- The bare `--` that ends the options. -/
  | mark
  /-- An option, with a value in the same word. -/
  | option (flag : Flag) (value : Option String)
  /-- A one-letter option, and what follows it in the word. -/
  | run (flag : Flag) (letters : List Char)
  /-- A word that looks like an option and is none. -/
  | unknown (text : String)
  deriving DecidableEq, Repr

/-- The parts of a word before and after its first equals sign. -/
def splitEquals (cs : List Char) : List Char × Option (List Char) :=
  match cs.dropWhile (· ≠ '=') with
  | [] => (cs, none)
  | _ :: value => (cs.takeWhile (· ≠ '='), some value)

/-- Digits, or digits with a point before the last of them, after a minus sign. A line feed may end
them. -/
def looksNegative : List Char → Bool
  | '-' :: cs =>
    let isEnd (rest : List Char) : Bool := rest = [] || rest = ['\n']
    let whole := cs.takeWhile isDigit
    match cs.drop whole.length with
    | '.' :: rest =>
      let fraction := rest.takeWhile isDigit
      !fraction.isEmpty && isEnd (rest.drop fraction.length)
    | rest => !whole.isEmpty && isEnd rest
  | _ => false

/-- The options of which a word is the start. -/
def candidates (start : List Char) : List (String × Flag) :=
  flagNames.filter fun (name, _) => start.isPrefixOf name.toList

/-- The option with a one-letter name. -/
def letterFlag? (c : Char) : Option Flag := flagNames.lookup (String.ofList ['-', c])

/-- What a word is that begins with two hyphens: a long option, in full or shortened, and its
value. -/
def classifyLong (cs : List Char) (other : Word) : Except UsageError Word :=
  let (start, value) := splitEquals cs
  let value := value.map String.ofList
  match flagNames.lookup (String.ofList start) with
  | some flag => .ok (.option flag value)
  | none =>
    match candidates start with
    | [] => .ok other
    | [(_, flag)] => .ok (.option flag value)
    | several => .error (.ambiguous (String.ofList cs) (several.map (·.1)))

/-- What a word is, before the options end. An equals sign right after a one-letter option sets off
what follows, so that even nothing can follow. -/
def classify (word : String) : Except UsageError Word :=
  let cs := word.toList
  let other : Word := if looksNegative cs || cs.contains ' ' then .plain word else .unknown word
  match cs with
  | '-' :: '-' :: _ => classifyLong cs other
  | '-' :: c :: rest =>
    match letterFlag? c, rest with
    | none, _ => .ok other
    | some flag, [] => .ok (.option flag none)
    | some flag, ['='] => .ok (.option flag (some ""))
    | some flag, '=' :: value => .ok (.run flag value)
    | some flag, letters => .ok (.run flag letters)
  | _ => .ok (.plain word)

/-- What the words are; all after a bare `--` are plain. -/
def classifyAll : List String → Except UsageError (List Word)
  | [] => .ok []
  | "--" :: words => .ok (.mark :: words.map .plain)
  | word :: words => do
    let first ← classify word
    let rest ← classifyAll words
    return first :: rest

/-! ## Runs -/

/-- One-letter options that stand together: switches, and the last of them with a value if it has
one. -/
structure LetterRun where
  switches : List Flag
  last : Flag
  value : Option String
  deriving DecidableEq, Repr

/-- Reads one-letter options that stand together. An option that takes a value takes all the rest; a
letter that is no option makes the rest a value that nobody asked for. -/
def LetterRun.read (flag : Flag) : List Char → Except UsageError LetterRun
  | [] => .ok ⟨[], flag, none⟩
  | c :: cs =>
    if flag.takesValue then .ok ⟨[], flag, some (String.ofList (c :: cs))⟩
    else
      match letterFlag? c with
      | none => .error (.ignoredValue flag (String.ofList (c :: cs)))
      | some next => do
        let run ← LetterRun.read next cs
        return { run with switches := flag :: run.switches }

/-! ## Reading the words -/

/-- What was read so far: the options, the size unless it was emptied, whether the file was named,
and what was not understood. -/
structure Progress where
  options : Options
  size : Option Int
  named : Bool
  extras : List String

namespace Progress

def start : Progress := ⟨.default, some Options.default.svgSize, false, []⟩

/-- Names the file. -/
def name (p : Progress) (file : String) : Progress :=
  { p with named := true, options := { p.options with file := file } }

def leave (p : Progress) (text : String) : Progress := { p with extras := p.extras ++ [text] }

/-- Turns on an option that takes no value. -/
def turnOn (p : Progress) (flag : Flag) : Except Halt Progress :=
  let set (o : Options) : Except Halt Progress := .ok { p with options := o }
  match flag with
  | .help => .error .help
  | .normalize => set { p.options with normalize := true }
  | .svg => set { p.options with svg := true }
  | .unitCircle => set { p.options with unitCircle := true }
  | .verbose => set { p.options with verbose := true }
  | _ => .ok p

/-- Takes its value from an option. -/
def clear (p : Progress) : Flag → Progress
  | .output => { p with options := { p.options with output := none } }
  | .svgSize => { p with size := none }
  | .dump => { p with options := { p.options with dump := none } }
  | _ => p

/-- Sets an option to a value. -/
def set (p : Progress) (flag : Flag) (value : String) : Except Halt Progress :=
  match flag with
  | .output => .ok { p with options := { p.options with output := some value } }
  | .svgSize =>
    match readTypedInteger? value with
    | some n => .ok { p with size := some n }
    | none => .error (.usage (.invalidInt value))
  | .dump =>
    if value = "json" then .ok { p with options := { p.options with dump := some .json } }
    else if value = "yaml" then .ok { p with options := { p.options with dump := some .yaml } }
    else .error (.usage (.invalidChoice value))
  | _ => .ok p

end Progress

/-- A bare `--` right after the file goes with it. -/
def dropMark : List Word → List Word
  | .mark :: rest => rest
  | rest => rest

/-- Reads an option after the switches that stand before it in its word. Its value, if it takes one,
is in the same word, where `--` empties it, or in the next one. Nothing is turned on before the
value is found. Gives back the words after it. -/
def takeOption (p : Progress) (switches : List Flag) (flag : Flag) (value : Option String)
    (rest : List Word) : Except Halt (Progress × List Word) := do
  match flag.takesValue, value, rest with
  | true, some "--", rest => return ((← switches.foldlM Progress.turnOn p).clear flag, rest)
  | true, some value, rest => return (← (← switches.foldlM Progress.turnOn p).set flag value, rest)
  | true, none, .plain value :: rest =>
    return (← (← switches.foldlM Progress.turnOn p).set flag value, rest)
  | true, none, _ => throw (.usage (.expectedValue flag))
  | false, some value, _ => throw (.usage (.ignoredValue flag value))
  | false, none, rest => return (← (switches ++ [flag]).foldlM Progress.turnOn p, rest)

/-- Reads words from left to right. Each step takes a word, so the fuel never runs out. -/
def readWords : Nat → Progress → List Word → Except Halt Progress
  | 0, p, _ => .ok p
  | _ + 1, p, [] => .ok p
  | fuel + 1, p, word :: rest =>
    match word with
    | .plain text =>
      if p.named then readWords fuel (p.leave text) rest
      else readWords fuel (p.name text) (dropMark rest)
    | .mark =>
      match p.named, rest with
      | true, _ => readWords fuel (p.leave "--") rest
      | false, .plain text :: rest => readWords fuel (p.name text) rest
      | false, _ => readWords fuel { p with named := true } rest
    | .unknown text => readWords fuel (p.leave text) rest
    | .option flag value => do
      let (p, rest) ← takeOption p [] flag value rest
      readWords fuel p rest
    | .run flag letters =>
      match LetterRun.read flag letters with
      | .error e => .error (.usage e)
      | .ok run => do
        let (p, rest) ← takeOption p run.switches run.last run.value rest
        readWords fuel p rest

/-- The options that the words of a command line ask for. -/
def Options.read (words : List String) : Except Halt Options := do
  let classified ← match classifyAll words with
    | .ok ws => .ok ws
    | .error e => .error (Halt.usage e)
  let p ← readWords (classified.length + 1) .start classified
  if !p.extras.isEmpty then throw (.usage (.unrecognized p.extras))
  match p.size with
  | none => throw .noSize
  | some n =>
    if n ≤ 0 then throw (.usage .sizeNotPositive)
    return { p.options with svgSize := n }

end PolarPlot.CommandLine
