import PolarPlot.CommandLine.Files
import PolarPlot.CommandLine.Options
import PolarPlot.Document.Json.Printer
import PolarPlot.Document.Program
import PolarPlot.Document.Yaml.Printer
import PolarPlot.Drawing.Plan
import PolarPlot.Eval.Report

/-!
# The command

`run` says what the command does, as a function of its words and its surroundings: what it prints,
which file it writes, and how it ends. A program is parsed and rehearsed before anything is opened
for writing.
-/

namespace PolarPlot.CommandLine

open Document Grammar Number Text

/-- What a command can see: its standard input, and the files. -/
structure Environment where
  input : String
  read : String → Except FileError ByteArray
  create : String → Except FileError Unit

/-- An error that the command does not handle. -/
inductive Raised where
  | undecodable
  /-- A file name that no file can have. -/
  | badName
  /-- An option whose value was emptied. -/
  | noValue
  | config (p : Config.Problem)
  | cause (c : Cause)
  deriving DecidableEq

/-- What a command did. -/
structure Outcome where
  /-- The exit code, or the error that ended the command. -/
  exit : Except Raised Nat
  stdout : String
  stderr : String
  /-- The file that was written, and its content. -/
  written : Option (String × String)

/-- The name under which the command speaks. -/
def commandName : String := "sisplot"

namespace Outcome

/-- A command that printed nothing to its output and wrote no file. -/
def silent (exit : Except Raised Nat) (stderr : String) : Outcome := ⟨exit, "", stderr, none⟩

end Outcome

/-! ## Remarks -/

/-- A remark of a part of the command, as a line. -/
def remark (part text : String) : String :=
  (if part = "" then commandName else commandName ++ "." ++ part) ++ ": DEBUG: " ++ text ++ "\n"

/-- What is said about a picture that was closed. -/
def closedRemarks : (p : Plan) → p.State → List String
  | .svg _, (s : Svg.State) =>
    if s.closed then
      [remark "render" ("wrote SVG with " ++ toString s.polylines ++ " polylines and " ++
        toString s.paths ++ " paths")]
    else []
  | _, _ => []

def replayRemark (count : Nat) : String :=
  remark "render" ("replaying " ++ toString count ++ " buffered commands")

/-- What is said about closing a target, from its states before and after. -/
def closingRemarks : (p : Plan) → p.State → p.State → List String
  | .normalized inner, (before : Buffer inner.State), (after : Buffer inner.State) =>
    let count := before.items.size
    remark "render" ("normalizing " ++ toString count ++ " commands by " ++
        generalText (Buffer.factor before.items.toList)) ::
      replayRemark count :: closedRemarks inner after.inner
  | .buffered inner, (before : Buffer inner.State), (after : Buffer inner.State) =>
    replayRemark before.items.size :: closedRemarks inner after.inner
  | p, _, after => closedRemarks p after

/-! ## Steps -/

/-- The text of a dumped program. -/
def dumpText (format : DumpFormat) (program : List Stmt) : String :=
  let data := (Tree.ofProgram program).dump true
  match format with
  | .json => Json.text (some 2) data
  | .yaml => Yaml.text data

/-- What came of drawing a program. -/
structure Drawn where
  failure : Option Failure
  text : String
  remarks : List String

/-- Draws a program: runs it, then closes its target, and says what was closed. -/
def drawLogged (fuel : Nat) (plan : Plan) (program : List Stmt) : Drawn :=
  let ran := Stmt.execAll .real fuel plan.target program (Machine.fresh (plan.initial .empty))
  match ran with
  | .error f m => ⟨some f, plan.textFrom m.target 0, []⟩
  | .ok _ m =>
    match Exec.onTarget plan.target.close m with
    | .error f m' => ⟨some f, plan.textFrom m'.target 0, closingRemarks plan m.target m'.target⟩
    | .ok _ m' => ⟨none, plan.textFrom m'.target 0, closingRemarks plan m.target m'.target⟩

/-- How a failure ends the command: what is printed, and the exit. -/
def failureExit (rehearsed : Bool) (f : Failure) : String × Except Raised Nat :=
  if f.cause.isReported then ((Report.ofFailure rehearsed f).text ++ "\n", .ok 1)
  else ("", .error (.cause f.cause))

/-- The source text and where it comes from. -/
def readSource (env : Environment) (file : String) :
    Except (Except FileError Raised) (String × String) :=
  if file = "-" then .ok (String.ofList (unifyNewlines env.input.toList), "<stdin>")
  else
    match env.read file with
    | .error e => .error (.error e)
    | .ok content =>
      match decodeText? content with
      | none => .error (.ok .undecodable)
      | some text => .ok (text, file)

/-- How the command ends if it cannot open a file, after what it said before. -/
def fileExit (e : FileError) (name log : String) : Outcome :=
  match e with
  | .nullInName => .silent (.error .badName) log
  | e => .silent (.ok 1) (log ++ commandName ++ ": " ++ e.message name ++ "\n")

/-- Draws a program to an output. -/
def drawTo (fuel : Nat) (env : Environment) (o : Options) (output : String) (program : List Stmt)
    (log : String) : Outcome :=
  let config : Config := ⟨o.svg, o.svgSize, o.unitCircle, o.normalize⟩
  let place (text : String) : String × Option (String × String) :=
    if output = "-" then (text, none) else ("", some (output, text))
  match if output = "-" then .ok () else env.create output with
  | .error e => fileExit e output log
  | .ok () =>
    match config.plan with
    | .error p => ⟨.error (.config p), (place "").1, log, (place "").2⟩
    | .ok plan =>
      let drawn := drawLogged fuel plan program
      let log := if o.verbose then log ++ String.join drawn.remarks else log
      let (message, exit) := match drawn.failure with
        | none => ("", .ok 0)
        | some f => failureExit false f
      let (stdout, written) := place drawn.text
      ⟨exit, stdout, log ++ message, written⟩

/-- What the command does with options that are right. -/
def runWith (fuel : Nat) (env : Environment) (o : Options) : Outcome :=
  let say (part text : String) : String := if o.verbose then remark part text else ""
  match readSource env o.file with
  | .error (.error e) => fileExit e o.file ""
  | .error (.ok raised) => .silent (.error raised) ""
  | .ok (text, origin) =>
    let log := say "" ("read " ++ toString text.length ++ " characters from " ++ origin)
    match parse origin text with
    | .error e => .silent (.ok 1) (log ++ (Report.ofParseError e).text ++ "\n")
    | .ok program =>
      let count := toString program.length ++ " top-level statements"
      let log := log ++ say "ast" ("parsed " ++ count ++ " from " ++ origin)
      match o.dump with
      | some format => ⟨.ok 0, dumpText format program ++ "\n", log, none⟩
      | none =>
        match validate program with
        | some f =>
          let (message, exit) := failureExit true f
          .silent exit (log ++ message)
        | none =>
          let log := log ++ say "interpreter" ("validated " ++ count)
          match o.output with
          | none => .silent (.error .noValue) log
          | some output => drawTo fuel env o output program log

/-- The help text. -/
def helpText : String :=
  "usage: " ++ commandName ++ " [-h] [-o OUTPUT] [--normalize] [--svg] [--svg-size SVG_SIZE]\n" ++
    "               [--svg-unit-circle] [--dump-ast \x7bjson,yaml\x7d] [-v]\n" ++
    "               [file]\n"

/-- What the command does. -/
def run (fuel : Nat) (env : Environment) (words : List String) : Outcome :=
  match Options.read words with
  | .error .help => ⟨.ok 0, helpText, "", none⟩
  | .error .noSize => .silent (.error .noValue) ""
  | .error (.usage e) => .silent (.ok 2) (commandName ++ ": error: " ++ e.message)
  | .ok o => runWith fuel env o

/-- More rounds than any loop can make in practice. -/
def ampleFuel : Nat := Nat.pow 2 62

end PolarPlot.CommandLine
