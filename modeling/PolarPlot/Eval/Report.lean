import PolarPlot.Eval.Exec
import PolarPlot.Grammar.Parse

/-!
# Error reports

A report tells an error together with what led to it: a chain of notices, each tied to the next. It
is shown with one line for each notice, set in further and further, up to the first that is not an
error of this library.
-/

namespace PolarPlot

open Grammar

/-- Errors that are known by their kind and wording alone. -/
inductive Family where
  | general
  | invalidRange
  | illegalTarget
  | render
  | output
  | unnormalized
  /-- An error from outside of this library. -/
  | foreign
  deriving DecidableEq, Repr

/-- One error. -/
inductive Notice where
  /-- A statement that failed, in a rehearsal or for real. -/
  | statement (rehearsed : Bool) (frame : Frame)
  | parse (message : String) (line column : Int)
  | cause (c : Cause)
  | worded (family : Family) (message : String)
  deriving DecidableEq

namespace Notice

def message : Notice → String
  | .statement _ frame =>
    frame.phase.text ++ " at line " ++ frame.pos.shown.line ++ ", column " ++ frame.pos.shown.column
  | .parse message _ _ => message
  | .cause c => c.message
  | .worded _ message => message

/-- Whether a notice is an error of this library. -/
def isReported : Notice → Bool
  | .statement _ _ => true
  | .parse _ _ _ => true
  | .cause c => c.isReported
  | .worded family _ => family ≠ .foreign

/-- Whether a notice is an error of the output. -/
def isRender : Notice → Bool
  | .cause c => c.isRender
  | .worded family _ => family = .render || family = .output || family = .unnormalized
  | _ => false

end Notice

/-- How a notice is tied to the next: as its cause, as what it was raised from, or both. -/
inductive Link where
  | cause
  | origin
  | both
  deriving DecidableEq, Repr

/-- A notice, and its tie to the one after it. -/
structure Entry where
  notice : Notice
  link : Link
  deriving DecidableEq

/-- A notice and those that led to it. -/
structure Report where
  first : Entry
  rest : List Entry
  deriving DecidableEq

namespace Report

/-- The report of a single notice. -/
def single (notice : Notice) : Report := ⟨⟨notice, .both⟩, []⟩

def ofNotices (first : Notice) (rest : List Notice) : Report :=
  ⟨⟨first, .both⟩, rest.map fun n => ⟨n, .both⟩⟩

def ofParseError (e : ParseError) : Report := single (.parse e.message e.line e.column)

/-- The report of a failure. In a rehearsal the outermost statement is marked. -/
def ofFailure (rehearsed : Bool) (f : Failure) : Report :=
  match f.frames with
  | [] => single (.cause f.cause)
  | frame :: frames =>
    ofNotices (.statement rehearsed frame) (frames.map (.statement false) ++ [.cause f.cause])

/-- The lines of notices from a depth on, up to the first from outside. -/
def lines : Nat → List Entry → List String
  | _, [] => []
  | depth, e :: rest =>
    if e.notice.isReported then
      (String.ofList (List.replicate (2 * depth) ' ') ++ e.notice.message) :: lines (depth + 1) rest
    else []

/-- The text of a report. The first notice is always shown. -/
def text (r : Report) : String :=
  "\n".intercalate (r.first.notice.message :: lines 1 r.rest)

/-- The notice at the end of the causes of statements. -/
def rootOf : Entry → List Entry → Notice
  | e, [] => e.notice
  | e, next :: rest =>
    match e.notice with
    | .statement _ _ => if e.link = .origin then e.notice else rootOf next rest
    | notice => notice

def root (r : Report) : Notice := rootOf r.first r.rest

/-- The report with its first statement marked as rehearsed. It keeps its cause and is raised from
nothing. -/
def rehearsed (r : Report) : Report :=
  match r.first.notice with
  | .statement _ frame =>
    if r.first.link = .origin then single (.statement true frame)
    else { r with first := ⟨.statement true frame, .cause⟩ }
  | _ => r

end Report

end PolarPlot
