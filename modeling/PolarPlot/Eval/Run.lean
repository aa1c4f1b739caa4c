import PolarPlot.Eval.Report

/-!
# From text to drawing

A source text is parsed, rehearsed and then run against a target. Nothing reaches the target before
the rehearsal has succeeded.
-/

namespace PolarPlot

open Grammar

/-- Why a source text was not drawn to its end. -/
inductive RunError where
  | parse (e : ParseError)
  | rehearsal (f : Failure)
  | drawing (f : Failure)

def RunError.report : RunError → Report
  | .parse e => .ofParseError e
  | .rehearsal f => .ofFailure true f
  | .drawing f => .ofFailure false f

section

variable {σ : Type} (fuel : Nat) (target : Target σ)

/-- Runs a program without a rehearsal: what stopped it, and the state of the target after it. -/
def draw (program : List Stmt) (state : σ) : Option RunError × σ :=
  match execute fuel target program (Machine.fresh state) with
  | .ok _ m => (none, m.target)
  | .error f m => (some (.drawing f), m.target)

/-- Rehearses a program and then runs it. -/
def rehearseAndDraw (program : List Stmt) (state : σ) : Option RunError × σ :=
  match validate program with
  | some f => (some (.rehearsal f), state)
  | none => draw fuel target program state

/-- Parses a source text, rehearses it and then runs it. -/
def run (origin text : String) (state : σ) : Option RunError × σ :=
  match parse origin text with
  | .error e => (some (.parse e), state)
  | .ok program => rehearseAndDraw fuel target program state

end

end PolarPlot
