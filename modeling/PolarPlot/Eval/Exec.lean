import PolarPlot.Eval.Bindings
import PolarPlot.Eval.Function
import PolarPlot.Eval.Range
import PolarPlot.Syntax.Printer

/-!
# Running programs

An expression is evaluated against the variables and a target; only drawing functions change the
target, and nothing changes the variables. Statements run in order until one fails. A failure
carries the statements that it is inside of, from the outermost in.
-/

namespace PolarPlot

/-- A statement that failed: what was going on, and where. -/
structure Frame where
  phase : Label
  pos : Position
  deriving DecidableEq, Repr

/-- Why a program stopped: the statements that failed, outermost first, and the cause. -/
structure Failure where
  frames : List Frame
  cause : Cause
  deriving DecidableEq

/-- The failure seen from a statement around it. Only reported causes gather statements. -/
def Failure.within (f : Failure) (frame : Frame) : Failure :=
  if f.cause.isReported then { f with frames := frame :: f.frames } else f

/-! ## Expressions -/

section Expressions

variable {σ : Type} (target : Target σ)

/-- The value of a variable, or the error that it has none. -/
def Bindings.find (vars : Bindings) (name : Label) : Except Cause Float :=
  match vars.get? name with
  | some value => .ok value
  | none => .error (.undefinedVariable name)

/-- Raises an error, if that is what there is. -/
def Action.ofExcept {α : Type} : Except Cause α → Action σ α
  | .ok a => pure a
  | .error e => throw e

/-- Combines the values of two operands. -/
def Operator.apply : Operator → Float → Float → Float
  | .add, x, y => x + y
  | .subtract, x, y => x - y
  | .multiply, x, y => x * y
  | .divide, x, y => x / y

/-- The cause that a quotient has a zero for its divisor. It shows the quotient. -/
def Cause.divisionByZero (e : Expr) : Cause :=
  if e.hasText then .math "divide" ("division by zero in " ++ e.text) else .notText

mutual

/-- Evaluates an expression, the left operand before the right and all arguments before the call. -/
def Expr.eval (vars : Bindings) : Expr → Action σ Float
  | .const _ value => pure value
  | .var _ name => Action.ofExcept (vars.find name)
  | .binary pos op left right => do
    let x ← left.eval vars
    let y ← right.eval vars
    if op = .divide && y == 0 then
      throw (.divisionByZero (.binary pos op left right))
    else return op.apply x y
  | .call _ name args => do
    let values ← Expr.evalAll vars args
    Function.dispatch target name values
  | .misfit what => throw (.ofExprMisfit what)

def Expr.evalAll (vars : Bindings) : List Expr → Action σ (List Float)
  | [] => pure []
  | e :: es => do
    let value ← e.eval vars
    let values ← Expr.evalAll vars es
    return value :: values

end

end Expressions

/-! ## Statements -/

/-- A program at work: its variables, and the state of its target. -/
structure Machine (σ : Type) where
  vars : Bindings
  target : σ

/-- A step of a program. -/
abbrev Exec (σ α : Type) : Type := EStateM Failure (Machine σ) α

namespace Exec

variable {σ α : Type}

/-- Does a step on the target. -/
def onTarget (act : Action σ α) : Exec σ α := fun m =>
  match act m.target with
  | .ok a s => .ok a { m with target := s }
  | .error e s => .error ⟨[], e⟩ { m with target := s }

/-- Evaluates an expression. -/
def eval (target : Target σ) (e : Expr) : Exec σ Float := do
  onTarget (e.eval target (← get).vars)

def assign (name : Label) (value : Float) : Exec σ Unit :=
  modify fun m => { m with vars := m.vars.assign name value }

/-- Does a step inside a statement. -/
def inside (phase : Label) (pos : Position) (act : Exec σ α) : Exec σ α := fun m =>
  match act m with
  | .ok a m => .ok a m
  | .error f m => .error (f.within ⟨phase, pos⟩) m

def fail (cause : Cause) : Exec σ α := throw ⟨[], cause⟩

def ofExcept : Except Cause α → Exec σ α
  | .ok a => pure a
  | .error e => fail e

/-- Runs the body for each value of a range, at most `fuel` times. -/
def sweep (body : Float → Exec σ Unit) : Nat → Range → Exec σ Unit
  | 0, r => if r.next?.isSome then fail .outOfFuel else pure ()
  | fuel + 1, r =>
    match r.next? with
    | none => pure ()
    | some (value, r) => do
      body value
      sweep body fuel r

end Exec

section Statements

variable {σ : Type} (pass : Pass) (fuel : Nat) (target : Target σ)

mutual

/-- Runs a statement. No loop runs its body more than `fuel` times. -/
def Stmt.exec : Stmt → Exec σ Unit
  | .assign pos name value =>
    Exec.inside Phase.assignment pos do
      Exec.assign name (← Exec.eval target value)
  | .call pos e =>
    Exec.inside Phase.call pos do
      let _ ← Exec.eval target e
  | .loop pos name start stop step inclusive body =>
    Exec.inside Phase.loop pos do
      let first ← Exec.eval target start
      let last ← Exec.eval target stop
      let stride ← match step with
        | none => pure none
        | some step => do pure (some (← Exec.eval target step))
      Exec.ofExcept (Range.check first last stride)
      let range ← Exec.ofExcept (pass.range first last stride inclusive)
      Exec.sweep (fun value => do
        Exec.assign name value
        Stmt.execAll body) fuel range
  | .invalid pos message phase =>
    Exec.inside phase pos (Exec.fail (.illegalTarget message))
  | .misfit what => Exec.fail (.ofStmtMisfit what)

/-- Runs statements in order up to the first that fails. -/
def Stmt.execAll : List Stmt → Exec σ Unit
  | [] => pure ()
  | s :: ss => do
    s.exec
    Stmt.execAll ss

end

end Statements

/-! ## Programs -/

/-- Runs a program against a target, and closes the target if no statement failed. -/
def execute {σ : Type} (fuel : Nat) (target : Target σ) (program : List Stmt) : Exec σ Unit := do
  Stmt.execAll .real fuel target program
  Exec.onTarget target.close

/-- A machine that has not run yet. -/
def Machine.fresh {σ : Type} (state : σ) : Machine σ := ⟨.empty, state⟩

/-- Rehearses a program: `none` if nothing fails. A rehearsal runs each loop body once. -/
def validate (program : List Stmt) : Option Failure :=
  match Stmt.execAll .rehearsal 1 Target.discard program (Machine.fresh ()) with
  | .ok _ _ => none
  | .error f _ => some f

end PolarPlot
