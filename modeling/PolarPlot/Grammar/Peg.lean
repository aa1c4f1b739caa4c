import PolarPlot.Grammar.Token

/-!
# Parsing expressions

A parsing expression grammar as data. A `Peg` says which texts it takes and which value it builds
from them; choice is ordered, repetition is greedy, and both go back to where they started when a
part fails. `Peg.run` decides what a parsing expression takes. It also keeps the furthest place
where a token was missing, over the whole run and through all alternatives, because that is what an
error message shows.
-/

namespace PolarPlot.Grammar

/-- The text that a token took, and where it starts. -/
structure Lexeme where
  text : String
  pos : Position
  deriving DecidableEq, Repr

/-- What was missing at a place: a token, or a line comment, which could always stand there. -/
inductive Expectation where
  | lineComment
  | token (t : Token)
  deriving DecidableEq, Repr

def Expectation.label : Expectation → String
  | .lineComment => "comment_line"
  | .token t => t.label

/-- The furthest place where something was missing, and all that was missing there, each once and in
the order in which it was first tried. -/
structure Furthest where
  place : Cursor
  expected : List Expectation
  deriving DecidableEq, Repr

/-- Records that something was missing at a place. A nearer place than the furthest is forgotten. -/
def Furthest.note (f : Furthest) (what : Expectation) (place : Cursor) : Furthest :=
  if f.place.offset < place.offset then ⟨place, [what]⟩
  else if place.offset < f.place.offset || f.expected.contains what then f
  else { f with expected := f.expected ++ [what] }

/-- A parsing expression that builds an `α`, over rules named by `R`. -/
inductive Peg (R : Type → Type) : Type → Type 1 where
  | token (t : Token) : Peg R Lexeme
  | rule {α : Type} (r : R α) : Peg R α
  /-- One after the other. -/
  | seq {α β : Type} (p : Peg R α) (q : Peg R β) : Peg R (α × β)
  /-- The first if it matches, or else the second. -/
  | choice {α : Type} (p q : Peg R α) : Peg R α
  /-- As many as there are. -/
  | many {α : Type} (p : Peg R α) : Peg R (List α)
  /-- One, or none if it does not match. -/
  | option {α : Type} (p : Peg R α) : Peg R (Option α)
  | map {α β : Type} (f : α → β) (p : Peg R α) : Peg R β

namespace Peg

variable {R : Type → Type} {α β : Type}

/-- One after the other, for the value of the first. -/
def before (p : Peg R α) (q : Peg R β) : Peg R α := (p.seq q).map Prod.fst

/-- One after the other, for the value of the second. -/
def andThen (p : Peg R α) (q : Peg R β) : Peg R β := (p.seq q).map Prod.snd

/-- At least one. -/
def some (p : Peg R α) : Peg R (List α) := (p.seq p.many).map fun (a, as) => a :: as

/-- At least one, with a separator between them. A separator with nothing after it is not taken. -/
def sepBy (p : Peg R α) (separator : Peg R β) : Peg R (List α) :=
  (p.seq (separator.andThen p).many).map fun (a, as) => a :: as

end Peg

/-- What a parsing expression takes at a place: its value and the place after it, or nothing. The
furthest failure goes in and comes out. -/
def Run (α : Type) : Type := Cursor → Furthest → Option (α × Cursor) × Furthest

namespace Run

variable {α β : Type}

/-- Fails without a trace. -/
def fail : Run α := fun _ f => (none, f)

def token (t : Token) : Run Lexeme := fun c f =>
  let c := skipLayout c
  match t.length? c.rest with
  | some n => (some (⟨String.ofList (c.rest.take n), c.position⟩, c.advance n), f)
  | none => (none, f.note (.token t) c)

def seq (p : Run α) (q : Run β) : Run (α × β) := fun c f =>
  match p c f with
  | (none, f) => (none, f)
  | (some (a, c), f) =>
    match q c f with
    | (none, f) => (none, f)
    | (some (b, c), f) => (some ((a, b), c), f)

def choice (p q : Run α) : Run α := fun c f =>
  match p c f with
  | (none, f) => q c f
  | r => r

/-- Takes `p` over and over, at most `fuel` times. -/
def manyFrom (p : Run α) : Nat → Cursor → Furthest → (List α × Cursor) × Furthest
  | 0, c, f => (([], c), f)
  | fuel + 1, c, f =>
    match p c f with
    | (none, f) => (([], c), f)
    | (some (a, c), f) =>
      let ((as, c), f) := manyFrom p fuel c f
      ((a :: as, c), f)

/-- Where `p` always takes a character, one try for each character and one more are enough. -/
def many (p : Run α) : Run (List α) := fun c f =>
  let (r, f) := manyFrom p (c.rest.length + 1) c f
  (some r, f)

def option (p : Run α) : Run (Option α) := fun c f =>
  match p c f with
  | (none, f) => (some (none, c), f)
  | (some (a, c), f) => (some (some a, c), f)

def map (g : α → β) (p : Run α) : Run β := fun c f =>
  match p c f with
  | (none, f) => (none, f)
  | (some (a, c), f) => (some (g a, c), f)

end Run

/-- What a parsing expression takes, given what its rules take. -/
def Peg.run {R : Type → Type} (rules : (α : Type) → R α → Run α) : {α : Type} → Peg R α → Run α
  | _, .token t => Run.token t
  | _, .rule r => rules _ r
  | _, .seq p q => Run.seq (p.run rules) (q.run rules)
  | _, .choice p q => Run.choice (p.run rules) (q.run rules)
  | _, .many p => Run.many (p.run rules)
  | _, .option p => Run.option (p.run rules)
  | _, .map g p => Run.map g (p.run rules)

/-- What a rule takes when rules may be nested at most `depth` deep. -/
def ruleRun {R : Type → Type} (grammar : (α : Type) → R α → Peg R α) :
    Nat → (α : Type) → R α → Run α
  | 0, _, _ => Run.fail
  | depth + 1, _, r => (grammar _ r).run (ruleRun grammar depth)

end PolarPlot.Grammar
