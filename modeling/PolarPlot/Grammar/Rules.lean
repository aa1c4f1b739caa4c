import PolarPlot.Grammar.Peg
import PolarPlot.Number.Decimal
import PolarPlot.Number.Layout
import PolarPlot.Syntax.Program

/-!
# The grammar of programs

Each rule builds its node as it goes. A node has the place of its first token; an operator has the
place of the whole sum or product that it is part of. Operators of one rank group to the left, and
parentheses leave no node.
-/

namespace PolarPlot.Grammar

open Number

/-- The rules that may occur within themselves. -/
inductive Rule : Type → Type where
  | expr : Rule Expr
  | stmt : Rule Stmt

abbrev Pattern (α : Type) : Type 1 := Peg Rule α

/-- Names that stand for a number and cannot be assigned to. -/
def reserved? (name : String) : Option Float :=
  if name = "pi" || name = "π" then some 3.141592653589793
  else if name = "e" then some 2.718281828459045
  else none

/-! ## Expressions

An operand comes with the place where it starts, which is not that of its node when it is in
parentheses. -/

/-- An operand: the place of its first token, and its node. -/
abbrev Operand : Type := Position × Expr

def numberNode (l : Lexeme) : Expr := .const l.pos (Decimal.ofNumeral l.text.toList).toFloat

def nameNode (l : Lexeme) : Expr :=
  match reserved? l.text with
  | some value => .const l.pos value
  | none => .var l.pos l.text

/-- Joins operands from left to right, every node at the place where the first one starts. -/
def joinOperands (first : Operand) (rest : List (Operator × Operand)) : Operand :=
  (first.1, rest.foldl (fun left (op, right) => .binary first.1 op left right.2) first.2)

def operator (t : Token) (op : Operator) : Pattern Operator := (Peg.token t).map fun _ => op

def arguments : Pattern (List Expr) := (Peg.rule Rule.expr).sepBy (Peg.token .comma)

def call : Pattern (Lexeme × List Expr) :=
  (Peg.token .function).seq
    ((Peg.token .paren).andThen (arguments.before (Peg.token .endParen)))

def callNode (name : Lexeme) (args : List Expr) : Expr := .call name.pos name.text args

def parenthesized : Pattern Operand :=
  ((Peg.token .paren).seq ((Peg.rule Rule.expr).before (Peg.token .endParen))).map
    fun (l, e) => (l.pos, e)

def factor : Pattern Operand :=
  ((Peg.token .number).map fun l => (l.pos, numberNode l)).choice <|
  (call.map fun (name, args) => (name.pos, callNode name args)).choice <|
  ((Peg.token .name).map fun l => (l.pos, nameNode l)).choice
  parenthesized

def term : Pattern Operand :=
  (factor.seq
    (((operator .multiply .multiply).choice (operator .divide .divide)).seq factor).many).map
      fun (first, rest) => joinOperands first rest

def expr : Pattern Expr :=
  (term.seq
    (((operator .add .add).choice (operator .subtract .subtract)).seq term).many).map
      fun (first, rest) => (joinOperands first rest).2

/-! ## Statements -/

/-- The statement in place of one whose target is a reserved name. -/
def reservedTarget (pos : Position) (value : Float) (phase : String) : Stmt :=
  .invalid pos (generalText value ++ " is not a variable") phase

def assignment : Pattern Stmt :=
  ((Peg.token .name).seq ((Peg.token .assign).andThen (Peg.rule Rule.expr))).map
    fun (name, value) =>
    match reserved? name.text with
    | some constant => reservedTarget name.pos constant Phase.assignment
    | none => .assign name.pos name.text value

def callStatement : Pattern Stmt :=
  call.map fun (name, args) => .call name.pos (callNode name args)

def step : Pattern Expr := (Peg.token .wordBy).andThen (Peg.rule Rule.expr)

def block : Pattern (List Stmt) :=
  (Peg.token .brace).andThen ((Peg.rule Rule.stmt).some.before (Peg.token .endBrace))

def loop : Pattern Stmt :=
  ((Peg.token .wordFor).seq <|
    (Peg.token .name).seq <|
    (Peg.token .wordOver).andThen <|
    (Peg.token .bracket).andThen <|
    (Peg.rule Rule.expr).seq <|
    (Peg.token .comma).andThen <|
    (Peg.rule Rule.expr).seq <|
    (Peg.token .rangeEnd).seq <|
    step.option.seq
    block).map fun (first, name, start, stop, close, step, body) =>
      match reserved? name.text with
      | some constant => reservedTarget first.pos constant Phase.loop
      | none => .loop first.pos name.text start stop step (close.text == "]") body

def stmt : Pattern Stmt := loop.choice (assignment.choice callStatement)

def program : Pattern (List Stmt) := (Peg.rule Rule.stmt).some.before (Peg.token .eof)

def grammar : (α : Type) → Rule α → Pattern α
  | _, .expr => expr
  | _, .stmt => stmt

end PolarPlot.Grammar
