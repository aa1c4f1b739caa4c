import PolarPlot.Document.Json.Printer
import PolarPlot.Document.Json.Reader
import PolarPlot.Document.Tree

/-!
# Trees and programs

Every program is a tree. A tree becomes a program by taking each node for what its kind says;
whatever stands in the wrong place becomes a misfit, so that it is an error when it is run and not
before.
-/

namespace PolarPlot

open Document Number

/-! ## From programs to trees -/

/-- What stands in the place of a name. -/
def Label.toTree : Label → Tree
  | .word text => .leaf (.str text)
  | .value _ _ json =>
    match Json.read json.toList with
    | .ok d => (Tree.ofDatum d).toOption.getD (.leaf .null)
    | .error _ => .leaf .null

mutual

def Expr.toTree : Expr → Tree
  | .var pos name => .node .variable (.ofPosition pos) [name.toTree]
  | .const pos value => .node .constant (.ofPosition pos) [.leaf (.num value)]
  | .binary pos op left right =>
    .node (.binary op) (.ofPosition pos) [left.toTree, right.toTree]
  | .call pos name args =>
    .node .call (.ofPosition pos) [name.toTree, .tuple (Expr.toTrees args)]
  | .misfit _ => .leaf .null

def Expr.toTrees : List Expr → List Tree
  | [] => []
  | e :: es => e.toTree :: Expr.toTrees es

end

mutual

def Stmt.toTree : Stmt → Tree
  | .assign pos name value =>
    .node .assignment (.ofPosition pos) [name.toTree, value.toTree]
  | .call pos e => .node .voidCall (.ofPosition pos) [e.toTree]
  | .loop pos name start stop step inclusive body =>
    .node .loop (.ofPosition pos)
      [name.toTree, start.toTree, stop.toTree, (step.map Expr.toTree).getD (.leaf .null),
       .leaf (.bool inclusive), .tuple (Stmt.toTrees body)]
  | .invalid pos message phase =>
    .node .error (.ofPosition pos) [.leaf (.str message), phase.toTree]
  | .misfit _ => .leaf .null

def Stmt.toTrees : List Stmt → List Tree
  | [] => []
  | s :: ss => s.toTree :: Stmt.toTrees ss

end

/-- A program as a tree. -/
def Document.Tree.ofProgram (program : List Stmt) : Tree := .list (Stmt.toTrees program)

/-! ## From trees to programs -/

namespace Document

/-- The name of the sort of a value that stands where a node belongs. -/
def Tree.sortName : Tree → String
  | .leaf s => s.sortName
  | .list _ => "list"
  | .tuple _ => "tuple"
  | .node kind _ _ => kind.typeName

/-- The text in the place of a name. -/
def Tree.display (t : Tree) : String := t.text?.getD t.spell

mutual

/-- A key that values share if they are equal: numbers as numbers, nodes up to their places. -/
def Tree.key : Tree → String
  | .leaf (.bool b) => if b then "1" else "0"
  | .leaf (.num x) => if x.isFinite && ofInt (floor x) == x then toString (floor x) else plainText x
  | .leaf s => s.spell
  | .list items => Tree.spellList (Tree.keys items)
  | .tuple items => Tree.spellTuple (Tree.keys items)
  | .node kind _ fields => kind.typeName ++ Tree.spellTuple (Tree.keys fields)

def Tree.keys : List Tree → List String
  | [] => []
  | t :: ts => t.key :: Tree.keys ts

end

/-- The name that a value stands for. -/
def Tree.toLabel : Tree → Label
  | .leaf (.str s) => .word s
  | t => .value t.display t.key (Json.text none (t.dump true))

/-- The place of a node. If the document gives no text and two numbers, it is only good for being
shown. -/
def Location.toPosition (loc : Location) : Position :=
  match loc.origin, loc.line, loc.column with
  | .scalar (.str origin), .scalar (.int line), .scalar (.int column) => { origin, line, column }
  | origin, line, column =>
    { Position.unknown with spelling := some ⟨origin.display, line.display, column.display⟩ }

/-- Characters in the place of a list of nodes. -/
def misfitChars (s : String) : List Misfit := s.toList.map fun _ => .sort "str"

end Document

mutual

def Expr.ofTree : Tree → Expr
  | .node .variable loc [name] => .var loc.toPosition name.toLabel
  | .node .constant loc [.leaf (.num x)] => .const loc.toPosition x
  | .node (.binary op) loc [left, right] =>
    .binary loc.toPosition op (Expr.ofTree left) (Expr.ofTree right)
  | .node .call loc [name, .list args] | .node .call loc [name, .tuple args] =>
    .call loc.toPosition name.toLabel (Expr.ofTrees args)
  | .node .call loc [name, .leaf (.str args)] =>
    .call loc.toPosition name.toLabel ((misfitChars args).map .misfit)
  | .node .call _ _ => .misfit .unlisted
  | t => .misfit (.sort t.sortName)

def Expr.ofTrees : List Tree → List Expr
  | [] => []
  | t :: ts => Expr.ofTree t :: Expr.ofTrees ts

end

/-- The step of a loop, if it has one. -/
def Expr.ofOptionalTree : Tree → Option Expr
  | .leaf .null => none
  | t => some (Expr.ofTree t)

mutual

def Stmt.ofTree : Tree → Stmt
  | .node .assignment loc [name, value] => .assign loc.toPosition name.toLabel (Expr.ofTree value)
  | .node .voidCall loc [e] => .call loc.toPosition (Expr.ofTree e)
  | .node .loop loc [name, start, stop, step, inclusive, body] =>
    .loop loc.toPosition name.toLabel (Expr.ofTree start) (Expr.ofTree stop)
      (Expr.ofOptionalTree step) inclusive.truthy (Stmt.ofListTree body)
  | .node .error loc [message, phase] => .invalid loc.toPosition message.display phase.toLabel
  | t => .misfit (.sort t.sortName)

/-- The statements in the place of a list of them. -/
def Stmt.ofListTree : Tree → List Stmt
  | .list items | .tuple items => Stmt.ofTrees items
  | .leaf (.str s) => (misfitChars s).map .misfit
  | _ => [.misfit .unlisted]

def Stmt.ofTrees : List Tree → List Stmt
  | [] => []
  | t :: ts => Stmt.ofTree t :: Stmt.ofTrees ts

end

/-- The program that a document stands for. -/
def Document.Tree.toProgram (t : Tree) : List Stmt := Stmt.ofListTree t

/-- The expression that a document stands for. -/
def Document.Tree.toExpr (t : Tree) : Expr := Expr.ofTree t

end PolarPlot
