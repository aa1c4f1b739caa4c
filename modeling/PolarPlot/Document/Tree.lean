import PolarPlot.Document.Datum
import PolarPlot.Syntax.Printer

/-!
# Programs as documents

A document writes each node of a program as an object: its kind under `_type`, its place under
`_position`, then its fields. A `Tree` is what such a document says, read loosely: the kinds of
nodes and the names of their fields are checked, but a field may hold anything. So a tree can be
dumped and read back without loss whether or not it makes sense as a program.
-/

namespace PolarPlot.Document

open Number

/-! ## Kinds of nodes -/

inductive Kind where
  | variable
  | constant
  | binary (op : Operator)
  | call
  | assignment
  | voidCall
  | loop
  | error
  deriving DecidableEq, Repr

namespace Kind

def all : List Kind :=
  [.variable, .constant, .binary .add, .binary .subtract, .binary .multiply, .binary .divide, .call,
   .assignment, .voidCall, .loop, .error]

/-- The name of a kind in a document. -/
def typeName : Kind → String
  | .variable => "Variable"
  | .constant => "Constant"
  | .binary .add => "Add"
  | .binary .subtract => "Subtract"
  | .binary .multiply => "Multiply"
  | .binary .divide => "Divide"
  | .call => "Call"
  | .assignment => "Assignment"
  | .voidCall => "VoidCall"
  | .loop => "Loop"
  | .error => "ErrorStatement"

def ofName? (name : String) : Option Kind := all.find? (·.typeName == name)

/-- The names of the fields of a kind, in order. -/
def fieldNames : Kind → List String
  | .variable => ["name"]
  | .constant => ["value"]
  | .binary _ => ["left", "right"]
  | .call => ["name", "args"]
  | .assignment => ["name", "expr"]
  | .voidCall => ["call"]
  | .loop => ["name", "start", "end", "step", "inclusive", "body"]
  | .error => ["message", "phase"]

end Kind

/-! ## Trees -/

/-- The place of a node as its document gives it. -/
structure Location where
  origin : Datum
  line : Datum
  column : Datum
  deriving Inhabited

def Location.ofPosition (p : Position) : Location :=
  ⟨.scalar (.str p.origin), .scalar (.int p.line), .scalar (.int p.column)⟩

/-- What a document says: a scalar, a sequence, or a node with one value for each field of its
kind. -/
inductive Tree where
  | leaf (s : Scalar)
  /-- A sequence that is the whole document. -/
  | list (items : List Tree)
  /-- A sequence inside of another value. -/
  | tuple (items : List Tree)
  | node (kind : Kind) (loc : Location) (fields : List Tree)
  deriving Inhabited

/-! ## Loading -/

/-- Why data is no document. -/
inductive LoadError where
  | missingType
  | unknownType (name : String)
  /-- A value of the wrong shape, or a field that is missing. -/
  | illShaped
  /-- A constant without a value. -/
  | missingValue
  /-- A text, here in quotes, that is no number. -/
  | notANumber (shown : String)
  /-- An integer that is past every number. -/
  | tooLarge
  deriving DecidableEq, Repr

def LoadError.message : LoadError → String
  | .missingType => "Missing '_type' field in node data"
  | .unknownType name => "Unknown node type: " ++ name
  | .illShaped => ""
  | .missingValue => "'value'"
  | .notANumber shown => "could not convert string to float: " ++ shown
  | .tooLarge => "int too large to convert to float"

/-- The number that the value of a constant stands for. Text is read as a number. -/
def Tree.toNumber : Tree → Except LoadError Float
  | .leaf (.num x) => .ok x
  | .leaf (.int n) =>
    match ofInt? n with
    | some x => .ok x
    | none => .error .tooLarge
  | .leaf (.bool b) => .ok (if b then 1 else 0)
  | .leaf (.str s) =>
    match read? s with
    | some x => .ok x
    | none => .error (.notANumber (Text.quoted s))
  | .leaf (.rough codes) => .error (.notANumber (Text.quotedCodes codes))
  | _ => .error .illShaped

/-- The place of a node. Without one, or with an empty one, the place is unknown. -/
def Location.ofDatum? : Option Datum → Except LoadError Location
  | none => .ok (.ofPosition .unknown)
  | some d =>
    if !d.truthy then .ok (.ofPosition .unknown)
    else
      match d with
      | .obj fields =>
        match field? "origin" fields, field? "line" fields, field? "column" fields with
        | some origin, some line, some column =>
          if fields.length = 3 then .ok ⟨origin, line, column⟩ else .error .illShaped
        | _, _, _ => .error .illShaped
      | _ => .error .illShaped

/-- The kind of a node. -/
def Kind.ofDatum? : Option Datum → Except LoadError Kind
  | none => .error .missingType
  | some (.scalar s) =>
    let known := match s with
      | .str name => ofName? name
      | _ => none
    match known with
    | some kind => .ok kind
    | none => .error (.unknownType s.display)
  | some _ => .error .illShaped

/-- A node from the values of its fields, each as far as it could be loaded. Fields are looked up in
the order of the kind, and fields of other names are passed over. -/
def Tree.ofFields (kind : Kind) (loc : Location) (fields : List (String × Except LoadError Tree)) :
    Except LoadError Tree := do
  let found ← kind.fieldNames.mapM fun name =>
    match field? name fields with
    | none => .ok none
    | some (.ok t) => .ok (some t)
    | some (.error e) => .error e
  match kind, found with
  | .constant, [some t] => return .node kind loc [.leaf (.num (← t.toNumber))]
  | .constant, _ => throw .missingValue
  | .error, [some message, none] => return .node kind loc [message, .leaf (.str Phase.assignment)]
  | _, _ =>
    match found.mapM id with
    | some ts => return .node kind loc ts
    | none => throw .illShaped

namespace Tree

mutual

/-- Loads a value: an object as a node, a list item by item, a scalar as it is. -/
def ofDatum : Datum → Except LoadError Tree
  | .scalar s => .ok (.leaf s)
  | .list items => (ofItems items).map .tuple
  | .obj fields =>
    let loaded := ofEntries fields
    match Kind.ofDatum? (field? "_type" fields) with
    | .error e => .error e
    | .ok kind =>
      match Location.ofDatum? (field? "_position" fields) with
      | .error e => .error e
      | .ok loc => ofFields kind loc loaded

def ofItems : List Datum → Except LoadError (List Tree)
  | [] => .ok []
  | d :: ds => do
    let t ← ofDatum d
    let ts ← ofItems ds
    return t :: ts

def ofEntries : List (String × Datum) → List (String × Except LoadError Tree)
  | [] => []
  | (key, d) :: ds => (key, ofDatum d) :: ofEntries ds

end

/-- Loads a whole document: nothing, a list, or a node. A text is searched for the name of the field
that it would have to have. -/
def load : Datum → Except LoadError Tree
  | .scalar .null => .ok (.leaf .null)
  | .scalar s =>
    match s with
    | .str _ | .rough _ =>
      .error (if (s.display.splitOn "_type").length = 1 then .missingType else .illShaped)
    | _ => .error .illShaped
  | .list items => (ofItems items).map .list
  | .obj fields => ofDatum (.obj fields)

/-! ## Dumping -/

def dumpLocation (loc : Location) : Datum :=
  .obj [("origin", loc.origin), ("line", loc.line), ("column", loc.column)]

mutual

/-- The data of a tree, with the places of nodes or without. -/
def dump (positions : Bool) : Tree → Datum
  | .leaf s => .scalar s
  | .list items | .tuple items => .list (dumpItems positions items)
  | .node kind loc fields =>
    .obj (("_type", .scalar (.str kind.typeName)) ::
      ((if positions then [("_position", dumpLocation loc)] else []) ++
        kind.fieldNames.zip (dumpItems positions fields)))

def dumpItems (positions : Bool) : List Tree → List Datum
  | [] => []
  | t :: ts => dump positions t :: dumpItems positions ts

end

/-! ## Text -/

def spellLocation (loc : Location) : String :=
  "Position(origin=" ++ loc.origin.spell ++ ", line=" ++ loc.line.spell ++ ", column=" ++
    loc.column.spell ++ ")"

/-- Items between brackets. -/
def spellList (ss : List String) : String := "[" ++ ", ".intercalate ss ++ "]"

/-- Items between parentheses; a comma follows a single one. -/
def spellTuple : List String → String
  | [s] => "(" ++ s ++ ",)"
  | ss => "(" ++ ", ".intercalate ss ++ ")"

mutual

/-- A tree spelled out with all its fields. -/
def spell : Tree → String
  | .leaf s => s.spell
  | .list items => spellList (spellItems items)
  | .tuple items => spellTuple (spellItems items)
  | .node kind loc fields =>
    let parts := kind.fieldNames.zip (spellItems fields) |>.map fun (name, s) => name ++ "=" ++ s
    kind.typeName ++ "(" ++ ", ".intercalate (("position=" ++ spellLocation loc) :: parts) ++ ")"

def spellItems : List Tree → List String
  | [] => []
  | t :: ts => spell t :: spellItems ts

end

/-- Whether a value counts as yes. -/
def truthy : Tree → Bool
  | .leaf s => s.truthy
  | .list items | .tuple items => !items.isEmpty
  | .node _ _ _ => true

mutual

/-- The text of a tree in the notation of programs. A node has none if a list in it cannot be gone
through, or if it is a variable whose name is no text. -/
def text? : Tree → Option String
  | .leaf s => some s.display
  | .list items => some (spellList (spellItems items))
  | .tuple items => some (spellTuple (spellItems items))
  | .node .variable _ [.leaf (.str name)] => some name
  | .node .constant _ [.leaf (.num x)] => some (generalText x)
  | .node (.binary op) _ [left, right] => do
    return "(" ++ (← text? left) ++ ") " ++ op.symbol ++ " (" ++ (← text? right) ++ ")"
  | .node .call _ [name, args] => do
    let name ← text? name
    let args ← partTexts? args
    return name ++ "(" ++ ", ".intercalate args ++ ")"
  | .node .assignment _ [name, value] => do
    return (← text? name) ++ " = " ++ (← text? value)
  | .node .voidCall _ [call] => text? call
  | .node .loop _ [name, start, stop, step, inclusive, body] => do
    let step ← match step with
      | .leaf .null => pure ""
      | step => do pure (" by " ++ (← text? step))
    let body ← partTexts? body
    return "for " ++ (← text? name) ++ " over [" ++ (← text? start) ++ ", " ++ (← text? stop) ++
      rangeEnd inclusive.truthy ++ step ++ " \x7b " ++ " ".intercalate body ++ " \x7d"
  | .node .error _ [message, _] => do return "<error: " ++ (← text? message) ++ ">"
  | _ => none

/-- The texts of the parts of a value that can be gone through: items, or characters. -/
def partTexts? : Tree → Option (List String)
  | .list items | .tuple items => texts? items
  | .leaf (.str s) => some (s.toList.map String.singleton)
  | _ => none

def texts? : List Tree → Option (List String)
  | [] => some []
  | t :: ts => do return (← text? t) :: (← texts? ts)

end

end Tree

end PolarPlot.Document
