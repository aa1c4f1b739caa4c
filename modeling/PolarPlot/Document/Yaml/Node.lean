import PolarPlot.Document.Yaml.Token

/-!
# Nodes

The tokens of a document make a tree of nodes: scalars, lists and objects, each with a tag if it was
given one. A name before a node stands for that node wherever it is used again.
-/

namespace PolarPlot.Document.Yaml

inductive Node where
  | scalar (tag : Option String) (text : String) (isPlain : Bool)
  | list (tag : Option String) (items : List Node)
  | obj (tag : Option String) (fields : List (Node × Node))
  deriving Inhabited

namespace Node

/-- What stands where nothing is written. -/
def nothing : Node := .scalar none "" true

/-- The tokens still to be read, the names given so far, and the nodes that they stand for. -/
structure State where
  tokens : List Token
  names : List String
  nodes : List (String × Node)

abbrev Reading (α : Type) : Type := StateT State (Except Fault) α

/-- The next token. A fault in the text is met only here. -/
def peek : Reading Token := do
  match (← get).tokens with
  | [] => return .endOfText
  | .fault f :: _ => throw f
  | t :: _ => return t

def advance : Reading Unit := modify fun s => { s with tokens := s.tokens.drop 1 }

/-- Nothing, if the next token says so; else what is read. -/
def unlessNext (stops : List Token) (read : Reading Node) : Reading Node := do
  if stops.contains (← peek) then return nothing else read

/-! ## Names and tags -/

/-- The start of the tags that are known. -/
def knownTags : String := "tag:yaml.org,2002:"

/-- The full tag. The one of a single mark says no more than none. -/
def fullTag : Option String → String → Except Fault (Option String)
  | none, name => .ok (if name = "!" then none else some name)
  | some "!", name => .ok (some ("!" ++ name))
  | some "!!", name => .ok (some (knownTags ++ name))
  | some _, _ => .error .misplaced

/-- What stands before a node. A tag of a single mark makes a scalar count as plain. -/
structure Properties where
  name : Option String
  tag : Option String
  marked : Bool
  given : Bool

def readTag (p : Properties) : Reading Properties := do
  match ← peek with
  | .tag handle name =>
    advance
    let tag ← (fullTag handle name : Except Fault (Option String))
    return { p with tag, marked := tag.isNone, given := true }
  | _ => return p

def readName (p : Properties) : Reading Properties := do
  match ← peek with
  | .anchor name =>
    advance
    return { p with name := some name, given := true }
  | _ => return p

/-- Reads a name and a tag in either order. -/
def readProperties : Reading Properties := do
  let p ← readName ⟨none, none, false, false⟩
  let p ← readTag p
  if p.name.isNone then readName p else return p

/-- Takes note of a name that is not in use. -/
def declare : Option String → Reading Unit
  | none => return
  | some name => do
    let s ← get
    if s.names.contains name then throw .badReference
    set { s with names := name :: s.names }

def define (name : Option String) (node : Node) : Reading Node := do
  if let some name := name then modify fun s => { s with nodes := (name, node) :: s.nodes }
  return node

/-! ## Collections -/

/-- Reads what follows a key: a value after its colon, or nothing. -/
def readValue (part : Reading Node) : Reading Node := do
  if (← peek) = .value then
    advance
    part
  else return nothing

def readComma : Reading Unit := do
  if (← peek) = .comma then advance else throw .misplaced

mutual

/-- Reads a node. Blocks are read where they may stand; a list without a block of its own may stand
after a key. -/
def readNode (inBlock afterKey : Bool) : Nat → Reading Node
  | 0 => throw .misplaced
  | fuel + 1 => do
    if let .reference name ← peek then
      advance
      match (← get).nodes.lookup name with
      | some node => return node
      | none => throw .badReference
    let p ← readProperties
    match ← peek with
    | .scalar text isPlain =>
      declare p.name
      advance
      define p.name (.scalar p.tag text ((isPlain && p.tag.isNone) || p.marked))
    | .openList =>
      declare p.name
      advance
      define p.name (.list p.tag (← readFlowItems true fuel))
    | .openObject =>
      declare p.name
      advance
      define p.name (.obj p.tag (← readFlowFields true fuel))
    | t =>
      if t = .item && afterKey then
        declare p.name
        define p.name (.list p.tag (← readLooseItems fuel))
      else if t = .blockList && inBlock then
        declare p.name
        advance
        define p.name (.list p.tag (← readItems fuel))
      else if t = .blockObject && inBlock then
        declare p.name
        advance
        define p.name (.obj p.tag (← readFields fuel))
      else if p.given then
        declare p.name
        define p.name (.scalar p.tag "" p.tag.isNone)
      else throw .misplaced

/-- Reads the items of a block. -/
def readItems : Nat → Reading (List Node)
  | 0 => throw .misplaced
  | fuel + 1 => do
    match ← peek with
    | .item =>
      advance
      let node ← unlessNext [.item, .blockEnd] (readNode true false fuel)
      return node :: (← readItems fuel)
    | .blockEnd =>
      advance
      return []
    | _ => throw .misplaced

/-- Reads the items of a list at the column of its key. -/
def readLooseItems : Nat → Reading (List Node)
  | 0 => throw .misplaced
  | fuel + 1 => do
    match ← peek with
    | .item =>
      advance
      let node ← unlessNext [.item, .key, .value, .blockEnd] (readNode true false fuel)
      return node :: (← readLooseItems fuel)
    | _ => return []

/-- Reads the fields of a block. -/
def readFields : Nat → Reading (List (Node × Node))
  | 0 => throw .misplaced
  | fuel + 1 => do
    match ← peek with
    | .key =>
      advance
      let part : Reading Node := unlessNext [.key, .value, .blockEnd] (readNode true true fuel)
      let key ← part
      let value ← readValue part
      return (key, value) :: (← readFields fuel)
    | .blockEnd =>
      advance
      return []
    | _ => throw .misplaced

/-- Reads the items of a list in brackets. A single field stands for an object. -/
def readFlowItems (first : Bool) : Nat → Reading (List Node)
  | 0 => throw .misplaced
  | fuel + 1 => do
    if (← peek) = .closeList then
      advance
      return []
    if !first then readComma
    match ← peek with
    | .key =>
      advance
      let key ← unlessNext [.value, .comma, .closeList] (readNode false false fuel)
      let value ← readValue (unlessNext [.comma, .closeList] (readNode false false fuel))
      return .obj none [(key, value)] :: (← readFlowItems false fuel)
    | .closeList =>
      advance
      return []
    | _ =>
      let node ← readNode false false fuel
      return node :: (← readFlowItems false fuel)

/-- Reads the fields of an object in brackets. -/
def readFlowFields (first : Bool) : Nat → Reading (List (Node × Node))
  | 0 => throw .misplaced
  | fuel + 1 => do
    if (← peek) = .closeObject then
      advance
      return []
    if !first then readComma
    match ← peek with
    | .key =>
      advance
      let key ← unlessNext [.value, .comma, .closeObject] (readNode false false fuel)
      let value ← readValue (unlessNext [.comma, .closeObject] (readNode false false fuel))
      return (key, value) :: (← readFlowFields false fuel)
    | .closeObject =>
      advance
      return []
    | _ =>
      let key ← readNode false false fuel
      return (key, nothing) :: (← readFlowFields false fuel)

end

/-! ## Documents -/

/-- Reads directives up to the mark that starts a document. Only one may give a version, and that
must be the first. -/
def readDirectives (versioned : Bool) : Nat → Reading Unit
  | 0 => throw .misplaced
  | fuel + 1 => do
    match ← peek with
    | .directive version =>
      advance
      match version with
      | none => readDirectives versioned fuel
      | some n => if versioned || n ≠ 1 then throw .misplaced else readDirectives true fuel
    | .documentStart => advance
    | _ => throw .misplaced

def skipDocumentEnds : Nat → Reading Unit
  | 0 => return
  | fuel + 1 => do
    if (← peek) = .documentEnd then
      advance
      skipDocumentEnds fuel

/-- Whether a token is outside of documents. -/
def isBetween : Token → Bool
  | .directive _ | .documentStart | .documentEnd | .endOfText => true
  | _ => false

/-- Reads the only document of a text, if there is one. -/
def readDocument (fuel : Nat) : Reading (Option Node) := do
  let first ← peek
  if first = .endOfText then return none
  let node ←
    if isBetween first && first ≠ .documentEnd then
      readDirectives false fuel
      if isBetween (← peek) then pure nothing else readNode true false fuel
    else readNode true false fuel
  skipDocumentEnds fuel
  if (← peek) = .endOfText then return some node
  readDirectives false fuel
  throw .badReference

/-- The node that tokens stand for, if there is one. -/
def ofTokens (tokens : List Token) : Except Fault (Option Node) :=
  (readDocument (2 * tokens.length + 4)).run' ⟨tokens, [], []⟩

end Node

end PolarPlot.Document.Yaml
