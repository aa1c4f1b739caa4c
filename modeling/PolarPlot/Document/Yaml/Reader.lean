import PolarPlot.Document.Yaml.Node

/-!
# Reading YAML

`read` gives the data of a text: it is split into tokens, the tokens make nodes, and each node
stands for a value by its tag or by what it looks like.
-/

namespace PolarPlot.Document.Yaml

namespace Node

/-- The name of a tag among those that are known. -/
def knownName? (tag : String) : Option String :=
  if knownTags.toList.isPrefixOf tag.toList then
    some (String.ofList (tag.toList.drop knownTags.length))
  else none

/-- The value of a scalar, by its tag or by what it looks like. -/
def scalarValue? (tag : Option String) (text : String) (isPlain : Bool) : Except Fault Scalar :=
  match tag with
  | none => if isPlain then plainValue? text else .ok (.str text)
  | some tag =>
    match knownName? tag with
    | some name => taggedValue? name text
    | none => .error .noValue

/-- Whether a scalar is given a tag, or is plain and looks like it. -/
def hasTag (name : String) (sort : Tag) : Node → Bool
  | .scalar none text isPlain => isPlain && resolve text = sort
  | .scalar (some tag) _ _ => tag = knownTags ++ name
  | _ => false

/-- Whether a node is the sign before fields that are taken from another object. -/
def isMerge (node : Node) : Bool := node.hasTag "merge" .merge

/-- Whether a list or an object has no tag, or the one of its kind. -/
def fits (kind : String) (tag : Option String) : Bool := tag.all (· = knownTags ++ kind)

/-- The key that a node stands for. Only a scalar can be a key. -/
def toKey (node : Node) : Except Fault String :=
  match node with
  | .scalar tag text isPlain =>
    if node.hasTag "value" .value then .ok text
    else Scalar.display <$> scalarValue? tag text isPlain
  | _ => .error .noValue

/-! ## Values

Of several faults the one nearest to the root counts, and among those the first.
-/

/-- A value, or a fault and its depth. -/
abbrev Deep (α : Type) : Type := Except (Nat × Fault) α

def atDepth (depth : Nat) (value : Except Fault α) : Deep α := value.mapError (depth, ·)

/-- Two values, or the fault that counts. -/
def both : Deep α → Deep β → Deep (α × β)
  | .ok a, .ok b => .ok (a, b)
  | .error f, .error g => .error (if g.1 < f.1 then g else f)
  | .error f, .ok _ => .error f
  | .ok _, .error g => .error g

/-- All values, or the fault that counts. -/
def allOf (values : List (Deep α)) : Deep (List α) :=
  values.foldr (fun value rest => (both value rest).map fun (a, as) => a :: as) (.ok [])

/-- Fields, each with a value or a fault. -/
abbrev Fields : Type := List (Deep (String × Datum))

mutual

/-- The value that a node stands for. Fields taken from another object give way to the object's own,
and of a repeated key the last value counts. -/
def toDatum (depth : Nat) : Node → Deep Datum
  | .scalar tag text isPlain => atDepth depth (Datum.scalar <$> scalarValue? tag text isPlain)
  | .list tag items =>
    if fits "seq" tag then (allOf (toItems (depth + 1) items)).map .list
    else .error (depth, .noValue)
  | .obj tag fields =>
    if fits "map" tag then do
      let (merged, own) ← atDepth (depth + 1) (toFields (depth + 1) fields)
      let fields ← allOf (merged ++ own)
      return .obj (fields.foldl (fun fs (key, d) => setField key d fs) [])
    else .error (depth, .noValue)

def toItems (depth : Nat) : List Node → List (Deep Datum)
  | [] => []
  | node :: nodes => toDatum depth node :: toItems depth nodes

/-- The fields taken from other objects, and those of the object's own. -/
def toFields (depth : Nat) : List (Node × Node) → Except Fault (Fields × Fields)
  | [] => .ok ([], [])
  | (key, node) :: fields =>
    if key.isMerge then do
      let taken ← takenFields depth node
      let (merged, own) ← toFields depth fields
      return (taken ++ merged, own)
    else do
      let (merged, own) ← toFields depth fields
      return (merged, both (atDepth depth key.toKey) (toDatum depth node) :: own)

/-- The fields to be taken from an object, or from a list of them, the last first. -/
def takenFields (depth : Nat) : Node → Except Fault Fields
  | .obj _ fields => do
    let (merged, own) ← toFields depth fields
    return merged ++ own
  | .list _ items => do
    let parts ← takenItems depth items
    return parts.reverse.flatten
  | .scalar _ _ _ => .error .noValue

def takenItems (depth : Nat) : List Node → Except Fault (List Fields)
  | [] => .ok []
  | .obj _ fields :: nodes => do
    let (merged, own) ← toFields depth fields
    let parts ← takenItems depth nodes
    return (merged ++ own) :: parts
  | _ :: _ => .error .noValue

end

end Node

/-- Characters that a text may hold. -/
def isReadable (c : Char) : Bool :=
  let n := c.toNat
  c = '\t' || c = '\n' || c = '\r' || (0x20 ≤ n && n ≤ 0x7e) || n = 0x85 ||
  (0xa0 ≤ n && n ≤ 0xfffd) ||
    0x10000 ≤ n

/-- Reads a whole text, which holds at most one document; without one the value is nothing. -/
def read (text : List Char) : Except Fault Datum :=
  if text.all isReadable then do
    match ← Node.ofTokens (Token.split text) with
    | none => return .scalar .null
    | some node => (node.toDatum 0).mapError Prod.snd
  else .error .unprintable

end PolarPlot.Document.Yaml
