import PolarPlot.Number.Layout
import PolarPlot.Text.Quoted

/-!
# Plain data

What a document holds: scalars, lists, and objects whose fields keep their order. `Scalar.display`
and `Datum.spell` spell data out for messages.
-/

namespace PolarPlot.Document

open Number Text

inductive Scalar where
  | null
  | bool (b : Bool)
  | int (n : Int)
  | num (x : Float)
  | str (s : String)
  /-- A text by its codes, of which some stand for no character. -/
  | rough (codes : List Nat)
  /-- A date, as it is shown. -/
  | date (shown : String)
  deriving DecidableEq, Inhabited

inductive Datum where
  | scalar (s : Scalar)
  | list (items : List Datum)
  | obj (fields : List (String × Datum))
  deriving Inhabited

namespace Scalar

/-- The name of the sort of a scalar. -/
def sortName : Scalar → String
  | .null => "NoneType"
  | .bool _ => "bool"
  | .int _ => "int"
  | .num _ => "float"
  | .str _ | .rough _ => "str"
  | .date _ => "date"

/-- A scalar on its own, a text without quotes. -/
def display : Scalar → String
  | .null => "None"
  | .bool b => if b then "True" else "False"
  | .int n => toString n
  | .num x => plainText x
  | .str s => s
  | .rough codes => String.ofList (codes.map codeChar)
  | .date shown => shown

/-- A scalar among others, a text in quotes. -/
def spell : Scalar → String
  | .str s => quoted s
  | .rough codes => quotedCodes codes
  | s => s.display

/-- Whether a scalar counts as yes. -/
def truthy : Scalar → Bool
  | .null => false
  | .bool b => b
  | .int n => n != 0
  | .num x => !(x == 0)
  | .str s => s != ""
  | .rough _ | .date _ => true

end Scalar

namespace Datum

mutual

/-- Data spelled out on one line. -/
def spell : Datum → String
  | .scalar s => s.spell
  | .list items => "[" ++ ", ".intercalate (spellItems items) ++ "]"
  | .obj fields => "\x7b" ++ ", ".intercalate (spellFields fields) ++ "\x7d"

def spellItems : List Datum → List String
  | [] => []
  | d :: ds => spell d :: spellItems ds

def spellFields : List (String × Datum) → List String
  | [] => []
  | (key, d) :: ds => (quoted key ++ ": " ++ spell d) :: spellFields ds

end

/-- Data on its own, a text without quotes. -/
def display : Datum → String
  | .scalar s => s.display
  | d => d.spell

/-- Whether data counts as yes: neither empty nor zero. -/
def truthy : Datum → Bool
  | .scalar s => s.truthy
  | .list items => !items.isEmpty
  | .obj fields => !fields.isEmpty

end Datum

/-- The value of a field. -/
def field? {α : Type} (key : String) (fields : List (String × α)) : Option α :=
  (fields.find? (·.1 == key)).map (·.2)

/-- The fields with one more. A field that is already there keeps its place and gets the new
value. -/
def setField {α : Type} (key : String) (value : α) : List (String × α) → List (String × α)
  | [] => [(key, value)]
  | (k, v) :: rest => if k == key then (k, value) :: rest else (k, v) :: setField key value rest

end PolarPlot.Document
