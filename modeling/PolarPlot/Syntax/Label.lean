/-!
# Names in programs

A program that was parsed has a text for every name. A program from a document may have any value in
the place of a name; messages show it by its text, but it is told apart from a name that happens to
read the same.
-/

namespace PolarPlot

inductive Label where
  | word (text : String)
  /-- A value that is no text: how it is shown, the key that equal values share, and the value as
  JSON. -/
  | value (shown key json : String)
  deriving DecidableEq, Repr, Inhabited

/-- What a name is told apart by. -/
inductive Label.Key where
  | word (text : String)
  | value (key : String)
  deriving DecidableEq, Repr, Inhabited

namespace Label

instance : Coe String Label := ⟨.word⟩

def text : Label → String
  | .word text => text
  | .value shown _ _ => shown

def key : Label → Key
  | .word text => .word text
  | .value _ key _ => .value key

/-- Whether two names are one. -/
def same (a b : Label) : Bool := a.key == b.key

def isWord : Label → Bool
  | .word _ => true
  | .value _ _ _ => false

end Label

end PolarPlot
