/-!
# Lines of a text

Lines end at a line feed and nowhere else. A place in a text is an offset in characters, or a line
and a column that both count from 1.
-/

namespace PolarPlot.Text

/-- The length of the last line of a text: what stands after its last line feed. -/
def lastLineLength (text : List Char) : Nat := (text.reverse.takeWhile (· ≠ '\n')).length

/-- Line and column of an offset. An offset outside the text counts as the nearer end of it. -/
def lineColumn (text : List Char) (offset : Int) : Nat × Nat :=
  let before := text.take offset.toNat
  (before.count '\n' + 1, lastLineLength before + 1)

/-- The same text with each carriage return, and each carriage return with its line feed, written as
a single line feed. -/
def unifyNewlines : List Char → List Char
  | [] => []
  | '\r' :: '\n' :: cs => '\n' :: unifyNewlines cs
  | '\r' :: cs => '\n' :: unifyNewlines cs
  | c :: cs => c :: unifyNewlines cs

end PolarPlot.Text
