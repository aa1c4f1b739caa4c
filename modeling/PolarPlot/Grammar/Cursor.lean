import PolarPlot.Syntax.Position

/-!
# Reading places

A cursor is a place in a source text together with the text that is still to be read.
-/

namespace PolarPlot.Grammar

/-- What is left of a text, and the place where it starts. Line and column count from 1; a line ends
at a line feed. -/
structure Cursor where
  origin : String
  rest : List Char
  offset : Nat
  line : Nat
  column : Nat
  deriving DecidableEq, Repr

namespace Cursor

def start (origin : String) (text : List Char) : Cursor := ⟨origin, text, 0, 1, 1⟩

def position (c : Cursor) : Position where
  origin := c.origin
  line := c.line
  column := c.column

/-- Moves over `n` characters, or up to the end. -/
def advance : Nat → Cursor → Cursor
  | 0, c => c
  | n + 1, c =>
    match c.rest with
    | [] => c
    | ch :: rest =>
      if ch = '\n' then advance n ⟨c.origin, rest, c.offset + 1, c.line + 1, 1⟩
      else advance n ⟨c.origin, rest, c.offset + 1, c.line, c.column + 1⟩

end Cursor

end PolarPlot.Grammar
