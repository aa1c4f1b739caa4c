import PolarPlot.Drawing.Target

/-!
# Writers

A writer takes pieces of text. It may fail from some write on, or when it is flushed; a write that
fails writes nothing.
-/

namespace PolarPlot

structure Writer where
  /-- What was written, piece by piece. -/
  written : Array String
  /-- How many writes failed. -/
  refused : Nat
  /-- How many writes succeed, and what is wrong with the others. -/
  writeFault : Option (Nat × String)
  /-- What is wrong with flushing. -/
  flushFault : Option String
  deriving DecidableEq, Repr

namespace Writer

/-- A writer that never fails. -/
def empty : Writer := ⟨#[], 0, none, none⟩

/-- All that was written from piece `n` on. -/
def textFrom (w : Writer) (n : Nat) : String := String.join (w.written.toList.drop n)

def text (w : Writer) : String := w.textFrom 0

/-- What is wrong with the next write. -/
def nextFault? (w : Writer) : Option String :=
  match w.writeFault with
  | some (n, detail) => if w.written.size < n then none else some detail
  | none => none

/-- Writes a piece of text. `what` names it in the error. -/
def write (what text : String) : Action Writer Unit := fun w =>
  match w.nextFault? with
  | none => .ok () { w with written := w.written.push text }
  | some detail => .error (.output ("write " ++ what) detail) { w with refused := w.refused + 1 }

def flush : Action Writer Unit := fun w =>
  match w.flushFault with
  | none => .ok () w
  | some detail => .error (.output "flush output" detail) w

end Writer

end PolarPlot
