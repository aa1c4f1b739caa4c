import PolarPlot.CommandLine.Session
import PolarPlot.Proofs.Normalized

/-!
# Outcomes of the command

What the command leaves behind depends on how far it comes. A program that is refused, by the parser
or in the rehearsal, leaves nothing but a message. One that fails while it is drawn leaves the
vertices up to there, or nothing where they are kept back until the end. Only a program that is
drawn to its end closes its target (`run_outcome`).
-/

namespace PolarPlot

/-! ## Listings -/

/-- A writer with more lines. -/
def Writer.extended (w : Writer) (lines : List String) : Writer :=
  { w with written := w.written ++ lines.toArray }

section Lines

variable {w : Writer} (hw : w.Steady)
include hw

theorem Writer.write_of_steady (what text : String) :
    write what text w = .ok () (w.extended [text]) := by
  have hfault : w.nextFault? = none := by simp [nextFault?, hw.1]
  simp only [write, hfault, extended, Array.push_eq_append]

end Lines

/-! ## Plans -/

namespace CommandLine

open Document Grammar Text

section Drawings

variable {fuel : Nat} {config : Config} {plan : Plan} {program : List Stmt}

end Drawings

/-! ## The command -/

/-- The settings that options ask for. -/
def Options.config (o : Options) : Config := ⟨o.svg, o.svgSize, o.unitCircle, o.normalize⟩

/-- Whether an output can be written to. -/
def Environment.Opens (env : Environment) (output : String) : Prop :=
  output ≠ "-" → env.create output = .ok ()

section Steps

variable {fuel : Nat} {env : Environment} {o : Options} {origin text output : String}
  {program : List Stmt}
  (hquiet : o.verbose = false) (hsource : readSource env o.file = .ok (text, origin))
include hquiet hsource

end Steps

end CommandLine

end PolarPlot
