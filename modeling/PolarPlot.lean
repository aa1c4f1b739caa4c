import PolarPlot.CommandLine.Session
import PolarPlot.Document.Json.Reader
import PolarPlot.Document.Yaml.Reader
import PolarPlot.Eval.Run
import PolarPlot.Grammar.Derivation
import PolarPlot.Main
import PolarPlot.Proofs.Unambiguous
import PolarPlot.Proofs.Rehearsal
import PolarPlot.Syntax.Same
import PolarPlot.Proofs.Pieces
import PolarPlot.Proofs.Places
import PolarPlot.Proofs.Splicing
import PolarPlot.Proofs.Printing
import PolarPlot.Proofs.Recognition
import PolarPlot.Proofs.WellFormed
import PolarPlot.Proofs.Reporting
import PolarPlot.Proofs.Script
import PolarPlot.Proofs.Independence
import PolarPlot.Proofs.Clamp
import PolarPlot.Proofs.PictureSteps
import PolarPlot.Proofs.Escape
import PolarPlot.Proofs.Normalized
import PolarPlot.Proofs.Picture
import PolarPlot.Proofs.Documents
import PolarPlot.Proofs.Numerals
import PolarPlot.Proofs.JsonText
import PolarPlot.Proofs.Interchange
import PolarPlot.Proofs.FalseAlarms
import PolarPlot.Proofs.Furthest
import PolarPlot.Proofs.Outcomes
import PolarPlot.Proofs.YamlScalars
import PolarPlot.Proofs.YamlText
import PolarPlot.Proofs.YamlPrograms
import PolarPlot.Proofs.SingleRounds
import PolarPlot.Proofs.Wording
import PolarPlot.Proofs.Anchors
import PolarPlot.Proofs.SyntaxTrees
import PolarPlot.Proofs.Regular
import PolarPlot.Proofs.Precedence
import PolarPlot.Proofs.Refusals
import PolarPlot.Proofs.PostOrder
import PolarPlot.Proofs.Courses
import PolarPlot.Proofs.FloatOrder
import PolarPlot.Proofs.Stalling
import PolarPlot.Proofs.Interruptions
import PolarPlot.Proofs.Diaries
import PolarPlot.Proofs.Relocation
import PolarPlot.Proofs.Variables
import PolarPlot.Proofs.Quotients
import PolarPlot.Proofs.RadiusOrder
import PolarPlot.Proofs.Reordering
import PolarPlot.Proofs.Idempotence
import PolarPlot.Proofs.Termination
import PolarPlot.Proofs.Coordinates
