import PolarPlot.CommandLine.Session

/-!
# The program

The surroundings of the command are looked up, the command is run on them, and what it did is done.
-/

namespace PolarPlot

open CommandLine

/-- Whether there is a folder with a name. -/
def isFolder (name : String) : IO Bool := do
  try (← IO.FS.realPath name).isDir
  catch _ => return false

/-- All that a stream has to give. -/
partial def readAll (stream : IO.FS.Stream) (seen : String) : IO String := do
  let line ← stream.getLine
  if line.isEmpty then return seen else readAll stream (seen ++ line)

/-- The content of a file, or why there is none. -/
def lookUp (name : String) : IO (Except FileError ByteArray) := do
  if ← isFolder name then return .error .isFolder
  try return .ok (← IO.FS.readBinFile name)
  catch _ => return .error .missing

/-- The folder that a name is in. -/
def folderOf (name : String) : String :=
  match (name.splitOn "/").dropLast with
  | [] => "."
  | parts => "/".intercalate parts ++ "/"

/-- Whether a file can be written. -/
def probe (name : String) : IO (Except FileError Unit) := do
  if ← isFolder name then return .error .isFolder
  else if name ≠ "" && (← isFolder (folderOf name)) then return .ok ()
  else return .error .missing

/-- The surroundings that matter to a command. -/
def surroundings (words : List String) : IO Environment := do
  match Options.read words with
  | .error _ => return ⟨"", fun _ => .error .missing, fun _ => .error .missing⟩
  | .ok o =>
    let input ← if o.file = "-" then readAll (← IO.getStdin) "" else pure ""
    let content ← if o.file = "-" then pure (.error .missing) else lookUp o.file
    let writable ← match o.output with
      | none | some "-" => pure (.ok ())
      | some name => probe name
    return ⟨input, fun _ => content, fun _ => writable⟩

end PolarPlot

open PolarPlot CommandLine in
def main (words : List String) : IO UInt32 := do
  let outcome := CommandLine.run ampleFuel (← surroundings words) words
  if let some (name, text) := outcome.written then IO.FS.writeFile name text
  (← IO.getStdout).putStr outcome.stdout
  let remarks := outcome.stderr
  (← IO.getStderr).putStr
    (if remarks = "" || remarks.endsWith "\n" then remarks else remarks ++ "\n")
  return match outcome.exit with
    | .ok code => code.toUInt32
    | .error _ => 1
