import PolarPlot.Grammar.Parse
import PolarPlot.Text.Lines
import PolarPlot.Text.Quoted

/-!
# Files

A small file system: files and folders by path, relative to where the program runs. A name is
followed part by part, and each part but the last must lead to a folder. Text files are UTF-8, and
their lines may end in any of the usual ways.
-/

namespace PolarPlot.CommandLine

open Grammar Text

/-- Why a file cannot be opened. -/
inductive FileError where
  | missing
  | isFolder
  | notFolder
  | nameTooLong
  /-- A name that no file can have. -/
  | nullInName
  deriving DecidableEq, Repr

def FileError.message (e : FileError) (name : String) : String :=
  let system (text : String) : String := text ++ ": " ++ quoted name
  match e with
  | .missing => system "[Errno 2] No such file or directory"
  | .isFolder => system "[Errno 21] Is a directory"
  | .notFolder => system "[Errno 20] Not a directory"
  | .nameTooLong => system "[Errno 36] File name too long"
  | .nullInName => "embedded null byte"

inductive FileNode where
  | file (content : ByteArray)
  | folder

/-- A path without empty parts and dots. -/
abbrev Path : Type := List String

def Path.text (path : Path) : String := "/".intercalate path

/-! ## Places -/

/-- Where a path starts. -/
inductive Base where
  /-- The folder where the program runs. -/
  | here
  /-- A folder above it, of which nothing is known. -/
  | above
  /-- The root of all folders. -/
  | root
  deriving DecidableEq, Repr

/-- A place in the file system. -/
structure Place where
  base : Base
  path : Path
  deriving DecidableEq, Repr

namespace Place

/-- The folder that a place is in. -/
def up (p : Place) : Place :=
  if p.path.isEmpty then if p.base = .root then p else ⟨.above, []⟩
  else { p with path := p.path.dropLast }

/-- Goes on by a part of a name: one dot stays, two dots go up. -/
def step (p : Place) (part : String) : Place :=
  if part = "." then p
  else if part = ".." then p.up
  else { p with path := p.path ++ [part] }

/-- Where a name is followed from. -/
def start (name : String) : Place := ⟨if name.toList.head? = some '/' then .root else .here, []⟩

/-- The parts of a name. -/
def parts (name : String) : List String := (name.splitOn "/").filter (· ≠ "")

/-- The place that a name is spelled to have, whether its folders exist or not. -/
def spelled (name : String) : Place := (parts name).foldl step (start name)

end Place

/-- The most bytes in one part of a name. -/
def partLimit : Nat := 255

/-- Whether the last part of a place is longer than a part can be. -/
def Place.isTooLong (p : Place) : Bool := p.path.getLast?.any (·.utf8ByteSize > partLimit)

/-- The most bytes in a name. -/
def nameLimit : Nat := 4095

/-- Whether a name asks for a folder by a slash at its end. -/
def asksFolder (name : String) : Bool := name.toList.getLast? = some '/'

/-! ## Nodes -/

/-- Files and folders by path. The empty path is the folder where the program runs. -/
abbrev Files : Type := List (Path × FileNode)

/-- What every system has under its root: some folders, and a file that stays empty. -/
def systemFiles : Files :=
  (["dev", "null"], .file .empty) ::
    ["dev", "etc", "home", "proc", "root", "tmp", "usr", "var"].map fun name => ([name], .folder)

namespace Files

/-- Adds a node, and the folders that it is in. -/
def add (files : Files) (path : Path) (node : FileNode) : Files :=
  let folders := (List.range' 1 (path.length - 1)).map fun n => (path.take n, FileNode.folder)
  (path, node) :: folders.filter (fun (p, _) => (files.lookup p).isNone) ++ files

/-- What is at a place. -/
def node? (files : Files) (place : Place) : Option FileNode :=
  if place.path.isEmpty then some .folder
  else
    match place.base with
    | .here => files.lookup place.path
    | .above => none
    | .root => systemFiles.lookup place.path

/-- Follows the parts of a name from a folder. All but the last must lead to folders. -/
def follow (files : Files) (place : Place) : List String → Except FileError Place
  | [] => .ok place
  | part :: rest =>
    if rest.isEmpty then .ok (place.step part)
    else if (place.step part).isTooLong then .error .nameTooLong
    else
      match files.node? (place.step part) with
      | some .folder => follow files (place.step part) rest
      | some (.file _) => .error .notFolder
      | none => .error .missing

/-- The place that a name leads to. -/
def locate (files : Files) (name : String) : Except FileError Place :=
  if name.contains (Char.ofNat 0) then .error .nullInName
  else if name.utf8ByteSize > nameLimit then .error .nameTooLong
  else if name = "" then .error .missing
  else files.follow (.start name) (Place.parts name)

/-- The content of a file. -/
def read (files : Files) (name : String) : Except FileError ByteArray :=
  match files.locate name with
  | .error e => .error e
  | .ok place =>
    match files.node? place with
    | some (.file content) => if asksFolder name then .error .notFolder else .ok content
    | some .folder => .error .isFolder
    | none => .error (if place.isTooLong then .nameTooLong else .missing)

/-- Whether a file can be written. A slash at the end of its name asks for a folder instead. -/
def create (files : Files) (name : String) : Except FileError Unit :=
  match files.locate name with
  | .error e => .error e
  | .ok place =>
    match files.node? place with
    | some .folder => .error .isFolder
    | _ =>
      if asksFolder name then .error .isFolder
      else if place.isTooLong then .error .nameTooLong
      else .ok ()

/-- The path of a file in the folder where the program runs. -/
def pathOf? (files : Files) (name : String) : Option Path :=
  match files.locate name with
  | .ok ⟨.here, path⟩ => some path
  | _ => none

end Files

/-- The text of a file: UTF-8, each line ended by a line feed. -/
def decodeText? (content : ByteArray) : Option String :=
  (String.fromUTF8? content).map fun s => String.ofList (unifyNewlines s.toList)

/-! ## Programs in files -/

/-- Why a file holds no program. -/
inductive SourceError where
  | notFound (name : String)
  | isFolder
  | undecodable
  | parse (e : ParseError)
  deriving DecidableEq

/-- Reads the program in a file. Its place is taken as spelled, and its nodes have their path as
their origin. -/
def parseFile (files : Files) (name : String) : Except SourceError (List Stmt) :=
  let place := Place.spelled name
  match files.node? place with
  | none => .error (.notFound name)
  | some .folder => .error .isFolder
  | some (.file content) =>
    match decodeText? content with
    | none => .error .undecodable
    | some text =>
      match parse place.path.text text with
      | .ok program => .ok program
      | .error e => .error (.parse e)

end PolarPlot.CommandLine
