import PolarPlot.Document.Yaml.Spot

/-!
# Tokens

A text is split into tokens. Indentation shows as tokens of its own, which open and close blocks. A
scalar or a bracket turns out to be a key only at the colon after it, so the place of a possible key
is kept, and the token that marks the key is put in there later. Text that makes no token ends the
tokens with a fault.
-/

namespace PolarPlot.Document.Yaml

open Text

inductive Token where
  /-- A line for the reader; that of the version carries its first number. -/
  | directive (version : Option Nat)
  | documentStart
  | documentEnd
  | blockList
  | blockObject
  | blockEnd
  | openList
  | closeList
  | openObject
  | closeObject
  | comma
  /-- The dash before an item of a list. -/
  | item
  | key
  | value
  | reference (name : String)
  | anchor (name : String)
  | tag (handle : Option String) (name : String)
  | scalar (text : String) (isPlain : Bool)
  | endOfText
  | fault (f : Fault)
  deriving DecidableEq, Repr

/-- A place where a key may have started. -/
structure PossibleKey where
  /-- How many tokens come before it. -/
  count : Nat
  /-- Whether nothing else than a key can stand there. -/
  required : Bool
  spot : Spot
  depth : Int
  deriving DecidableEq, Repr

/-- How far a text was split: the tokens so far, last first, and what decides on the next one. -/
structure Splitter where
  spot : Spot
  tokens : List Token
  /-- How many brackets are open. -/
  depth : Int
  /-- The column of the innermost block, and those around it. -/
  indent : Int
  outer : List Int
  /-- Whether a key may start here. -/
  keyAllowed : Bool
  possible : List PossibleKey

namespace Splitter

def start (text : List Char) : Splitter := ⟨.start text, [], 0, -1, [], true, []⟩

def inFlow (s : Splitter) : Bool := s.depth ≠ 0

def push (s : Splitter) (t : Token) : Splitter := { s with tokens := t :: s.tokens }

/-- Adds a token of `n` characters. -/
def take (s : Splitter) (n : Nat) (t : Token) : Splitter := { s.push t with spot := s.spot.skip n }

/-- The most characters between the start of a key and its colon. -/
def keyLimit : Nat := 1024

/-- Gives up places of keys on earlier lines or too far back. -/
def dropStale (s : Splitter) : Except Fault Splitter :=
  let stale (k : PossibleKey) : Bool :=
    k.spot.line ≠ s.spot.line || keyLimit < s.spot.index - k.spot.index
  if s.possible.any fun k => stale k && k.required then .error .badToken
  else .ok { s with possible := s.possible.filter (!stale ·) }

/-- Gives up the place of a key at this depth. -/
def dropKey (s : Splitter) : Except Fault Splitter :=
  if s.possible.any fun k => k.depth = s.depth && k.required then .error .badToken
  else .ok { s with possible := s.possible.filter (·.depth ≠ s.depth) }

/-- Keeps this place as one where a key may start. -/
def saveKey (s : Splitter) : Except Fault Splitter :=
  if s.keyAllowed then do
    let s ← s.dropKey
    let required := !s.inFlow && s.indent = s.spot.column
    return { s with possible := ⟨s.tokens.length, required, s.spot, s.depth⟩ :: s.possible }
  else .ok s

/-- Closes the blocks that are further in than a column. -/
def unwind (column : Int) (s : Splitter) : Splitter :=
  if s.inFlow then s
  else
    let columns := s.indent :: s.outer
    let closed := (columns.takeWhile (column < ·)).length
    let tokens := List.replicate closed .blockEnd ++ s.tokens
    match columns.drop closed with
    | indent :: outer => { s with tokens, indent, outer }
    | [] => { s with tokens, indent := -1, outer := [] }

/-- Opens a block at a column, if that is further in, with a token before the last `n`. -/
def openBlock (s : Splitter) (column : Int) (n : Nat) (t : Token) : Splitter :=
  if s.inFlow || column ≤ s.indent then s
  else
    { s with
      tokens := s.tokens.take n ++ t :: s.tokens.drop n
      indent := column
      outer := s.indent :: s.outer }

/-- Skips spaces, comments and empty lines. A key may start on a new line outside of brackets. -/
def skipLayout : Nat → Splitter → Splitter
  | 0, s => s
  | fuel + 1, s =>
    let spot := s.spot.skipSpaces.skipComment
    if spot.peek.any isBreak then
      skipLayout fuel { s with spot := spot.next, keyAllowed := s.keyAllowed || !s.inFlow }
    else { s with spot }

/-! ## Signs -/

/-- A line that starts with a percent sign. Only the one for the version is looked into. -/
def takeDirective (s : Splitter) : Except Fault Splitter := do
  let s ← (s.unwind (-1)).dropKey
  let isWord (c : Char) : Bool := c.isAlphanum || c = '-' || c = '_'
  let spot := s.spot.next
  let name := spot.rest.takeWhile isWord
  let spot := spot.skip name.length
  let isEnd (c : Option Char) : Bool := c.all fun c => c = ' ' || isBreak c
  if name.isEmpty || !isEnd spot.peek then throw .badToken
  let (version, spot) ←
    if name = "YAML".toList then
      let spot := spot.skipSpaces
      let major := spot.rest.takeWhile isDecimal
      let minor := (spot.rest.drop (major.length + 1)).takeWhile isDecimal
      let after := spot.skip (major.length + 1 + minor.length)
      if major.isEmpty || minor.isEmpty || (spot.rest.drop major.length).head? ≠ some '.' ||
          !isEnd after.peek then
        throw .badToken
      else pure (some (digitsToBase 10 major), after)
    else pure (none, spot.skipWhile (!isBreak ·))
  let spot ← spot.skipHeaderEnd
  return { s.push (.directive version) with spot, keyAllowed := false }

/-- A mark between documents. -/
def takeMark (t : Token) (s : Splitter) : Except Fault Splitter := do
  let s ← (s.unwind (-1)).dropKey
  return { s.take 3 t with keyAllowed := false }

def takeOpening (t : Token) (s : Splitter) : Except Fault Splitter := do
  let s ← s.saveKey
  return { s.take 1 t with depth := s.depth + 1, keyAllowed := true }

def takeClosing (t : Token) (s : Splitter) : Except Fault Splitter := do
  let s ← s.dropKey
  return { s.take 1 t with depth := s.depth - 1, keyAllowed := false }

def takeComma (s : Splitter) : Except Fault Splitter := do
  let s ← s.dropKey
  return { s.take 1 .comma with keyAllowed := true }

/-- The dash of an item, or the question mark of a key. Either may open a block. -/
def takeBlockSign (block sign : Token) (allowed : Bool) (s : Splitter) : Except Fault Splitter := do
  if !s.inFlow && !s.keyAllowed then throw .badToken
  let s ← (s.openBlock s.spot.column 0 block).dropKey
  return { s.take 1 sign with keyAllowed := allowed }

/-- The colon of a value. If a key may have started at this depth, that was one. -/
def takeColon (s : Splitter) : Except Fault Splitter :=
  match s.possible.find? (·.depth = s.depth) with
  | some k =>
    let after := s.tokens.length - k.count
    let s := { s with
      possible := s.possible.filter (·.depth ≠ s.depth)
      tokens := s.tokens.take after ++ Token.key :: s.tokens.drop after }
    .ok { (s.openBlock k.spot.column (after + 1) .blockObject).take 1 .value with
      keyAllowed := false }
  | none => do
    if !s.inFlow && !s.keyAllowed then throw .badToken
    let s ← (s.openBlock s.spot.column 0 .blockObject).dropKey
    return { s.take 1 .value with keyAllowed := !s.inFlow }

/-! ## Names and tags -/

/-- A name after an ampersand or an asterisk. -/
def takeName (make : String → Token) (s : Splitter) : Except Fault Splitter := do
  let s ← s.saveKey
  let name := (s.spot.rest.drop 1).takeWhile fun c => c.isAlphanum || c = '-' || c = '_'
  let after := (s.spot.rest.drop (name.length + 1)).head?
  if name.isEmpty || !after.all (fun c => endsSign c || "?:,]\x7d%@`".toList.contains c) then
    throw .badToken
  return { s.take (name.length + 1) (make (String.ofList name)) with keyAllowed := false }

/-- Characters of the name of a tag. -/
def isTagChar (c : Char) : Bool := c.isAlphanum || "-;/?:@&=+$,_.!~*'()[]".toList.contains c

/-- The handle and the name of a tag after its exclamation mark, and how long they are. -/
def tagParts (cs : List Char) : Option (Option String × String × Nat) :=
  match cs with
  | '<' :: rest =>
    let name := rest.takeWhile isTagChar
    if name.isEmpty || (rest.drop name.length).head? ≠ some '>' then none
    else some (none, String.ofList name, name.length + 2)
  | _ =>
    if cs.head?.all endsSign then some (none, "!", 0)
    else
      let word := cs.takeWhile fun c => !(c = ' ' || isBreak c)
      let handle := word.takeWhile fun c => c.isAlphanum || c = '-' || c = '_'
      let (handle, name) :=
        if word.contains '!' then (handle ++ ['!'], word.drop (handle.length + 1)) else ([], word)
      let proper := handle.isEmpty || (word.drop (handle.length - 1)).head? = some '!'
      if proper && !name.isEmpty && name.all isTagChar then
        some (some (String.ofList ('!' :: handle)), String.ofList name, word.length)
      else none

def takeTag (s : Splitter) : Except Fault Splitter := do
  let s ← s.saveKey
  match tagParts (s.spot.rest.drop 1) with
  | none => throw .badToken
  | some (handle, name, length) =>
    let s := s.take (length + 1) (.tag handle name)
    if s.spot.peek.all fun c => c = ' ' || isBreak c then return { s with keyAllowed := false }
    else throw .badToken

/-! ## Scalars -/

def takeBlockText (fuel : Nat) (folded : Bool) (s : Splitter) : Except Fault Splitter := do
  let s ← s.dropKey
  let (text, spot) ← readBlockText folded s.indent fuel s.spot
  return { s.push (.scalar text false) with spot, keyAllowed := true }

def takeQuoted (fuel : Nat) (quote : Char) (s : Splitter) : Except Fault Splitter := do
  let s ← s.saveKey
  let (text, spot) ← readQuoted quote fuel s.spot.next []
  return { s.push (.scalar text false) with spot, keyAllowed := false }

/-- Whether a plain text can start here. -/
def startsPlain (s : Splitter) (c : Char) : Bool :=
  !(endsSign c || "-?:,[]\x7b\x7d#&*!|>'\"%@`".toList.contains c) ||
    (!s.spot.endsAfter 1 && (c = '-' || (!s.inFlow && (c = '?' || c = ':'))))

def takePlain (fuel : Nat) (s : Splitter) : Except Fault Splitter := do
  let s ← s.saveKey
  let plain := readPlain s.inFlow (s.indent + 1) fuel s.spot [] [] false
  return { s.push (.scalar (String.ofList plain.text) true) with
    spot := plain.spot
    keyAllowed := plain.lineEnded }

/-- Takes the token that starts with a character. -/
def takeToken (fuel : Nat) (s : Splitter) (c : Char) : Except Fault Splitter :=
  let signs : Bool := s.inFlow || s.spot.endsAfter 1
  if c = '%' && s.spot.column = 0 then s.takeDirective
  else if s.spot.column = 0 && s.spot.atMark "---" then s.takeMark .documentStart
  else if s.spot.column = 0 && s.spot.atMark "..." then s.takeMark .documentEnd
  else if c = '[' then s.takeOpening .openList
  else if c = '{' then s.takeOpening .openObject
  else if c = ']' then s.takeClosing .closeList
  else if c = '}' then s.takeClosing .closeObject
  else if c = ',' then s.takeComma
  else if c = '-' && s.spot.endsAfter 1 then s.takeBlockSign .blockList .item true
  else if c = '?' && signs then s.takeBlockSign .blockObject .key (!s.inFlow)
  else if c = ':' && signs then s.takeColon
  else if c = '*' then s.takeName .reference
  else if c = '&' then s.takeName .anchor
  else if c = '!' then s.takeTag
  else if (c = '|' || c = '>') && !s.inFlow then s.takeBlockText fuel (c = '>')
  else if c = '\'' || c = '"' then s.takeQuoted fuel c
  else if s.startsPlain c then s.takePlain fuel
  else .error .badToken

/-- The tokens, last first, before any key that is still possible: nothing can be put in among
them. -/
def settled (s : Splitter) : List Token :=
  match (s.possible.map (·.count)).min? with
  | some count => s.tokens.drop (s.tokens.length - count)
  | none => s.tokens

/-- Takes the next token, and the ends of blocks before it. At the end of the text there is none. -/
def step (fuel : Nat) (s : Splitter) : Except Fault (Splitter × Bool) := do
  let s ← (s.skipLayout fuel).dropStale
  let s := s.unwind s.spot.column
  match s.spot.peek with
  | none => return ((← (s.unwind (-1)).dropKey).push .endOfText, true)
  | some c =>
    let s ← s.takeToken fuel c
    return (← s.dropStale, false)

/-- Splits the rest of a text. A fault counts after the tokens that were settled before it. Each
step takes a character, so the fuel never runs out. -/
def run (limit : Nat) : Nat → Splitter → List Token
  | 0, s => s.tokens.reverse
  | fuel + 1, s =>
    match s.step limit with
    | .error f => (Token.fault f :: s.settled).reverse
    | .ok (s, true) => s.tokens.reverse
    | .ok (s, false) => run limit fuel s

end Splitter

/-- The text with its line ends in one way, but for two signs that always stay as they are. -/
def unifyBreaks (cs : List Char) : List Char :=
  (unifyNewlines cs).map fun c => if c = '\x85' then '\n' else c

/-- Splits a text into tokens. -/
def Token.split (text : List Char) : List Token :=
  let cs := unifyBreaks text
  let cs := if cs.head? = some '\ufeff' then cs.drop 1 else cs
  Splitter.run (cs.length + 2) (cs.length + 2) (.start cs)

end PolarPlot.Document.Yaml
