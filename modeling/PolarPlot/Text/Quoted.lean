import PolarPlot.Text.Printable

/-!
# Quoted text

`quoted` shows a text between quotes so that it can be told apart from the words around it: single
quotes, or double quotes if the text holds single ones only. What would not show is escaped.
-/

namespace PolarPlot.Text

/-- The last `width` hexadecimal digits of a number. -/
def hex (width n : Nat) : String :=
  let digits := String.ofList (Nat.toDigits 16 n)
  String.ofList (List.replicate (width - digits.length) '0') ++ digits

/-- Codes from which two make a character, and which alone stand for none. -/
def isSurrogate (n : Nat) : Bool := 0xd800 ≤ n && n < 0xe000

/-- The character with a code, or U+FFFD if there is none. -/
def codeChar (n : Nat) : Char := if isSurrogate n then '\ufffd' else Char.ofNat n

/-- A character inside quotes of the given kind. -/
def quotedChar (quote : Char) (c : Char) : String :=
  if c = quote then String.ofList ['\\', c]
  else if c = '\\' then "\\\\"
  else if c = '\n' then "\\n"
  else if c = '\r' then "\\r"
  else if c = '\t' then "\\t"
  else if isPrintable c then String.singleton c
  else if c.toNat < 0x100 then "\\x" ++ hex 2 c.toNat
  else if c.toNat < 0x10000 then "\\u" ++ hex 4 c.toNat
  else "\\U" ++ hex 8 c.toNat

/-- The text between quotes. -/
def quoted (text : String) : String :=
  let cs := text.toList
  let quote := if cs.contains '\'' && !cs.contains '"' then '"' else '\''
  String.singleton quote ++ String.join (cs.map (quotedChar quote)) ++ String.singleton quote

/-- A text by its codes between quotes. A code that stands for no character is escaped. -/
def quotedCodes (codes : List Nat) : String :=
  let cs := codes.map codeChar
  let quote := if cs.contains '\'' && !cs.contains '"' then '"' else '\''
  let shown (n : Nat) : String :=
    if isSurrogate n then "\\u" ++ hex 4 n else quotedChar quote (Char.ofNat n)
  String.singleton quote ++ String.join (codes.map shown) ++ String.singleton quote

end PolarPlot.Text
