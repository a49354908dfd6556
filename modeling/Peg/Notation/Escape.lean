import Peg.Grammar.Terminal
import Peg.Text.Hex
import Peg.Unicode.Blank

/-!
Terminals in the notation, with escapes for the characters that would be read otherwise.
-/

namespace Peg

namespace Notation

/-- A character of a literal or a class; those in `special` take a backslash. All control characters
are below 256 and take two hexadecimal digits. -/
def escapeChar (special : List Char) (c : Char) : List Char :=
  if c = '\n' then ['\\', 'n']
  else if c = '\r' then ['\\', 'r']
  else if c = '\t' then ['\\', 't']
  else if c = '\\' then ['\\', '\\']
  else if c ∈ special then ['\\', c]
  else if Unicode.isControl c then '\\' :: 'x' :: Hex.digits 2 c.toNat
  else [c]

def escapeText (text : String) : String :=
  String.ofList (text.toList.flatMap (escapeChar ['"']))

def quote (text : String) : String :=
  "\"" ++ escapeText text ++ "\""

end Notation

def Literal.render (literal : Literal) : String :=
  Notation.quote literal.text ++ if literal.ignoreCase then "i" else ""

def ClassPart.render : ClassPart → List Char
  | single c => Notation.escapeChar [']', '^', '-'] c
  | range first last =>
    Notation.escapeChar [']', '^', '-'] first ++ '-' :: Notation.escapeChar [']', '^', '-'] last

/-- The class in the notation, such as `[^a-z_]i`. -/
def CharClass.render (cls : CharClass) : String :=
  "[" ++ (if cls.inverted then "^" else "") ++ String.ofList (cls.parts.flatMap ClassPart.render)
    ++ "]" ++ if cls.ignoreCase then "i" else ""

end Peg
