/-!
The terminals of a grammar: literals and character classes.
-/

namespace Peg

/-- A text to match, character by character or up to case. -/
structure Literal where
  text : String
  ignoreCase : Bool
deriving DecidableEq

/-- A member of a character class. A range holds nothing if its ends are in the wrong order. -/
inductive ClassPart where
  | single (c : Char)
  | range (first last : Char)
deriving DecidableEq

namespace ClassPart

def bounds : ClassPart → Char × Char
  | single c => (c, c)
  | range first last => (first, last)

def contains (part : ClassPart) (c : Char) : Bool :=
  match part with
  | single d => d == c
  | range first last => first ≤ c && c ≤ last

end ClassPart

/-- A set of characters: those of the parts, or all others if the class is inverted. -/
structure CharClass where
  parts : List ClassPart
  inverted : Bool
  ignoreCase : Bool
deriving DecidableEq

end Peg
