import Peg.Unicode.Blank
import Peg.Unicode.Letters

/-!
The characters and words of the notation.
-/

namespace Peg.Notation

def isNameStart (c : Char) : Bool := Unicode.isAlphabetic c || c == '_'

def isNamePart (c : Char) : Bool := Unicode.isAlphabetic c || Unicode.isNumeric c || c == '_'

theorem isNamePart_of_isNameStart {c : Char} (h : isNameStart c = true) : isNamePart c = true := by
  unfold isNameStart at h
  unfold isNamePart
  rw [Bool.or_eq_true] at h ⊢
  exact h.imp_left fun halpha => by rw [halpha, Bool.true_or]

def reservedWords : List String := ["true", "false", "null", "undefined"]

/-- The characters without meaning between tokens: blanks and the byte order mark. -/
def isSpace (c : Char) : Bool := Unicode.isBlank c || c == '\ufeff'

end Peg.Notation
