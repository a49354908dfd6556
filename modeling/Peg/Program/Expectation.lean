import Peg.Notation.Escape

/-!
What a parser would have accepted where it failed.
-/

namespace Peg

inductive Expectation where
  | literal (literal : Literal)
  | charClass (members : CharClass)
  | any
  | endOfInput
  /-- Something that goes by a description, such as the display name of a rule. -/
  | other (description : String)
deriving DecidableEq

namespace Expectation

def describe : Expectation → String
  | literal lit => lit.render
  | charClass members => members.render
  | any => "any character"
  | endOfInput => "end of input"
  | other description => description

/-- Descriptions as an enumeration: `a`, `a or b`, `a, b, or c`. -/
def enumerate : List String → String
  | [] => ""
  | [single] => single
  | [first, second] => first ++ " or " ++ second
  | descriptions =>
    ", ".intercalate descriptions.dropLast ++ ", or " ++ descriptions.getLast?.getD ""

end Expectation

end Peg
