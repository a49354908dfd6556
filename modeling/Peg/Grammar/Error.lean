import Peg.Text.Report

/-!
The ways in which a well-written grammar is defective.
-/

namespace Peg

inductive Defect where
  /-- A rule that is declared again; `first` is where it was declared before. -/
  | duplicateRule (name : String) (first : Position)
  | undefinedRule (name : String)
  /-- There is no rule to start from. -/
  | noStartRule
  | unknownStartRule (name : String)
  /-- A label that is bound already; `first` is where. -/
  | duplicateLabel (label : String) (first : Position)
  /-- A rule that reaches itself along `path` without consuming input. -/
  | leftRecursion (path : List String)
  /-- A repetition of something that may consume no input. -/
  | emptyRepetition
  /-- A display name inside the expression of a rule, where the notation has no place for it. -/
  | nestedDisplayName (name rule : String)
  /-- A rule that the user of the compiler does not allow. -/
  | forbiddenRule
deriving DecidableEq

namespace Defect

def message : Defect → String
  | duplicateRule name first => s!"Rule \"{name}\" is already defined at {first.describe}."
  | undefinedRule name => s!"Rule \"{name}\" is not defined."
  | noStartRule => "Grammar has no rule to start parsing from."
  | unknownStartRule name => s!"Unknown start rule \"{name}\"."
  | duplicateLabel label first => s!"Label \"{label}\" is already defined at {first.describe}."
  | leftRecursion path =>
    let route := " -> ".intercalate path
    s!"Possible infinite loop when parsing (left recursion: {route})."
  | emptyRepetition => "Possible infinite loop when parsing "
      ++ "(repetition used with an expression that may not consume any input)."
  | nestedDisplayName name rule =>
    s!"Display name \"{name}\" of rule \"{rule}\" is not at the root of the rule."
  | forbiddenRule => "Forbidden rule."

end Defect

structure GrammarError where
  span : Span
  defect : Defect
deriving DecidableEq

namespace GrammarError

def message (e : GrammarError) : String := e.defect.message

def report (source : String) (e : GrammarError) : String :=
  Report.render source e.span e.message none

end GrammarError

end Peg
