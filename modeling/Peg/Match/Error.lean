import Peg.Program.Expectation
import Peg.Text.Report

/-!
The ways in which a parse fails.
-/

namespace Peg

inductive MatchError where
  /-- `found`, or the end of the input, stands where one of `expected` should. -/
  | mismatch (expected : List Expectation) (found : Option String) (span : Span)
  /-- A code block refused the input in its own words. -/
  | custom (message : String) (span : Span)
deriving DecidableEq

namespace MatchError

def expected : MatchError → List Expectation
  | mismatch expected _ _ => expected
  | custom .. => []

def found : MatchError → Option String
  | mismatch _ found _ => found
  | custom .. => none

def span : MatchError → Span
  | mismatch _ _ span => span
  | custom _ span => span

def message : MatchError → String
  | mismatch expected found _ =>
    let found := match found with
      | some text => Notation.quote text
      | none => "end of input"
    if expected.isEmpty then "Unexpected " ++ found ++ "."
    else
      let wanted := Expectation.enumerate (expected.map Expectation.describe)
      "Expected " ++ wanted ++ " but " ++ found ++ " found."
  | custom message _ => message

def report (input : String) (e : MatchError) : String :=
  Report.render input e.span e.message none

end MatchError

/-- Why a parse gives no value. The errors of the host are texts unless said otherwise. -/
inductive ParseError (ε : Type := String) where
  | refused (e : MatchError)
  | invalidStartRule (name : String)
  /-- A code block failed by itself. -/
  | host (error : ε)
  /-- At `offset` a rule would have been entered inside `limit` others. -/
  | nestingLimit (limit offset : Nat)
deriving DecidableEq

namespace ParseError

def message {ε : Type} [ToString ε] : ParseError ε → String
  | refused e => e.message
  | invalidStartRule name => s!"\"{name}\" is not an allowed start rule"
  | host error => "host code failed: " ++ toString error
  | nestingLimit limit offset => s!"more than {limit} nested rules at offset {offset}"

end ParseError

end Peg
