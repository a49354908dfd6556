import Peg.Text.Position

/-!
Traces: the rules that a parse enters and leaves.
-/

namespace Peg

inductive TraceKind where
  | enter
  | matched
  | failed
deriving DecidableEq

def TraceKind.name : TraceKind → String
  | enter => "rule.enter"
  | matched => "rule.match"
  | failed => "rule.fail"

/-- A rule that is entered or left. The span is what the rule consumed if it matched, and empty
otherwise. -/
structure TraceEvent where
  kind : TraceKind
  rule : String
  span : Span
deriving DecidableEq

namespace TraceEvent

def depthAfter (depth : Nat) (event : TraceEvent) : Nat :=
  if event.kind = .enter then depth + 1 else depth - 1

/-- The event as a line of a log, `depth` rules being open before it. A rule is indented by the
number of the others that are open. -/
def logLine (depth : Nat) (event : TraceEvent) : String :=
  let indent := if event.kind = .enter then depth else depth - 1
  let kind := event.kind.name
  "TRACE " ++ event.span.describe ++ " " ++ kind
    ++ String.ofList (List.replicate (10 - kind.length) ' ') ++ " "
    ++ String.ofList (List.replicate (2 * indent) ' ') ++ event.rule

def logFrom (depth : Nat) : List TraceEvent → List String
  | [] => []
  | event :: events => event.logLine depth :: logFrom (event.depthAfter depth) events

def log (events : List TraceEvent) : List String := logFrom 0 events

end TraceEvent

end Peg
