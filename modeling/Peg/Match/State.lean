import Peg.Match.Host
import Peg.Match.Trace
import Peg.Program.Node
import Std.Data.TreeMap

/-!
What a parse knows at each moment, and how a step of it ends.
-/

namespace Peg

/-- Labels with their values, innermost first. -/
abbrev Scope (α : Type) := List (String × Value α)

/-- The order of the keys of a memo: by rule, then by offset. -/
def memoOrder : RuleId × Nat → RuleId × Nat → Ordering :=
  compareLex (compareOn (·.1)) (compareOn (·.2))

/-- The result of a rule: the value, if the rule matched, and the cursor behind it. -/
structure RuleResult (α : Type) where
  value : Option (Value α)
  stop : Cursor

structure Memo (α : Type) where
  entries : Std.TreeMap (RuleId × Nat) (RuleResult α) memoOrder

namespace Memo

variable {α : Type}

def empty : Memo α := ⟨∅⟩

def find? (memo : Memo α) (rule : RuleId) (offset : Nat) : Option (RuleResult α) :=
  memo.entries[(rule, offset)]?

def insert (memo : Memo α) (rule : RuleId) (offset : Nat) (result : RuleResult α) : Memo α :=
  ⟨memo.entries.insert (rule, offset) result⟩

end Memo

/-- What a parse knows. Lists that only grow have their latest item first. -/
structure State (σ α : Type) where
  cursor : Cursor
  scope : Scope α
  /-- Whether failures go unrecorded. -/
  muted : Bool
  /-- The furthest place where a failure was recorded. -/
  furthest : Cursor
  /-- What was expected there. -/
  expected : List ExpectationId
  memo : Memo α
  events : List TraceEvent
  calls : List (Call α)
  /-- What the host remembers. -/
  host : σ

/-- How a step ends: with a result, without a match, or with the end of the parse. -/
inductive Outcome (ε β : Type) where
  | matched (result : β)
  | failed
  | aborted (e : ParseError ε)

abbrev Step (σ α ε β : Type) := State σ α → Outcome ε β × State σ α

abbrev Matcher (σ α ε : Type) := Step σ α ε (Value α)

namespace State

variable {σ α : Type}

def initial (input : String) (host : σ) : State σ α where
  cursor := .ofText input
  scope := []
  muted := false
  furthest := .ofText input
  expected := []
  memo := .empty
  events := []
  calls := []
  host := host

/-- Records that `expectation` failed at the cursor. Only the furthest failures are kept. -/
def recordFailure (expectation : ExpectationId) (s : State σ α) : State σ α :=
  if s.muted || s.cursor.offset < s.furthest.offset then s
  -- What failed before a further place was reached no longer matters.
  else if s.furthest.offset < s.cursor.offset then
    { s with furthest := s.cursor, expected := [expectation] }
  else { s with expected := expectation :: s.expected }

def mismatch (program : Program) (s : State σ α) : MatchError :=
  let expected := s.expected.reverse.filterMap (program.expectations[·]?)
  .mismatch expected.eraseDups (s.furthest.peek.map Char.toString) s.furthest.charSpan

end State

end Peg
